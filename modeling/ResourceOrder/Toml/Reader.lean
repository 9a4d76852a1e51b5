import ResourceOrder.Toml.Scalar
import ResourceOrder.Toml.Table

/-!
# Reading TOML

`Toml.parse?` reads a whole text as a table.

* `readValue`     a value, with the values that it holds;
* `readLineEnd`   the end of a line, with or without a comment in front of it;
* `readDocument`  the lines of a text: members, headers, comments and empty lines.

The readers of values take a bound on the steps they may make.  A value that holds others costs
two steps and has two brackets, one that follows another costs one and has a comma, so the
length of the text is enough.
-/

namespace ResourceOrder.Toml

/-! ## gaps -/

def skipComment : List Char → List Char
  | '#' :: rest => rest.dropWhile isPlain
  | text => text

/-- the text behind space, comments and line breaks -/
def skipGap : Nat → List Char → Option (List Char)
  | 0, text => some text
  | n + 1, text =>
    match skipSpace text with
    | '#' :: rest =>
      match lineBreak? (rest.dropWhile isPlain) with
      | some rest => skipGap n rest
      | none => none
    | text =>
      match lineBreak? text with
      | some rest => skipGap n rest
      | none => some text

def readLineEnd (text : List Char) : Option (List Char) :=
  match skipComment (skipSpace text) with
  | [] => some []
  | rest => lineBreak? rest

/-! ## values -/

/-- a member of a table with the way to it -/
structure Pair where
  way : List String
  key : String
  value : Toml

/-- a way and a value as a member; a way has at least one name -/
def Pair.of? (keys : List String) (v : Toml) : Option Pair :=
  keys.getLast?.map fun key => ⟨keys.dropLast, key, v⟩

def tableOf? (pairs : List Pair) : Option Toml :=
  (pairs.foldlM (fun items p => assign p.way p.key p.value items) []).map fun items =>
    .table (membersToToml items)

mutual

/-- a value inside `depth` others -/
def readValue : Nat → Nat → List Char → Option (Toml × List Char)
  | 0, _, _ => none
  | n + 1, depth, text =>
    match text with
    | [] => none
    | '[' :: rest => do
      guard (depth + 1 < depthLimit)
      match ← skipGap rest.length rest with
      | ']' :: rest => return (.array [], rest)
      | rest => do
        let (items, rest) ← readItems n (depth + 1) rest
        return (.array items, rest)
    | '{' :: rest => do
      guard (depth + 1 < depthLimit)
      match skipSpace rest with
      | '}' :: rest => return (.table [], rest)
      | rest => do
        let (pairs, rest) ← readPairs n (depth + 1) rest
        return (← tableOf? pairs, rest)
    | c :: cs =>
      if c = '"' ∨ c = '\'' then
        (readString (c :: cs)).map fun (s, rest) => (.string (String.ofList s), rest)
      else if c.isDigit ∨ c = '+' ∨ c = '-' then readNumber (c :: cs)
      else readName (c :: cs)

/-- the items of an array up to the closing bracket; a comma may stand in front of it -/
def readItems : Nat → Nat → List Char → Option (List Toml × List Char)
  | 0, _, _ => none
  | n + 1, depth, text => do
    let (v, rest) ← readValue n depth text
    match ← skipGap rest.length rest with
    | ']' :: rest => return ([v], rest)
    | ',' :: rest =>
      match ← skipGap rest.length rest with
      | ']' :: rest => return ([v], rest)
      | rest => do
        let (vs, rest) ← readItems n depth rest
        return (v :: vs, rest)
    | _ => none

/-- the members of a table up to the closing brace -/
def readPairs : Nat → Nat → List Char → Option (List Pair × List Char)
  | 0, _, _ => none
  | n + 1, depth, text => do
    let (keys, rest) ← readKey text
    let rest ← expect? ['='] rest
    let (v, rest) ← readValue n depth (skipSpace rest)
    let pair ← Pair.of? keys v
    match skipSpace rest with
    | '}' :: rest => return ([pair], rest)
    | ',' :: rest => do
      let (pairs, rest) ← readPairs n depth rest
      return (pair :: pairs, rest)
    | _ => none

end

/-! ## documents -/

/-- the items written so far, and the way to the table that is being written -/
structure Draft where
  items : Items
  current : List String

/-- a header with the given closing bracket; `make` opens what it names -/
def readHeader (close : List Char) (make : List String → String → Items → Option Items)
    (d : Draft) (text : List Char) : Option (Draft × List Char) := do
  let (keys, rest) ← readKey text
  let rest ← expect? close rest
  let key ← keys.getLast?
  let items ← make keys.dropLast key d.items
  return (⟨items, keys⟩, ← readLineEnd rest)

def readMember (d : Draft) (text : List Char) : Option (Draft × List Char) := do
  let (keys, rest) ← readKey text
  let rest ← expect? ['='] rest
  let rest := skipSpace rest
  let (v, rest) ← readValue (rest.length + 1) 0 rest
  let p ← Pair.of? keys v
  let items ← within false (fun _ items => assign p.way p.key p.value items) .header d.current
    d.items
  return (⟨items, d.current⟩, ← readLineEnd rest)

def readDocument : Nat → Draft → List Char → Option Draft
  | 0, d, _ => some d
  | n + 1, d, text =>
    match skipSpace text with
    | [] => some d
    | '[' :: '[' :: rest => do
      let (d, rest) ← readHeader [']', ']'] openRow d rest
      readDocument n d rest
    | '[' :: rest => do
      let (d, rest) ← readHeader [']'] openTable d rest
      readDocument n d rest
    | c :: cs =>
      if c = '#' ∨ c = '\n' ∨ c = '\r' then do readDocument n d (← readLineEnd (c :: cs))
      else do
        let (d, rest) ← readMember d (c :: cs)
        readDocument n d rest

/-- the table that a text says; a byte-order mark in front of it does not count -/
def parse? (text : List Char) : Option Toml :=
  let text := (expect? ['\ufeff'] text).getD text
  (readDocument (text.length + 1) ⟨[], []⟩ text).map fun d => .table (membersToToml d.items)

end ResourceOrder.Toml
