import ResourceOrder.Json.Basic

/-!
# Reading JSON

`Json.parse?` reads one JSON value that makes up a whole text, up to white space.  Each reading
function takes the text that is left and gives back what it read and the text behind it; none
has an answer if the text does not begin with what it reads.

A string is read in two steps: first its characters and the numbers that its escapes name
(`Unit`), then the text that these make up, where a pair of surrogates names one character
(`joinUnits`).

Values hold values to any depth.  The readers of values take a bound on the steps they may make.
A value that holds others costs two steps and has two brackets, an item that follows another
costs one and has a comma, so the length of the whole text is enough.
-/

namespace ResourceOrder.Json

/-- the characters that may stand between the parts of a JSON text -/
def isSpace (c : Char) : Bool := c == ' ' || c == '\t' || c == '\n' || c == '\r'

def skipSpace (text : List Char) : List Char := text.dropWhile isSpace

/-! ## strings -/

/-- a character of a string, or the number named by an escape -/
inductive Unit where
  | char (c : Char)
  | code (n : Nat)
deriving DecidableEq

/-- the character of an escape of one letter -/
def escapeLetter? : Char → Option Char
  | '"' => some '"'
  | '\\' => some '\\'
  | '/' => some '/'
  | 'b' => some '\x08'
  | 'f' => some '\x0c'
  | 'n' => some '\n'
  | 'r' => some '\r'
  | 't' => some '\t'
  | _ => none

/-- the string up to the quote that closes it -/
def readUnits : List Char → Option (List Unit × List Char)
  | [] => none
  | '"' :: rest => some ([], rest)
  | '\\' :: 'u' :: a :: b :: c :: d :: rest => do
    let n ← number? 16 hexValue? 0 [a, b, c, d]
    let (units, rest) ← readUnits rest
    return (.code n :: units, rest)
  | '\\' :: e :: rest => do
    let c ← escapeLetter? e
    let (units, rest) ← readUnits rest
    return (.char c :: units, rest)
  | c :: rest =>
    if c = '\\' ∨ c.toNat < 0x20 then none
    else do
      let (units, rest) ← readUnits rest
      return (.char c :: units, rest)

/-- the first half of a surrogate pair -/
def isLead (n : Nat) : Bool := 0xD800 ≤ n && n ≤ 0xDBFF

/-- the second half of a surrogate pair -/
def isTrail (n : Nat) : Bool := 0xDC00 ≤ n && n ≤ 0xDFFF

/-- the number of the character that a surrogate pair names -/
def pairCode (lead trail : Nat) : Nat := 0x10000 + (lead - 0xD800) * 0x400 + (trail - 0xDC00)

/-- the text of a string; none if half of a surrogate pair stands alone -/
def joinUnits : List Unit → Option (List Char)
  | [] => some []
  | .char c :: rest => (joinUnits rest).map (c :: ·)
  | .code n :: .code m :: rest =>
    if isLead n && isTrail m then do
      let c ← character? (pairCode n m)
      return c :: (← joinUnits rest)
    else do
      let c ← character? n
      return c :: (← joinUnits (.code m :: rest))
  | .code n :: rest => do
    let c ← character? n
    return c :: (← joinUnits rest)

/-- a string behind its first quote; its text is none if it has none -/
def readString (text : List Char) : Option (Option String × List Char) := do
  let (units, rest) ← readUnits text
  return ((joinUnits units).map String.ofList, rest)

/-! ## numbers and words -/

/-- the digits at the head of a text, of which there is at least one -/
def readDigits (text : List Char) : Option (List Char × List Char) :=
  match text.takeWhile Char.isDigit with
  | [] => none
  | ds => some (ds, text.dropWhile Char.isDigit)

/-- the whole part of a number; a zero stands alone -/
def readWhole : List Char → Option (List Char × List Char)
  | '0' :: rest => some (['0'], rest)
  | text => readDigits text

/-- the part of a number behind a point, if there is a point -/
def readFraction : List Char → Option (List Char × List Char)
  | '.' :: rest => (readDigits rest).map fun (ds, rest) => ('.' :: ds, rest)
  | text => some ([], text)

def readExponent : List Char → Option (List Char × List Char)
  | [] => some ([], [])
  | e :: rest =>
    if e = 'e' ∨ e = 'E' then
      match rest with
      | [] => none
      | s :: more =>
        if s = '+' ∨ s = '-' then (readDigits more).map fun (ds, rest) => (e :: s :: ds, rest)
        else (readDigits rest).map fun (ds, rest) => (e :: ds, rest)
    else some ([], e :: rest)

def readNumber (text : List Char) : Option (List Char × List Char) := do
  let sign := text.takeWhile (· == '-')
  guard (sign.length ≤ 1)
  let (whole, rest) ← readWhole (text.dropWhile (· == '-'))
  let (fraction, rest) ← readFraction rest
  let (exponent, rest) ← readExponent rest
  return (sign ++ whole ++ fraction ++ exponent, rest)

def readWord (word : String) (text : List Char) : Option (List Char) :=
  if word.toList.isPrefixOf text then some (text.drop word.length) else none

/-! ## values -/

/-- an object with these names, if all of them have a text -/
def ofMembers (members : List (Option String × Json)) : Json :=
  match members.mapM fun m => m.1.map (·, m.2) with
  | some ms => .object ms
  | none => .unreadable

mutual

def readValue : Nat → List Char → Option (Json × List Char)
  | 0, _ => none
  | n + 1, text =>
    match skipSpace text with
    | [] => none
    | '"' :: rest => do
      let (s, rest) ← readString rest
      return ((s.map .string).getD .unreadable, rest)
    | '[' :: rest =>
      match skipSpace rest with
      | ']' :: rest => some (.array [], rest)
      | rest => (readItems n rest).map fun (items, rest) => (.array items, rest)
    | '{' :: rest =>
      match skipSpace rest with
      | '}' :: rest => some (.object [], rest)
      | rest => (readMembers n rest).map fun (members, rest) => (ofMembers members, rest)
    | 'n' :: rest => (readWord "ull" rest).map fun rest => (.null, rest)
    | 't' :: rest => (readWord "rue" rest).map fun rest => (.bool true, rest)
    | 'f' :: rest => (readWord "alse" rest).map fun rest => (.bool false, rest)
    | text => (readNumber text).map fun (ds, rest) => (.number (String.ofList ds), rest)

/-- the items of an array, up to the bracket that closes it -/
def readItems : Nat → List Char → Option (List Json × List Char)
  | 0, _ => none
  | n + 1, text => do
    let (j, rest) ← readValue n text
    match skipSpace rest with
    | ']' :: rest => return ([j], rest)
    | ',' :: rest => do
      let (js, rest) ← readItems n rest
      return (j :: js, rest)
    | _ => none

/-- the members of an object, up to the brace that closes it -/
def readMembers : Nat → List Char → Option (List (Option String × Json) × List Char)
  | 0, _ => none
  | n + 1, text =>
    match skipSpace text with
    | '"' :: rest => do
      let (key, rest) ← readString rest
      match skipSpace rest with
      | ':' :: rest => do
        let (j, rest) ← readValue n rest
        match skipSpace rest with
        | '}' :: rest => return ([(key, j)], rest)
        | ',' :: rest => do
          let (ms, rest) ← readMembers n rest
          return ((key, j) :: ms, rest)
        | _ => none
      | _ => none
    | _ => none

end

def parse? (text : List Char) : Option Json := do
  let (j, rest) ← readValue (text.length + 1) text
  if skipSpace rest = [] then some j else none

end ResourceOrder.Json
