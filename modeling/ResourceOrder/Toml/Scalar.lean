import ResourceOrder.Text.Digit
import ResourceOrder.Toml.Basic

/-!
# The values of TOML that have no parts

Each reader takes the text that is left and gives back what it read and the text behind it; none
has an answer if the text does not begin with what it reads.

* `readString`   a string in double or single quotes, of one line or of several;
* `readDate`     a date, a time of day, or both, which must exist in the calendar;
* `readFraction` a number with a point or an exponent, and the names of infinity and of what is
                 no number; a number too large for double precision is refused unless it is
                 negative;
* `readInteger`  a whole number in base ten, sixteen, eight or two, of at most 64 bits;
* `readKey`      the name of a member.

A loop takes the number of rounds it may still make and is started with the length of the text,
of which every round reads a character.
-/

namespace ResourceOrder.Toml

/-! ## characters and lines -/

/-- the characters of comments and strings: no control character but the tab -/
def isPlain (c : Char) : Bool := c == '\t' || (0x20 ≤ c.toNat && c.toNat != 0x7F)

/-- the space within a line -/
def isSpace (c : Char) : Bool := c == ' ' || c == '\t'

def skipSpace (text : List Char) : List Char := text.dropWhile isSpace

def lineBreak? : List Char → Option (List Char)
  | '\n' :: rest => some rest
  | '\r' :: '\n' :: rest => some rest
  | _ => none

/-- the text behind a prefix that it must have -/
def expect? (mark : List Char) (text : List Char) : Option (List Char) :=
  if mark.isPrefixOf text then some (text.drop mark.length) else none

def skipLines : Nat → List Char → List Char
  | 0, text => text
  | n + 1, text =>
    match lineBreak? (skipSpace text) with
    | some rest => skipLines n rest
    | none => skipSpace text

/-! ## strings -/

/-- the character with these digits in base sixteen -/
def code? (digits : List Char) : Option Char := do
  character? (← number? 16 hexValue? 0 digits)

/-- the character of an escape behind its backslash -/
def readEscape : List Char → Option (Char × List Char)
  | 'b' :: rest => some ('\x08', rest)
  | 't' :: rest => some ('\t', rest)
  | 'n' :: rest => some ('\n', rest)
  | 'f' :: rest => some ('\x0c', rest)
  | 'r' :: rest => some ('\r', rest)
  | '"' :: rest => some ('"', rest)
  | '\\' :: rest => some ('\\', rest)
  | 'u' :: rest =>
    if rest.length < 4 then none else (code? (rest.take 4)).map (·, rest.drop 4)
  | 'U' :: rest =>
    if rest.length < 8 then none else (code? (rest.take 8)).map (·, rest.drop 8)
  | _ => none

/-- a string of one line up to its closing quote; only in double quotes it has escapes -/
def readLine (quote : Char) : Nat → List Char → Option (List Char × List Char)
  | 0, _ => none
  | _, [] => none
  | n + 1, c :: cs =>
    if c = quote then some ([], cs)
    else if c = '\\' ∧ quote = '"' then do
      let (d, rest) ← readEscape cs
      let (s, rest) ← readLine quote n rest
      return (d :: s, rest)
    else if isPlain c then do
      let (s, rest) ← readLine quote n cs
      return (c :: s, rest)
    else none

/-- a string of several lines up to its three closing quotes.  Two more quotes in front of these
belong to the string.  A line break is read as a newline, and one behind a backslash is left out
with all white space and line breaks that follow it. -/
def readLines (quote : Char) : Nat → List Char → Option (List Char × List Char)
  | 0, _ => none
  | _, [] => none
  | n + 1, c :: cs =>
    let quotes := min 5 ((c :: cs).takeWhile (· == quote)).length
    if 3 ≤ quotes then some (List.replicate (quotes - 3) quote, (c :: cs).drop quotes)
    else if c = '\\' ∧ quote = '"' then
      match lineBreak? (skipSpace cs) with
      | some rest => readLines quote n (skipLines rest.length rest)
      | none => do
        let (d, rest) ← readEscape cs
        let (s, rest) ← readLines quote n rest
        return (d :: s, rest)
    else
      match lineBreak? (c :: cs) with
      | some rest => do
        let (s, rest) ← readLines quote n rest
        return ('\n' :: s, rest)
      | none =>
        if isPlain c then do
          let (s, rest) ← readLines quote n cs
          return (c :: s, rest)
        else none

/-- a string; a line break directly behind three opening quotes does not count -/
def readString : List Char → Option (List Char × List Char)
  | [] => none
  | q :: cs =>
    if q = '"' ∨ q = '\'' then
      match expect? [q, q] cs with
      | some body =>
        let body := (lineBreak? body).getD body
        readLines q body.length body
      | none => readLine q cs.length cs
    else none

/-! ## dates and times -/

/-- a number of exactly `count` digits, between `low` and `high` -/
def readFixed (count low high : Nat) (text : List Char) : Option (Nat × List Char) := do
  guard (count ≤ text.length)
  let n ← number? 10 decimalValue? 0 (text.take count)
  guard (low ≤ n ∧ n ≤ high)
  return (n, text.drop count)

def isLeapYear (year : Nat) : Bool := year % 4 == 0 && (year % 100 != 0 || year % 400 == 0)

def daysIn (year month : Nat) : Nat :=
  if month = 2 then (if isLeapYear year then 29 else 28)
  else if month = 4 ∨ month = 6 ∨ month = 9 ∨ month = 11 then 30
  else 31

def readDay (text : List Char) : Option (List Char) := do
  let (year, text) ← readFixed 4 0 9999 text
  let text ← expect? ['-'] text
  let (month, text) ← readFixed 2 1 12 text
  let text ← expect? ['-'] text
  let (_, text) ← readFixed 2 1 (daysIn year month) text
  return text

def readMinutes (text : List Char) : Option (List Char) := do
  let (_, text) ← readFixed 2 0 23 text
  let text ← expect? [':'] text
  let (_, text) ← readFixed 2 0 59 text
  return text

def readTime (text : List Char) : Option (List Char) := do
  let text ← readMinutes text
  let text ← expect? [':'] text
  let (_, text) ← readFixed 2 0 60 text
  match text with
  | '.' :: rest =>
    guard (rest.head?.any Char.isDigit)
    return rest.dropWhile Char.isDigit
  | text => return text

/-- the text behind the distance from universal time, if it stands there -/
def readOffset : List Char → Option (List Char)
  | [] => some []
  | c :: rest =>
    if c = 'Z' ∨ c = 'z' then some rest
    else if c = '+' ∨ c = '-' then readMinutes rest
    else some (c :: rest)

/-- a day with or without a time of day, or a time of day -/
def readDate (text : List Char) : Option (Toml × List Char) :=
  match readDay text with
  | none => (readTime text).map (.date, ·)
  | some [] => some (.date, [])
  | some (c :: rest) =>
    if c = 'T' ∨ c = 't' ∨ (c = ' ' ∧ (readTime rest).isSome) then do
      let rest ← readOffset (← readTime rest)
      return (.date, rest)
    else some (.date, c :: rest)

/-! ## numbers -/

/-- digits, between two of which an underscore may stand -/
def readDigits (digit : Char → Bool) : Nat → List Char → Option (List Char × List Char)
  | 0, _ => none
  | _, [] => none
  | n + 1, c :: cs =>
    if digit c then
      match cs with
      | '_' :: rest => (readDigits digit n rest).map fun (ds, rest) => (c :: ds, rest)
      | d :: rest =>
        if digit d then
          (readDigits digit n (d :: rest)).map fun (ds, rest) => (c :: ds, rest)
        else some ([c], d :: rest)
      | [] => some ([c], [])
    else none

/-- a sign, if there is one; whether it is a minus -/
def readSign : List Char → Bool × List Char
  | '+' :: rest => (false, rest)
  | '-' :: rest => (true, rest)
  | text => (false, text)

/-- digits that do not begin with a zero, or a zero alone -/
def readWhole : List Char → Option (List Char × List Char)
  | '0' :: rest => some (['0'], rest)
  | text => readDigits Char.isDigit text.length text

def decimal (digits : List Char) : Nat := (number? 10 decimalValue? 0 digits).getD 0

/-- whether the number `digits` times ten to the power of `exponent` is beyond the numbers of
double precision, rounding included -/
def isTooLarge (digits : List Char) (exponent : Int) : Bool :=
  let n := decimal digits
  let limit := Nat.pow 2 1024 - Nat.pow 2 970
  if n = 0 then false
  else match exponent with
    | .ofNat e => 400 ≤ e || limit ≤ n * Nat.pow 10 e
    | .negSucc e => e + 1 ≤ digits.length && limit * Nat.pow 10 (e + 1) ≤ n

/-- the digits behind a point, if there is a point -/
def readPlaces : List Char → Option (List Char × List Char)
  | '.' :: rest => readDigits Char.isDigit rest.length rest
  | text => some ([], text)

def readExponent : List Char → Option (Int × List Char)
  | [] => some (0, [])
  | c :: cs =>
    if c = 'e' ∨ c = 'E' then do
      let (negative, rest) := readSign cs
      let (ds, rest) ← readDigits Char.isDigit rest.length rest
      return (if negative then -(decimal ds : Int) else decimal ds, rest)
    else some (0, c :: cs)

def readPointed (text : List Char) : Option (Toml × List Char) := do
  let (negative, text) := readSign text
  let (whole, text) ← readWhole text
  guard (text.head?.any fun c => c == '.' || c == 'e' || c == 'E')
  let (places, text) ← readPlaces text
  let (exponent, text) ← readExponent text
  guard (negative || !isTooLarge (whole ++ places) (exponent - places.length))
  return (.fraction, text)

/-- a number with a point or an exponent, or one of the special names -/
def readFraction (text : List Char) : Option (Toml × List Char) :=
  match readPointed text with
  | some r => some r
  | none =>
    let (_, rest) := readSign text
    match expect? "inf".toList rest with
    | some rest => some (.fraction, rest)
    | none => (expect? "nan".toList rest).map (.fraction, ·)

/-- whole numbers lie below this one, and negative ones are at least its opposite -/
def integerBound : Nat := 0x8000000000000000

def readBase (base : Nat) (text : List Char) : Option (Toml × List Char) := do
  let digit (c : Char) : Bool := (hexValue? c).any (· < base)
  let (ds, rest) ← readDigits digit text.length text
  let n ← number? base hexValue? 0 ds
  guard (n < integerBound)
  return (.integer n, rest)

def readInteger : List Char → Option (Toml × List Char)
  | '0' :: 'x' :: rest => readBase 16 rest
  | '0' :: 'o' :: rest => readBase 8 rest
  | '0' :: 'b' :: rest => readBase 2 rest
  | text => do
    let (negative, text) := readSign text
    let (ds, rest) ← readWhole text
    let n := decimal ds
    guard (n < integerBound ∨ (negative ∧ n = integerBound))
    return (.integer (if negative then -(n : Int) else n), rest)

def readNumber (text : List Char) : Option (Toml × List Char) :=
  match readDate text with
  | some r => some r
  | none =>
    match readFraction text with
    | some r => some r
    | none => readInteger text

def readName (text : List Char) : Option (Toml × List Char) :=
  match expect? "true".toList text with
  | some rest => some (.boolean true, rest)
  | none =>
    match expect? "false".toList text with
    | some rest => some (.boolean false, rest)
    | none => if text.head? = some 'i' ∨ text.head? = some 'n' then readFraction text else none

/-! ## keys -/

def isKeyChar (c : Char) : Bool := c.isAlphanum || c == '_' || c == '-'

/-- one name: letters, digits, dashes and underscores, or a string of one line -/
def readSimpleKey : List Char → Option (String × List Char)
  | [] => none
  | c :: cs =>
    if c = '"' ∨ c = '\'' then
      (readLine c cs.length cs).map fun (s, rest) => (String.ofList s, rest)
    else if isKeyChar c then
      some (String.ofList ((c :: cs).takeWhile isKeyChar), (c :: cs).dropWhile isKeyChar)
    else none

/-- the least number of names or of values inside one another that is refused -/
def depthLimit : Nat := 80

/-- names with points between them -/
def readKeys : Nat → List Char → Option (List String × List Char)
  | 0, _ => none
  | n + 1, text => do
    let (key, rest) ← readSimpleKey (skipSpace text)
    match skipSpace rest with
    | '.' :: rest => do
      let (keys, rest) ← readKeys n rest
      return (key :: keys, rest)
    | rest => return ([key], rest)

/-- the way to a member, not too long, and the text behind it and behind any space -/
def readKey (text : List Char) : Option (List String × List Char) := do
  let (keys, rest) ← readKeys (text.length + 1) text
  guard (keys.length < depthLimit)
  return (keys, rest)

end ResourceOrder.Toml
