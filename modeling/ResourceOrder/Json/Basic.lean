import ResourceOrder.Text.Digit

/-!
# JSON values and how they are written

* `Json`          a JSON value; a number is kept as it is written;
* `Json.compact`  the text of a value without any white space;
* `Json.pretty`   the text of a value with one item on each line, and two spaces for each level.

Both write the members of an object in the order in which they stand.  A string is written as it
is, except for its quotes, backslashes and control characters.

A string may name half of a surrogate pair by its number.  It is well-formed JSON, but it has no
text; `unreadable` stands for such a string, and for an object with such a name.
-/

namespace ResourceOrder

inductive Json where
  | null
  | bool (b : Bool)
  | number (text : String)
  | string (s : String)
  | array (items : List Json)
  | object (members : List (String × Json))
  | unreadable

namespace Json

def nat (n : Nat) : Json := .number (toString n)

def strings (items : List String) : Json := .array (items.map .string)

def string? : Json → Option String
  | .string s => some s
  | _ => none

/-- the strings, if the value is an array of strings -/
def strings? : Json → Option (List String)
  | .array items => items.mapM string?
  | _ => none

/-! ## strings -/

def writeChar (c : Char) : List Char :=
  match c with
  | '"' => ['\\', '"']
  | '\\' => ['\\', '\\']
  | '\x08' => ['\\', 'b']
  | '\x0c' => ['\\', 'f']
  | '\n' => ['\\', 'n']
  | '\r' => ['\\', 'r']
  | '\t' => ['\\', 't']
  | c =>
    if c.toNat < 0x10 then ['\\', 'u', '0', '0', '0'] ++ hexDigits c.toNat
    else if c.toNat < 0x20 then ['\\', 'u', '0', '0'] ++ hexDigits c.toNat
    else [c]

def quoted (s : String) : List Char := '"' :: (s.toList.flatMap writeChar ++ ['"'])

/-- the text of a value that has no parts; of the others, nothing -/
def writeLeaf : Json → List Char
  | .null => "null".toList
  | .bool true => "true".toList
  | .bool false => "false".toList
  | .number text => text.toList
  | .string s => quoted s
  | .unreadable => "\"\\ud800\"".toList
  | _ => []

/-! ## without white space -/

mutual

/-- the text of a value without white space -/
def writeCompact : Json → List Char
  | .array items => '[' :: writeItems items
  | .object members => '{' :: writeMembers members
  | leaf => writeLeaf leaf

/-- the items of an array and the bracket behind them -/
def writeItems : List Json → List Char
  | [] => [']']
  | [j] => writeCompact j ++ [']']
  | j :: js => writeCompact j ++ ',' :: writeItems js

/-- the members of an object and the brace behind them -/
def writeMembers : List (String × Json) → List Char
  | [] => ['}']
  | [(k, j)] => quoted k ++ ':' :: (writeCompact j ++ ['}'])
  | (k, j) :: ms => quoted k ++ ':' :: (writeCompact j ++ ',' :: writeMembers ms)

end

def compact (j : Json) : String := String.ofList (writeCompact j)

/-! ## one item a line -/

/-- the beginning of a line at the given level -/
def lineStart (level : Nat) : List Char := '\n' :: List.replicate (2 * level) ' '

mutual

/-- the text of a value whose own lines stand at the given level -/
def writePretty (level : Nat) : Json → List Char
  | .array [] => ['[', ']']
  | .array items => '[' :: writeItemLines level items
  | .object [] => ['{', '}']
  | .object members => '{' :: writeMemberLines level members
  | leaf => writeLeaf leaf

/-- the items of an array, each on lines of its own, and the bracket behind them -/
def writeItemLines (level : Nat) : List Json → List Char
  | [] => lineStart level ++ [']']
  | [j] => lineStart (level + 1) ++ writePretty (level + 1) j ++ lineStart level ++ [']']
  | j :: js => lineStart (level + 1) ++ writePretty (level + 1) j ++ ',' :: writeItemLines level js

/-- the members of an object, each on lines of its own, and the brace behind them -/
def writeMemberLines (level : Nat) : List (String × Json) → List Char
  | [] => lineStart level ++ ['}']
  | [(k, j)] =>
    lineStart (level + 1) ++ quoted k ++ ':' :: ' ' :: writePretty (level + 1) j ++
      lineStart level ++ ['}']
  | (k, j) :: ms =>
    lineStart (level + 1) ++ quoted k ++ ':' :: ' ' :: writePretty (level + 1) j ++
      ',' :: writeMemberLines level ms

end

def pretty (j : Json) : String := String.ofList (writePretty 0 j)

end Json

end ResourceOrder
