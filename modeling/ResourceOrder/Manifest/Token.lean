import ResourceOrder.Text.Position

/-!
# The tokens of a manifest

A manifest is a list of calls such as `author 'me'`, written with the tokens of a small
general-purpose script language.

* `Keyword`       the words that take part in expressions and declarations of variables;
* `reservedWords` the words that would open or steer a block; a manifest has no blocks, so they
                  are tokens only to be refused;
* `Mark`          brackets, separators and operators;
* `Token`         one of these, a name, a string or a number;
* `Lexeme`        a token and the stretch of text that it was read from.

`Token.text` is how a message shows a token.
-/

namespace ResourceOrder.Manifest

/-! ## words -/

inductive Keyword where
  | localVar
  | nil
  | true
  | false
  | and
  | or
  | not
deriving DecidableEq

def Keyword.text : Keyword → String
  | .localVar => "local"
  | .nil => "nil"
  | .true => "true"
  | .false => "false"
  | .and => "and"
  | .or => "or"
  | .not => "not"

def Keyword.all : List Keyword := [.localVar, .nil, .true, .false, .and, .or, .not]

theorem Keyword.mem_all (k : Keyword) : k ∈ all := by cases k <;> decide

/-- the words of blocks and jumps -/
def reservedWords : List String :=
  ["function", "if", "then", "else", "elseif", "end", "for", "in", "while", "do", "repeat",
    "until", "return", "break", "goto"]

/-! ## marks -/

inductive Mark where
  | leftBrace
  | rightBrace
  | leftParen
  | rightParen
  | leftBracket
  | rightBracket
  | comma
  | semicolon
  | colon
  | dot
  | dotDot
  | ellipsis
  | equal
  | equalEqual
  | tildeEqual
  | less
  | lessEqual
  | greater
  | greaterEqual
  | plus
  | minus
  | star
  | slash
  | slashSlash
  | percent
  | caret
  | hash
deriving DecidableEq

def Mark.text : Mark → String
  | .leftBrace => "\x7b"
  | .rightBrace => "\x7d"
  | .leftParen => "("
  | .rightParen => ")"
  | .leftBracket => "["
  | .rightBracket => "]"
  | .comma => ","
  | .semicolon => ";"
  | .colon => ":"
  | .dot => "."
  | .dotDot => ".."
  | .ellipsis => "..."
  | .equal => "="
  | .equalEqual => "=="
  | .tildeEqual => "~="
  | .less => "<"
  | .lessEqual => "<="
  | .greater => ">"
  | .greaterEqual => ">="
  | .plus => "+"
  | .minus => "-"
  | .star => "*"
  | .slash => "/"
  | .slashSlash => "//"
  | .percent => "%"
  | .caret => "^"
  | .hash => "#"

theorem Mark.text_length_pos (m : Mark) : 0 < m.text.length := by cases m <;> decide

/-- every mark; one that begins another comes behind it, so that the first mark of this list
that begins a text is the longest that does -/
def Mark.all : List Mark :=
  [.ellipsis, .dotDot, .dot, .equalEqual, .equal, .tildeEqual, .lessEqual, .less,
    .greaterEqual, .greater, .slashSlash, .slash, .leftBrace, .rightBrace, .leftParen,
    .rightParen, .leftBracket, .rightBracket, .comma, .semicolon, .colon, .plus, .minus, .star,
    .percent, .caret, .hash]

theorem Mark.mem_all (m : Mark) : m ∈ all := by cases m <;> decide

def Mark.longest? (text : List Char) : Option Mark :=
  all.find? fun m => m.text.toList.isPrefixOf text

/-! ## tokens -/

inductive Token where
  | keyword (k : Keyword)
  | reserved (word : String)
  | name (text : String)
  | string (value : String)
  | number (text : String)
  | mark (m : Mark)
deriving DecidableEq

/-- what a message shows for a token; a string stands for itself only by its kind -/
def Token.text : Token → String
  | .keyword k => k.text
  | .reserved word => word
  | .name text => text
  | .string _ => "<string>"
  | .number text => text
  | .mark m => m.text

def Token.ofWord (word : String) : Token :=
  match Keyword.all.find? fun k => k.text == word with
  | some k => .keyword k
  | none => if reservedWords.contains word then .reserved word else .name word

structure Lexeme where
  token : Token
  span : Span
deriving DecidableEq

end ResourceOrder.Manifest
