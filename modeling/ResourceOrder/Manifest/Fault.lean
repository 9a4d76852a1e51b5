import ResourceOrder.Text.Visible
import ResourceOrder.Manifest.Token

/-!
# What can be wrong with the text of a manifest

* `Fault`       a stretch of text that is no token, comment or gap;
* `LexError`    a fault and where it stands;
* `Complaint`   why a list of tokens is no manifest, faults of the text included;
* `ManifestError`  a complaint with its line and column and the text it is about.

Each cause has one wording: `LexError.message` for a fault that is reported with all the others
of its text, `Complaint.message` for the one that stops the reading of a manifest.
-/

namespace ResourceOrder.Manifest

/-! ## faults of the text -/

inductive Fault where
  /-- no token begins with this character -/
  | unexpectedCharacter (c : Char)
  /-- the quote or bracket that opens a string has no partner -/
  | unterminatedString
  /-- the bracket that opens a comment has no partner -/
  | unterminatedComment
  /-- a string between quotes that holds an unknown escape -/
  | invalidEscape (literal : String)
deriving DecidableEq

def Fault.title : Fault → String
  | .unexpectedCharacter c => "Unexpected character '" ++ c.toString ++ "'"
  | .unterminatedString => "Unterminated string"
  | .unterminatedComment => "Unterminated block comment"
  | .invalidEscape literal => "Invalid escape sequence in " ++ literal

structure LexError where
  fault : Fault
  span : Span
deriving DecidableEq

/-- the wording of a place, line before column -/
def placeText (line column : UInt32) : String := toString line ++ ":" ++ toString column

def LexError.message (e : LexError) : String :=
  e.fault.title ++ " at " ++ placeText e.span.line e.span.column

/-! ## complaints about a manifest -/

/-- what should stand where something else does -/
inductive Expectation where
  | mark (m : Mark)
  | name
  | expression
  | callArguments
deriving DecidableEq

def Expectation.text : Expectation → String
  | .mark m => "`" ++ m.text ++ "`"
  | .name => "a name"
  | .expression => "an expression"
  | .callArguments => "call arguments"

inductive Complaint where
  /-- the text has a fault; it is the first one -/
  | lexical (f : Fault)
  /-- another token stands there, or the text ends -/
  | expected (what : Expectation) (found : Option Token)
  /-- values and tables lie too deep inside one another -/
  | nestedTooDeep
  /-- a word of blocks and jumps -/
  | unsupported (word : String)
  /-- a word of blocks and jumps behind `local` -/
  | unsupportedLocal (word : String)
  /-- neither a name, a field nor an element stands on the left of an assignment -/
  | unassignable
  /-- a statement that is neither a call nor an assignment -/
  | withoutEffect
  /-- said by an interpreter with rules of its own -/
  | other (message : String)
deriving DecidableEq

/-- how a message shows the token that was found; a string is shown with its value -/
def foundText : Option Token → String
  | none => "<eof>"
  | some (.string value) => "\"" ++ value ++ "\""
  | some t => t.text

def Complaint.message : Complaint → String
  | .lexical (.unexpectedCharacter c) =>
    "unexpected character `" ++ String.ofList (escapeChar c) ++ "`"
  | .lexical .unterminatedString => "unterminated string"
  | .lexical .unterminatedComment => "unterminated block comment"
  | .lexical (.invalidEscape literal) => "invalid escape sequence in " ++ literal
  | .expected what found => "expected " ++ what.text ++ ", found `" ++ foundText found ++ "`"
  | .nestedTooDeep => "expression nesting too deep"
  | .unsupported word => "`" ++ word ++ "` is not supported in manifests"
  | .unsupportedLocal word => "`local " ++ word ++ "` is not supported in manifests"
  | .unassignable => "cannot assign to this expression"
  | .withoutEffect => "expected a call or an assignment"
  | .other message => message

/-- why a manifest cannot be read, where, and the whole text of the manifest -/
structure ManifestError where
  complaint : Complaint
  line : UInt32
  column : UInt32
  source : String
deriving DecidableEq

def ManifestError.detail (e : ManifestError) : String := e.complaint.message

def ManifestError.message (e : ManifestError) : String :=
  "Manifest syntax error at " ++ placeText e.line e.column ++ ": " ++ e.detail

end ResourceOrder.Manifest
