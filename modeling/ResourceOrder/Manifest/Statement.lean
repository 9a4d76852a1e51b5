import ResourceOrder.Manifest.Token

/-!
# The statements of a manifest

Of a statement only what can declare a property is kept.

* `Value`      a string that stands alone, or any other expression;
* `Argument`   a string or a table that is written behind a name;
* `StatementKind`  a name with such arguments, or any other statement;
* `Statement`  its kind and the stretch of text it takes up.
-/

namespace ResourceOrder.Manifest

inductive Value where
  | text (s : String)
  | other
deriving DecidableEq

def Value.text? : Value → Option String
  | .text s => some s
  | .other => none

/-- a literal argument; of a table, the values of its fields in order -/
inductive Argument where
  | text (s : String)
  | table (values : List Value)
deriving DecidableEq

inductive StatementKind where
  /-- a bare name followed by nothing but literal arguments -/
  | declaration (name : String) (arguments : List Argument)
  | other
deriving DecidableEq

structure Statement where
  kind : StatementKind
  span : Span
deriving DecidableEq

end ResourceOrder.Manifest
