/-!
# TOML values

* `Toml`          what a TOML text says; of a fraction and of a date only the kind is kept;
* `Toml.fields?`  a value taken as a record with named fields.

A record is a table; an array is one as well, and gives the fields in order.  A date counts as a
record that has none of the fields in question.
-/

namespace ResourceOrder

inductive Toml where
  | string (s : String)
  | integer (n : Int)
  | fraction
  | boolean (b : Bool)
  | date
  | array (items : List Toml)
  | table (members : List (String × Toml))

namespace Toml

def string? : Toml → Option String
  | .string s => some s
  | _ => none

def boolean? : Toml → Option Bool
  | .boolean b => some b
  | _ => none

def array? : Toml → Option (List Toml)
  | .array items => some items
  | _ => none

/-- a natural number below `limit` -/
def natBelow? (limit : Nat) : Toml → Option Nat
  | .integer (.ofNat n) => if n < limit then some n else none
  | _ => none

/-- the fields with these names, as far as the value has them -/
def fields? (names : List String) : Toml → Option (List (Option Toml))
  | .table members => some (names.map fun name => members.lookup name)
  | .array items => some (names.zipIdx.map fun n => items[n.2]?)
  | .date => some (names.map fun _ => none)
  | _ => none

/-- the value of a field read by `read`, or `default` if the field is missing -/
def orElse? {α : Type} (default : α) (read : Toml → Option α) : Option Toml → Option α
  | none => some default
  | some v => read v

end Toml

end ResourceOrder
