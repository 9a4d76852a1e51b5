/-!
# Why resources form no graph

* `GraphError`          the causes;
* `GraphError.message`  the wording of each.
-/

namespace ResourceOrder

/-- the names that a resource must have -/
inductive IdentityField where
  | resource
  | provides
deriving DecidableEq

def IdentityField.text : IdentityField → String
  | .resource => "resource"
  | .provides => "provides"

inductive GraphError where
  /-- no other resource goes by the required name -/
  | missingProvider (resource requirement : String)
  /-- several other resources provide the required name -/
  | ambiguousProvider (resource requirement : String) (providers : List String)
  /-- each resource of the path requires the next one, and the last one is the first -/
  | cycle (path : List String)
  /-- two resources have this name -/
  | duplicateResource (name : String)
  /-- the resource at this place has no such name -/
  | emptyIdentity (index : Nat) (field : IdentityField)
deriving DecidableEq

def GraphError.message : GraphError → String
  | .missingProvider resource requirement =>
    "Resource \"" ++ resource ++ "\" depends on \"" ++ requirement ++
      "\", but it could not be found"
  | .ambiguousProvider resource requirement providers =>
    "Resource \"" ++ resource ++ "\" depends on \"" ++ requirement ++
      "\", but multiple resources provide it (" ++ "/".intercalate providers ++ ")"
  | .cycle path => "Circular dependency detected: " ++ " -> ".intercalate path
  | .duplicateResource name => "Resource \"" ++ name ++ "\" is declared more than once"
  | .emptyIdentity index field =>
    "Resource #" ++ toString index ++ " has an empty " ++ field.text

end ResourceOrder
