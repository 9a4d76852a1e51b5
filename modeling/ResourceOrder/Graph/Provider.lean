import ResourceOrder.Graph.Basic
import ResourceOrder.Graph.Error

/-!
# Who provides what

* `checkIdentities`  every resource must have a name of its own and provide a name;
* `providers`        the resources that go by a name: those that provide it, and only if there
                     are none the one that has it;
* `link`             the node that provides a requirement; the resource itself does not count,
                     and there must be exactly one;
* `linkAll`          the nodes of all resources.

The first resource that fails decides the error, and of that resource its first requirement.
-/

namespace ResourceOrder

/-! ## identities -/

/-- checks the resources from place `index` on, where `seen` are the names in front of it -/
def checkFrom (index : Nat) (seen : List String) : List Resource → Except GraphError Unit
  | [] => .ok ()
  | r :: rs =>
    if r.name = "" then .error (.emptyIdentity index .resource)
    else if r.provides = "" then .error (.emptyIdentity index .provides)
    else if r.name ∈ seen then .error (.duplicateResource r.name)
    else checkFrom (index + 1) (r.name :: seen) rs

/-- names are not empty, and no two resources share one -/
def checkIdentities (rs : List Resource) : Except GraphError Unit := checkFrom 0 [] rs

/-! ## providers -/

/-- the places of the resources that go by the name, except the one at `self` -/
def providers (rs : List Resource) (name : String) (self : Option Nat) : List Nat :=
  let byProvides := positions (fun i r => some i ≠ self && r.provides == name) rs
  if byProvides.isEmpty then positions (fun i r => some i ≠ self && r.name == name) rs
  else byProvides

def nameAt (rs : List Resource) (i : Nat) : String := ((rs[i]?).map Resource.name).getD ""

/-- links a requirement of the resource `r` at place `i` -/
def link (rs : List Resource) (i : Nat) (r : Resource) (requirement : String) :
    Except GraphError Link :=
  match providers rs requirement (some i) with
  | [] => .error (.missingProvider r.name requirement)
  | [provider] => .ok ⟨requirement, provider⟩
  | several => .error (.ambiguousProvider r.name requirement (several.map (nameAt rs)))

def linkNode (rs : List Resource) (i : Nat) (r : Resource) : Except GraphError Node :=
  (r.requires.mapM (link rs i r)).map fun links => ⟨r, links⟩

def linkAll (rs : List Resource) : Except GraphError (List Node) :=
  rs.zipIdx.mapM fun e => linkNode rs e.2 e.1

end ResourceOrder
