import ResourceOrder.Resource.Basic

/-!
# Dependency graphs

The nodes of a graph are resources, and a node is named by its place in the list of them.  Each
requirement of a resource is linked to the node that provides it.

* `positions`   the places of a list whose elements satisfy a condition, in order;
* `Link`        a requirement and the node that provides it;
* `Node`        a resource with its links; `Node.dependencies` are the nodes it depends on, each
                once, in the order in which they are first required;
* `Graph`       the nodes in their order.

The places that `positions` gives are those of the elements in question (`mem_positions`).
-/

namespace ResourceOrder

/-! ## places in a list -/

section
variable {α : Type}

/-- the places of the elements that satisfy `p`, in order -/
def positions (p : Nat → α → Bool) (as : List α) : List Nat :=
  (as.zipIdx.filter fun e => p e.2 e.1).map Prod.snd

@[simp] theorem mem_positions {p : Nat → α → Bool} {as : List α} {i : Nat} :
    i ∈ positions p as ↔ ∃ a, as[i]? = some a ∧ p i a := by
  simp only [positions, List.mem_map, List.mem_filter, Prod.exists, exists_eq_right,
    List.mk_mem_zipIdx_iff_getElem?]

end

/-! ## nodes -/

/-- a requirement and the node that provides it -/
structure Link where
  requirement : String
  provider : Nat
deriving DecidableEq

structure Node where
  resource : Resource
  links : List Link
deriving DecidableEq

namespace Node

def name (n : Node) : String := n.resource.name

def dependencies (n : Node) : List Nat := distinct (n.links.map Link.provider)

def missing (n : Node) : List String :=
  n.resource.requires.filter fun r => !(n.links.map Link.requirement).contains r

def dependsOn (n : Node) (i : Nat) : Bool := n.dependencies.contains i

def isFree (n : Node) : Bool := n.dependencies.isEmpty

end Node

/-! ## graphs -/

structure Graph where
  nodes : List Node
deriving DecidableEq

namespace Graph

def size (g : Graph) : Nat := g.nodes.length

def isEmpty (g : Graph) : Bool := g.nodes.isEmpty

def resources (g : Graph) : List Resource := g.nodes.map Node.resource

/-- the nodes that node `i` depends on; there is none beyond the end -/
def dependencies (g : Graph) (i : Nat) : List Nat :=
  ((g.nodes[i]?).map Node.dependencies).getD []

/-- the name of node `i`; beyond the end it is empty -/
def nameOf (g : Graph) (i : Nat) : String := ((g.nodes[i]?).map Node.name).getD ""

def find? (g : Graph) (name : String) : Option Nat := g.nodes.findIdx? fun n => n.name == name

/-- the nodes that depend on node `i`, in node order -/
def dependents (g : Graph) (i : Nat) : List Nat := positions (fun _ n => n.dependsOn i) g.nodes

/-- the nodes that depend on nothing, in node order -/
def free (g : Graph) : List Nat := positions (fun _ n => n.isFree) g.nodes

/-- the nodes that depend on something and that nothing depends on, in node order -/
def entrypoints (g : Graph) : List Nat :=
  positions (fun i n => !n.isFree && (g.dependents i).isEmpty) g.nodes

@[simp] theorem mem_dependents {g : Graph} {i j : Nat} :
    i ∈ g.dependents j ↔ j ∈ g.dependencies i := by
  simp only [dependents, mem_positions, dependencies, Node.dependsOn]
  cases h : g.nodes[i]? with
  | none => simp
  | some n => simp

end Graph

end ResourceOrder
