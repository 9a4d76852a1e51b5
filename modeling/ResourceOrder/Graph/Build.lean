import ResourceOrder.Graph.Cycle
import ResourceOrder.Graph.Provider

/-!
# Building a graph

`Graph.build` makes a graph of resources if their names are in order, every requirement has
exactly one provider, and no resource depends on itself through others; these three are checked
one after the other.
-/

namespace ResourceOrder.Graph

def checkCycles (g : Graph) : Except GraphError Graph :=
  match findCycle? g.dependencies g.size with
  | none => .ok g
  | some cycle => .error (.cycle (cycle.map g.nameOf))

def build (rs : List Resource) : Except GraphError Graph := do
  checkIdentities rs
  let nodes ← linkAll rs
  checkCycles ⟨nodes⟩

/-- the nodes that go by a name -/
def providersOf (g : Graph) (name : String) : List Nat := providers g.resources name none

end ResourceOrder.Graph
