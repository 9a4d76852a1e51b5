import ResourceOrder.Diagnostic
import ResourceOrder.Graph.Basic

/-!
# The load order

The nodes that depend on nothing come first.  Then, from each entrypoint, its dependencies are
placed in the order in which they are declared, each behind its own dependencies, and the
entrypoint behind them.  A node is placed once, where it is met first.

* `Walk`       the nodes placed so far, and what was found on the way;
* `visit`      places what a node depends on, and the node;
* `LoadOrder`  the nodes in the order, and their names.

The depth of a visit is bounded by the number of nodes: in a graph without cycles no chain of
dependencies is longer.
-/

namespace ResourceOrder

structure Walk where
  order : List Nat
  diagnostics : List Diagnostic
deriving DecidableEq

namespace Walk

/-- places a node unless it is placed already -/
def place (w : Walk) (i : Nat) : Walk :=
  if i ∈ w.order then w else { w with order := w.order ++ [i] }

def report (w : Walk) (g : Graph) (i : Nat) : Walk :=
  match (g.nodes[i]?).map Node.missing with
  | some (r :: rs) =>
    { w with diagnostics := w.diagnostics ++
        [(Diagnostic.mk none (.missingDependencies (r :: rs))).forResource (g.nameOf i)] }
  | _ => w

end Walk

namespace Graph

/-- places what node `i` depends on, and then the node -/
def visit (g : Graph) : Nat → Walk → Nat → Walk
  | 0, w, _ => w
  | depth + 1, w, i =>
    if i ∈ w.order then w
    else ((g.dependencies i).foldl (visit g depth) (w.report g i)).place i

def walk (g : Graph) : Walk :=
  g.entrypoints.foldl (g.visit g.size) (g.free.foldl Walk.place ⟨[], []⟩)

end Graph

/-- nodes in the order in which they load, their names, and what was found in ordering them -/
structure LoadOrder where
  nodes : List Nat
  names : List String
  diagnostics : List Diagnostic
deriving DecidableEq

namespace LoadOrder

def size (o : LoadOrder) : Nat := o.nodes.length

def isEmpty (o : LoadOrder) : Bool := o.nodes.isEmpty

def position? (o : LoadOrder) (name : String) : Option Nat := o.names.findIdx? (· == name)

end LoadOrder

def Graph.loadOrder (g : Graph) : LoadOrder :=
  let w := g.walk
  ⟨w.order, w.order.map g.nameOf, w.diagnostics⟩

end ResourceOrder
