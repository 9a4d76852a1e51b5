import ResourceOrder.Graph.Basic

/-!
# Drawing a graph as a tree

The roots are the nodes that depend on nothing; below a node stand the nodes that depend on it.
A node with several dependencies is drawn below each of them.

* `drawLevel`  siblings, each followed by what is drawn below it;
* `draw`       siblings with all that depends on them;
* `tree`       the whole drawing, a line for each node.

A line has two characters for each level above it, a bar if more siblings follow there, then a
corner for the last sibling or a fork for any other, and the name.  The depth of a drawing is
bounded by the number of nodes, as in a graph without cycles no chain is longer.
-/

namespace ResourceOrder.Graph

/-- what stands on the following lines below a sibling -/
def indentBelow (last : Bool) : String := if last then "  " else "│ "

/-- what stands in front of the name of a sibling -/
def connector (last : Bool) : String := if last then "└" else "├"

/-- the lines of siblings; `below` draws what stands below one of them at an indent -/
def drawLevel (nameOf : Nat → String) (below : String → Nat → List String) (indent : String) :
    List Nat → List String
  | [] => []
  | i :: rest =>
    let last := rest.isEmpty
    (indent ++ connector last ++ " " ++ nameOf i) ::
      (below (indent ++ indentBelow last) i ++ drawLevel nameOf below indent rest)

/-- the lines of siblings and of all that depends on them, down to the given depth -/
def draw (g : Graph) : Nat → String → List Nat → List String
  | 0, _, _ => []
  | depth + 1, indent, level =>
    drawLevel g.nameOf (fun indent i => draw g depth indent (g.dependents i)) indent level

def tree (g : Graph) : List String := g.draw g.size "" g.free

def treeHeading : String := "All Resources"

end ResourceOrder.Graph
