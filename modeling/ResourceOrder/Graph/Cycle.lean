/-!
# Cycles

Vertices are numbers, and `next v` are the vertices to which `v` has an edge.

* `cycleAt`    the cycle that a path closes when it comes back to one of its vertices;
* `search`     a depth-first search below a vertex, which fails with the first cycle it meets;
* `findCycle?` the search below every vertex in turn.

The search goes along a path of vertices that it has entered and not left, and remembers the
vertices that it has left.  It does not enter a vertex of either kind again, so a path never
holds a vertex twice, and its length is at most the number of vertices.  That number bounds the
depth of the search.
-/

namespace ResourceOrder

/-- the cycle closed by an edge from the first vertex of the path to the vertex `w` on it; the
path has its latest vertex first, the cycle begins and ends with `w` -/
def cycleAt (w : Nat) (path : List Nat) : List Nat :=
  w :: ((path.takeWhile (· ≠ w)).reverse ++ [w])

/-- the vertices that have been left after a search below `v`, or a cycle; `path` are the
vertices being searched with the latest first, `done` those that have been left before -/
def search (next : Nat → List Nat) :
    Nat → List Nat → List Nat → Nat → Except (List Nat) (List Nat)
  | 0, _, done, _ => .ok done
  | depth + 1, path, done, v => do
    let done ← (next v).foldlM (fun done w =>
      if w ∈ v :: path then .error (cycleAt w (v :: path))
      else if w ∈ done then .ok done
      else search next depth (v :: path) done w) done
    return v :: done

/-- the search below every vertex that has not been left yet, in order -/
def searchAll (next : Nat → List Nat) (count : Nat) : Except (List Nat) (List Nat) :=
  (List.range count).foldlM (fun done v =>
    if v ∈ done then .ok done else search next count [] done v) []

/-- the first cycle of the graph with the vertices below `count` -/
def findCycle? (next : Nat → List Nat) (count : Nat) : Option (List Nat) :=
  match searchAll next count with
  | .ok _ => none
  | .error cycle => some cycle

end ResourceOrder
