import ResourceOrder.Graph.LoadOrder
import ResourceOrder.Proofs.Graph.Acceptance

/-!
# The load order as a list of first occurrences

* `expand`           everything that a vertex leads to, each thing behind what it leads to itself,
                     and the vertex at the end; what is reached twice is written twice;
* `Graph.expansion`  this for the dependencies of a node;
* `Walk.Sound`       a walk in which no node comes twice or in front of one that it depends on.

The walk of a graph does not go below a node that is placed already.  Nothing is lost by this: the
nodes that are placed form a settled list, so all that the node leads to is placed as well.  Each
visit therefore adds the first occurrences of an expansion (`Graph.visit_eq`), and the load order
has the first occurrences of all expansions (`Graph.loadOrder_firstOccurrences`).
-/

namespace ResourceOrder

/-- what `v` leads to in at most `depth` steps, each vertex behind those that come next after it -/
def expand (next : Nat → List Nat) : Nat → Nat → List Nat
  | 0, _ => []
  | depth + 1, v => (next v).flatMap (expand next depth) ++ [v]

structure Walk.Sound (next : Nat → List Nat) (w : Walk) : Prop where
  nodup : w.order.Nodup
  settled : Settled next w.order.reverse

section
variable {next : Nat → List Nat}

/-! ## expansions -/

theorem expand_succ (depth v : Nat) :
    expand next (depth + 1) v = (next v).flatMap (expand next depth) ++ [v] := rfl

theorem mem_expand_self {depth v : Nat} (h : Shallow next depth v) : v ∈ expand next depth v := by
  cases depth with
  | zero => exact False.elim h
  | succ depth => simp [expand_succ]

/-- more depth than needed changes nothing -/
theorem expand_eq_of_shallow {d e : Nat} (hde : d ≤ e) {v : Nat} (h : Shallow next d v) :
    expand next e v = expand next d v := by
  induction d generalizing e v with
  | zero => exact False.elim h
  | succ d ih =>
    obtain ⟨e, rfl⟩ : ∃ e', e = e' + 1 := ⟨e - 1, by omega⟩
    rw [expand_succ, expand_succ, List.flatMap_congr fun w hw => ih (by omega) (h w hw)]

theorem expand_lt {count : Nat} (hbelow : ∀ v w, w ∈ next v → w < count) {depth v u : Nat}
    (hv : v < count) (hu : u ∈ expand next depth v) : u < count := by
  induction depth generalizing v with
  | zero => exact absurd hu (by simp [expand])
  | succ depth ih =>
    rw [expand_succ, List.mem_append, List.mem_flatMap, List.mem_singleton] at hu
    rcases hu with ⟨w, hw, hu⟩ | rfl
    · exact ih (hbelow v w hw) hu
    · exact hv

/-- a settled list has all that its vertices lead to -/
theorem Settled.expand_subset {l : List Nat} (h : Settled next l) {depth v u : Nat} (hv : v ∈ l)
    (hu : u ∈ expand next depth v) : u ∈ l := by
  induction depth generalizing v with
  | zero => exact absurd hu (by simp [expand])
  | succ depth ih =>
    rw [expand_succ, List.mem_append, List.mem_flatMap, List.mem_singleton] at hu
    rcases hu with ⟨w, hw, hu⟩ | rfl
    · exact ih (h.mem_of_edge hv hw) hu
    · exact hv

theorem Settled.append_flatMap {f : Nat → List Nat} {ws : List Nat}
    (hf : ∀ w ∈ ws, ∀ l, Settled next l → Settled next ((f w).reverse ++ l)) :
    ∀ l, Settled next l → Settled next ((ws.flatMap f).reverse ++ l) := by
  induction ws with
  | nil => exact fun _ hl => hl
  | cons w ws ih =>
    intro l hl
    rw [List.flatMap_cons, List.reverse_append, List.append_assoc]
    exact ih (fun u hu => hf u (List.mem_cons_of_mem _ hu)) _ (hf w (List.mem_cons_self ..) l hl)

/-- an expansion may stand in front of a settled list -/
theorem Settled.append_expand {depth v : Nat} (h : Shallow next depth v) :
    ∀ l, Settled next l → Settled next ((expand next depth v).reverse ++ l) := by
  induction depth generalizing v with
  | zero => exact False.elim h
  | succ depth ih =>
    intro l hl
    rw [expand_succ, List.reverse_append, List.reverse_singleton, List.singleton_append,
      List.cons_append]
    refine ⟨fun w hw => ?_, Settled.append_flatMap (fun w hw => ih (h w hw)) l hl⟩
    refine List.mem_append_left _ (List.mem_reverse.2 ?_)
    exact List.mem_flatMap.2 ⟨w, hw, mem_expand_self (h w hw)⟩

theorem Settled.distinct {l : List Nat} (h : Settled next l.reverse) :
    Settled next (ResourceOrder.distinct l).reverse := by
  rw [reverse_distinct]
  exact h.dedup

/-! ## walks -/

namespace Walk

/-- the walk that has also placed what is new in a list -/
def extend (w : Walk) (l : List Nat) : Walk := { w with order := distinct (w.order ++ l) }

theorem extend_nil {w : Walk} (h : w.order.Nodup) : w.extend [] = w := by
  rw [extend, List.append_nil, distinct_of_nodup h]

theorem extend_extend (w : Walk) (a b : List Nat) : (w.extend a).extend b = w.extend (a ++ b) := by
  simp only [extend, distinct_distinct_append, List.append_assoc]

theorem extend_of_subset {w : Walk} (h : w.order.Nodup) {l : List Nat}
    (hl : ∀ i ∈ l, i ∈ w.order) : w.extend l = w := by
  rw [extend, distinct_append_of_subset hl, distinct_of_nodup h]

theorem extend_nodup (w : Walk) (l : List Nat) : (w.extend l).order.Nodup := nodup_distinct _

theorem place_eq {w : Walk} (h : w.order.Nodup) (i : Nat) : w.place i = w.extend [i] := by
  rw [place, extend, distinct_concat, distinct_of_nodup h]
  split <;> rfl

theorem foldl_place {ws : List Nat} :
    ∀ {w : Walk}, w.order.Nodup → ws.foldl place w = w.extend ws := by
  induction ws with
  | nil => exact fun h => (extend_nil h).symm
  | cons i ws ih =>
    intro w h
    rw [List.foldl_cons, place_eq h, ih (extend_nodup w [i]), extend_extend]
    rfl

theorem Sound.extend {w : Walk} (h : w.Sound next) {l : List Nat}
    (hl : Settled next w.order.reverse → Settled next (l.reverse ++ w.order.reverse)) :
    (w.extend l).Sound next where
  nodup := extend_nodup w l
  settled := Settled.distinct (by rw [List.reverse_append]; exact hl h.settled)

theorem report_eq {g : Graph} (hm : ∀ n ∈ g.nodes, n.missing = []) (w : Walk) (i : Nat) :
    w.report g i = w := by
  rw [report]
  cases hn : g.nodes[i]? with
  | none => rfl
  | some n =>
    rw [Option.map_some, hm n (List.mem_of_getElem? hn)]

end Walk

namespace Graph
variable {g : Graph}

theorem foldl_visit {depth : Nat} {ws : List Nat} (hws : ∀ i ∈ ws, Shallow g.dependencies depth i)
    (hvisit : ∀ i ∈ ws, ∀ w : Walk, w.Sound g.dependencies →
      g.visit depth w i = w.extend (expand g.dependencies depth i)) :
    ∀ {w : Walk}, w.Sound g.dependencies →
      ws.foldl (g.visit depth) w = w.extend (ws.flatMap (expand g.dependencies depth)) := by
  induction ws with
  | nil => exact fun h => (Walk.extend_nil h.nodup).symm
  | cons i ws ih =>
    intro w h
    have hi := List.mem_cons_self (a := i) (l := ws)
    have hnext := h.extend (Settled.append_expand (hws i hi) _)
    rw [List.foldl_cons, hvisit i hi w h,
      ih (fun j hj => hws j (List.mem_cons_of_mem _ hj))
        (fun j hj => hvisit j (List.mem_cons_of_mem _ hj)) hnext,
      Walk.extend_extend, List.flatMap_cons]

/-- **A visit adds what is new in the expansion of the node.**  The induction is on the depth; that
the walk is sound is what makes up for the nodes that are not visited again. -/
theorem visit_eq (hm : ∀ n ∈ g.nodes, n.missing = []) {depth i : Nat}
    (hi : Shallow g.dependencies depth i) {w : Walk} (h : w.Sound g.dependencies) :
    g.visit depth w i = w.extend (expand g.dependencies depth i) := by
  induction depth generalizing i w with
  | zero => exact False.elim hi
  | succ depth ih =>
    rw [visit]
    split
    next hmem =>
      refine (Walk.extend_of_subset h.nodup fun j hj => ?_).symm
      exact List.mem_reverse.1 (h.settled.expand_subset (List.mem_reverse.2 hmem) hj)
    next =>
      rw [Walk.report_eq hm, foldl_visit hi (fun j hj w hw => ih (hi j hj) hw) h,
        Walk.place_eq (Walk.extend_nodup ..), Walk.extend_extend, expand_succ]

/-- everything that node `i` depends on, each node behind its own dependencies, and then node `i`;
in a graph without cycles the depth is never used up -/
def expansion (g : Graph) (i : Nat) : List Nat := expand g.dependencies (g.size + 1) i

end Graph

theorem settled_of_no_next {l : List Nat} (h : ∀ v ∈ l, next v = []) : Settled next l := by
  induction l with
  | nil => exact trivial
  | cons v l ih =>
    refine ⟨?_, ih fun w hw => h w (List.mem_cons_of_mem _ hw)⟩
    rw [h v (List.mem_cons_self ..)]
    exact fun _ hw => absurd hw (by simp)

end

/-! ## the whole order -/

namespace Graph
variable {g : Graph}

theorem mem_free_iff {i : Nat} : i ∈ g.free ↔ i < g.size ∧ g.dependencies i = [] := by
  rw [free, mem_positions]
  constructor
  · intro h
    obtain ⟨n, hn, hfree⟩ := h
    refine ⟨(List.getElem?_eq_some_iff.1 hn).1, ?_⟩
    rw [dependencies_of_getElem? hn]
    exact List.isEmpty_iff.1 hfree
  · intro h
    obtain ⟨hi, hfree⟩ := h
    have hn := List.getElem?_eq_getElem hi
    rw [dependencies_of_getElem? hn] at hfree
    exact ⟨_, hn, List.isEmpty_iff.2 hfree⟩

theorem mem_entrypoints_iff {i : Nat} :
    i ∈ g.entrypoints ↔ i < g.size ∧ g.dependencies i ≠ [] ∧ g.dependents i = [] := by
  rw [entrypoints, mem_positions]
  constructor
  · intro h
    obtain ⟨n, hn, hp⟩ := h
    rw [Bool.and_eq_true, Bool.not_eq_true', Node.isFree, List.isEmpty_eq_false_iff,
      List.isEmpty_iff] at hp
    rw [dependencies_of_getElem? hn]
    exact ⟨(List.getElem?_eq_some_iff.1 hn).1, hp⟩
  · intro h
    obtain ⟨hi, hp⟩ := h
    have hn := List.getElem?_eq_getElem hi
    rw [dependencies_of_getElem? hn] at hp
    refine ⟨_, hn, ?_⟩
    rw [Bool.and_eq_true, Bool.not_eq_true', Node.isFree, List.isEmpty_eq_false_iff,
      List.isEmpty_iff]
    exact hp

/-- the graphs that are built: edges lead to nodes, nothing is missing, and there is no cycle -/
structure Valid (g : Graph) : Prop where
  below : ∀ i j, j ∈ g.dependencies i → j < g.size
  missing : ∀ n ∈ g.nodes, n.missing = []
  acyclic : Acyclic g.dependencies

theorem valid_of_build {rs : List Resource} (h : build rs = .ok g) : g.Valid := by
  obtain ⟨_, hc, hac⟩ := build_eq_ok_iff.1 h
  exact ⟨fun _ _ hij => hc.lt_size hij, fun _ => hc.missing_eq_nil, hac⟩

namespace Valid
variable (h : g.Valid)
include h

theorem shallow {i : Nat} (hi : i < g.size) : Shallow g.dependencies g.size i :=
  shallow_of_acyclic h.acyclic h.below hi

theorem expand_size {i : Nat} (hi : i < g.size) :
    expand g.dependencies g.size i = g.expansion i :=
  (expand_eq_of_shallow (Nat.le_succ _) (h.shallow hi)).symm

/-- the expansion of a node consists of those of its dependencies and the node -/
theorem expansion_eq (i : Nat) :
    g.expansion i = (g.dependencies i).flatMap g.expansion ++ [i] := by
  rw [expansion, expand_succ, List.flatMap_congr fun j hj => h.expand_size (h.below i j hj)]

omit h in
theorem sound_free : (g.free.foldl Walk.place ⟨[], []⟩).Sound g.dependencies := by
  rw [Walk.foldl_place List.nodup_nil]
  refine Walk.Sound.extend ⟨List.nodup_nil, settled_nil⟩ fun _ => ?_
  refine settled_of_no_next fun i hi => ?_
  rw [List.reverse_nil, List.append_nil, List.mem_reverse] at hi
  exact (mem_free_iff.1 hi).2

theorem shallow_entrypoint {i : Nat} (hi : i ∈ g.entrypoints) :
    Shallow g.dependencies g.size i :=
  h.shallow (mem_entrypoints_iff.1 hi).1

theorem walk_eq :
    g.walk = Walk.extend ⟨[], []⟩ (g.free ++ g.entrypoints.flatMap g.expansion) := by
  have hsize : g.entrypoints.flatMap (expand g.dependencies g.size) =
      g.entrypoints.flatMap g.expansion :=
    List.flatMap_congr fun i hi => h.expand_size (mem_entrypoints_iff.1 hi).1
  rw [walk, foldl_visit (fun i hi => h.shallow_entrypoint hi)
    (fun i hi w hw => visit_eq h.missing (h.shallow_entrypoint hi) hw) sound_free, hsize,
    Walk.foldl_place List.nodup_nil, Walk.extend_extend]

theorem loadOrder_nodes :
    g.loadOrder.nodes = distinct (g.free ++ g.entrypoints.flatMap g.expansion) := by
  show g.walk.order = _
  rw [h.walk_eq]
  rfl

end Valid

/-- **The load order has the first occurrences in what comes of writing the nodes without
dependencies, and then the whole expansion of each entrypoint.** -/
theorem loadOrder_firstOccurrences {rs : List Resource} (h : build rs = .ok g) :
    (∀ i, g.expansion i = (g.dependencies i).flatMap g.expansion ++ [i]) ∧
    FirstOccurrences (g.free ++ g.entrypoints.flatMap g.expansion) g.loadOrder.nodes := by
  have hv := valid_of_build h
  refine ⟨hv.expansion_eq, ?_⟩
  rw [hv.loadOrder_nodes]
  exact firstOccurrences_distinct _

/-- three ways lead from `game` to `base`, and `ui` provides a name that it requires -/
def diamond : List Resource :=
  [⟨"ui", ["core", "hud", "base"], "core"⟩, ⟨"base", [], "core"⟩,
    ⟨"hud", ["map", "base"], "hud"⟩, ⟨"map", [], "world"⟩, ⟨"game", ["ui", "hud"], "game"⟩]

theorem loadOrder_firstOccurrences_diamond :
    ∃ g, build diamond = .ok g ∧ g.expansion 4 = [1, 3, 1, 2, 0, 3, 1, 2, 4] ∧
      FirstOccurrences (g.free ++ g.entrypoints.flatMap g.expansion) g.loadOrder.nodes :=
  ⟨_, rfl, rfl, (loadOrder_firstOccurrences (show build diamond = .ok _ from rfl)).2⟩

end Graph

end ResourceOrder
