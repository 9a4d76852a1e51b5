import Mathlib.Order.Bounds.Basic
import ResourceOrder.Proofs.Graph.Marks
import ResourceOrder.Proofs.Graph.Placement

/-!
# Which cycle is reported

* `LeadsToCycle`  there is a way from the vertex to a cycle;
* `CyclePath`     names of nodes along a cycle, each but the first once, as far as possible below
                  the first node that leads to a cycle.

The search comes to the vertices in order.  What it has left when it comes to a vertex is settled,
so none of it leads to a cycle; and the cycle that it meets below the vertex can be reached from
there (`searchAll_eq_error`).  So resources whose names and requirements are in order are refused
exactly if there is a cycle, and then with a cycle below the first node that leads to one
(`Graph.build_cycle`).
-/

namespace ResourceOrder

def LeadsToCycle (next : Nat → List Nat) (v : Nat) : Prop :=
  ∃ c, Relation.ReflTransGen (Edge next) v c ∧ Relation.TransGen (Edge next) c c

section
variable {next : Nat → List Nat} {cycle : List Nat}

/-! ## ways to the cycle -/

theorem mem_of_mem_cycleAt {w c : Nat} {path : List Nat} (hw : w ∈ path)
    (hc : c ∈ cycleAt w path) : c ∈ path := by
  rcases List.mem_cons.1 hc with rfl | hc
  · exact hw
  · rcases List.mem_append.1 hc with hc | hc
    · exact (List.takeWhile_prefix _).subset (List.mem_reverse.1 hc)
    · rw [List.mem_singleton.1 hc]
      exact hw

theorem Settled.not_leadsToCycle {l : List Nat} (h : Settled next l) {v : Nat} (hv : v ∈ l) :
    ¬ LeadsToCycle next v := by
  rintro ⟨c, hvc, hcc⟩
  have hc : c ∈ l := by
    rcases Relation.reflTransGen_iff_eq_or_transGen.1 hvc with rfl | hvc
    · exact hv
    · exact h.mem_of_transGen hv hvc
  exact h.ne_of_transGen hc hcc rfl

/-- the cycle that a search meets is below the vertex that it is at, or on the path there -/
theorem reaches_of_search (depth : Nat) : ∀ (path done : List Nat) (v : Nat),
    search next depth path done v = .error cycle →
      ∀ c ∈ cycle, c ∈ path ∨ Relation.ReflTransGen (Edge next) v c := by
  induction depth with
  | zero => exact fun _ _ _ h => nomatch h
  | succ depth ih =>
    intro path done v h c hc
    rw [search_succ, map_eq_error_iff, foldlM_eq_error_iff] at h
    obtain ⟨front, w, back, done', hnext, _, h⟩ := h
    have hvw : Edge next v w := by
      show w ∈ next v
      rw [hnext]
      exact List.mem_append_right _ (List.mem_cons_self ..)
    unfold proceed at h
    have hfound : c ∈ v :: path ∨ Relation.ReflTransGen (Edge next) w c := by
      by_cases hw : w ∈ v :: path
      · rw [if_pos hw] at h
        cases h
        exact .inl (mem_of_mem_cycleAt hw hc)
      · rw [if_neg hw] at h
        by_cases hdone : w ∈ done'
        · rw [if_pos hdone] at h
          cases h
        · rw [if_neg hdone] at h
          exact ih (v :: path) done' w h c hc
    rcases hfound with hfound | hfound
    · rcases List.mem_cons.1 hfound with rfl | hfound
      · exact .inr .refl
      · exact .inl hfound
    · exact .inr (.head hvw hfound)

theorem range_eq_append_cons {count v : Nat} {front back : List Nat}
    (h : List.range count = front ++ v :: back) : v < count ∧ front = List.range v := by
  have hlen := congrArg List.length h
  rw [List.length_range, List.length_append, List.length_cons] at hlen
  have hv : (List.range count)[front.length]? = some v := by
    rw [h, List.getElem?_append_right (Nat.le_refl _), Nat.sub_self]
    rfl
  rw [List.getElem?_range (by omega)] at hv
  obtain rfl := Option.some.inj hv
  refine ⟨by omega, ?_⟩
  have htake := congrArg (List.take front.length) h
  rw [List.take_left', List.take_range, Nat.min_eq_left (by omega)] at htake
  · exact htake.symm
  · rfl

/-- the cycle that is found lies below the first vertex that leads to a cycle -/
theorem searchAll_eq_error {count : Nat} (hbelow : ∀ v w, w ∈ next v → w < count)
    (h : searchAll next count = .error cycle) :
    ∃ root, IsLeast {v | v < count ∧ LeadsToCycle next v} root ∧
      ∀ c ∈ cycle, Relation.ReflTransGen (Edge next) root c := by
  have hcycle : IsCycle next cycle := by
    have hall := explored_searchAll hbelow
    rw [h] at hall
    exact hall
  rw [searchAll_eq, foldlM_eq_error_iff] at h
  obtain ⟨front, root, back, done, hsplit, hfront, h⟩ := h
  obtain ⟨hroot, rfl⟩ := range_eq_append_cons hsplit
  have hdone : Explored next (List.range root) [] (.ok done) := by
    rw [← hfront]
    refine explored_foldlM (fun v hv _ hs => ?_) [] settled_nil
    exact explored_searchFrom hbelow (Nat.lt_trans (List.mem_range.1 hv) hroot) hs
  obtain ⟨hsettled, _, hall⟩ := hdone
  have hsearch : search next count [] done root = .error cycle := by
    unfold searchFrom at h
    split at h
    · cases h
    · exact h
  have hreach : ∀ c ∈ cycle, Relation.ReflTransGen (Edge next) root c := fun c hc =>
    (reaches_of_search count [] done root hsearch c hc).resolve_left List.not_mem_nil
  obtain ⟨w, hw, hww⟩ := hcycle.transGen
  refine ⟨root, ⟨⟨hroot, w, hreach w hw, hww⟩, fun v hv => ?_⟩, hreach⟩
  by_contra hlt
  exact hsettled.not_leadsToCycle (hall v (List.mem_range.2 (Nat.lt_of_not_le hlt))) hv.2

end

/-! ## names along the cycle -/

namespace Graph

/-- the names of nodes of which each depends on the next, where the last node is the first and no
other one comes twice, and all are below the first node that leads to a cycle -/
structure CyclePath (g : Graph) (path : List String) : Prop where
  long : 3 ≤ path.length
  closed : path.head? = path.getLast?
  simple : (path.take (path.length - 1)).Nodup
  steps : path.IsChain fun a b =>
    ∃ i j, g.nameOf i = a ∧ g.nameOf j = b ∧ i < g.size ∧ j ∈ g.dependencies i
  below : ∃ root, IsLeast {v | v < g.size ∧ LeadsToCycle g.dependencies v} root ∧
    ∀ name ∈ path, ∃ i, i < g.size ∧ g.nameOf i = name ∧
      Relation.ReflTransGen (Edge g.dependencies) root i

variable {g : Graph} {rs : List Resource}

theorem cyclePath_of_findCycle? (hid : Identified rs) (hc : g.Connects rs) {cycle : List Nat}
    (h : findCycle? g.dependencies g.size = some cycle) : g.CyclePath (cycle.map g.nameOf) := by
  have hbelow : ∀ v w, w ∈ g.dependencies v → w < g.size := fun _ _ hw => hc.lt_size hw
  have hcycle := isCycle_of_findCycle? hbelow h
  have hlt : ∀ i ∈ cycle, i < g.size := fun i hi => by
    obtain ⟨j, hij⟩ := hcycle.exists_edge hi
    exact lt_size_of_edge hij
  have herror : searchAll g.dependencies g.size = .error cycle := by
    unfold findCycle? at h
    split at h
    · cases h
    · next hr =>
      rw [hr, Option.some.inj h]
  obtain ⟨root, hleast, hreach⟩ := searchAll_eq_error hbelow herror
  obtain ⟨w, rest, hsplit, hnodup⟩ := hcycle.closed
  refine ⟨?_, ?_, ?_, ?_, root, hleast, fun name hname => ?_⟩
  · -- a cycle of one vertex would be a node that depends on itself
    cases rest with
    | nil =>
      have hww : Edge g.dependencies w w := by
        have hchain := hcycle.chain
        rw [hsplit] at hchain
        exact (List.isChain_cons_cons.1 hchain).1
      exact absurd hww (hc.represents.irreflexive w)
    | cons x rest =>
      rw [hsplit, List.length_map, List.length_cons, List.length_append, List.length_cons,
        List.length_singleton]
      omega
  · rw [hsplit, List.map_cons, List.map_append, List.map_singleton, ← List.cons_append,
      List.getLast?_concat]
    rfl
  · have htake : (cycle.map g.nameOf).take ((cycle.map g.nameOf).length - 1) =
        (w :: rest).map g.nameOf := by
      rw [← List.dropLast_eq_take, hsplit, ← List.cons_append, List.map_append,
        List.map_singleton, List.dropLast_concat]
    rw [htake]
    refine hnodup.map_on fun i hi j hj hij => ?_
    have hmem : ∀ i ∈ w :: rest, i ∈ cycle := fun i hi => by
      rw [hsplit, ← List.cons_append]
      exact List.mem_append_left _ hi
    exact nameOf_injective hid hc (hlt i (hmem i hi)) (hlt j (hmem j hj)) hij
  · refine List.isChain_map _ |>.2 (hcycle.chain.imp fun i j hij => ?_)
    exact ⟨i, j, rfl, rfl, lt_size_of_edge hij, hij⟩
  · obtain ⟨i, hi, rfl⟩ := List.mem_map.1 hname
    exact ⟨i, hlt i hi, rfl, hreach i hi⟩

/-- names and requirements are in order, so only the last check can fail -/
theorem build_eq_checkCycles (hid : Identified rs) (hc : g.Connects rs) :
    build rs = checkCycles g := by
  rw [build, checkIdentities_eq_ok_iff.2 hid]
  show (linkAll rs >>= _) = _
  rw [linkAll_eq_ok_iff_connects.2 hc]
  rfl

theorem checkCycles_eq_error_iff {e : GraphError} :
    checkCycles g = .error e ↔
      ∃ cycle, findCycle? g.dependencies g.size = some cycle ∧
        e = .cycle (cycle.map g.nameOf) := by
  unfold checkCycles
  cases findCycle? g.dependencies g.size with
  | none => exact ⟨fun h => (nomatch h), fun ⟨_, h, _⟩ => (nomatch h)⟩
  | some cycle =>
    constructor
    · intro h
      cases h
      exact ⟨cycle, rfl, rfl⟩
    · intro h
      obtain ⟨_, h, rfl⟩ := h
      cases h
      rfl

/-- **Resources whose names and requirements are in order are refused exactly if there is a cycle,
and what is reported is a cycle below the first node that leads to one.  A search that keeps marks
and a stack reports the same one, whatever it does when it looks for a vertex that is not on the
stack.** -/
theorem build_cycle (hid : Identified rs)
    (hprov : ∀ i r, rs[i]? = some r → ∀ name ∈ r.requires, ∃ j, Picks rs i name j) :
    ∃ g : Graph, linkAll rs = .ok g.nodes ∧
      ((∃ e, build rs = .error e) ↔ ∃ i, Relation.TransGen (Edge g.dependencies) i i) ∧
      (∀ e, build rs = .error e → ∃ path, e = .cycle path ∧ g.CyclePath path) ∧
      ∀ fallback, findMarked? g.dependencies fallback g.size =
        findCycle? g.dependencies g.size := by
  obtain ⟨g, hc⟩ := exists_connects_iff.2 hprov
  have hnone : findCycle? g.dependencies g.size = none ↔ Acyclic g.dependencies :=
    findCycle?_eq_none_iff fun v w hw => ⟨lt_size_of_edge hw, hc.lt_size hw⟩
  refine ⟨g, linkAll_eq_ok_iff_connects.2 hc, ?_, fun e he => ?_, fun fallback => ?_⟩
  · rw [build_eq_checkCycles hid hc]
    simp only [checkCycles_eq_error_iff]
    constructor
    · rintro ⟨_, cycle, hcycle, _⟩
      by_contra hac
      rw [hnone.2 fun i hi => hac ⟨i, hi⟩] at hcycle
      cases hcycle
    · rintro ⟨i, hi⟩
      cases hcycle : findCycle? g.dependencies g.size with
      | none => exact absurd hi (hnone.1 hcycle i)
      | some cycle => exact ⟨_, cycle, rfl, rfl⟩
  · rw [build_eq_checkCycles hid hc] at he
    obtain ⟨cycle, hcycle, rfl⟩ := checkCycles_eq_error_iff.1 he
    exact ⟨_, rfl, cyclePath_of_findCycle? hid hc hcycle⟩
  · exact findMarked?_eq g.dependencies fallback g.size

/-- `lib` leads to no cycle, and `app` leads to the one of `ui` and `core` without being on it -/
def knot : List Resource :=
  [⟨"lib", [], "lib"⟩, ⟨"app", ["lib", "view"], "app"⟩, ⟨"net", ["core"], "net"⟩,
    ⟨"ui", ["lib", "core"], "view"⟩, ⟨"core", ["view"], "core"⟩]

theorem build_cycle_knot :
    build knot = .error (.cycle ["ui", "core", "ui"]) ∧
      ∃ g : Graph, linkAll knot = .ok g.nodes ∧ g.CyclePath ["ui", "core", "ui"] := by
  have herror : build knot = .error (.cycle ["ui", "core", "ui"]) := rfl
  have hid : Identified knot := checkIdentities_eq_ok_iff.1 rfl
  have hprov := exists_connects_iff.1
    ⟨_, linkAll_eq_ok_iff_connects.1 (show linkAll knot = .ok _ from rfl)⟩
  obtain ⟨g, hg, _, hreport, _⟩ := build_cycle hid hprov
  obtain ⟨path, hpath, hcycle⟩ := hreport _ herror
  cases hpath
  exact ⟨herror, g, hg, hcycle⟩

end Graph

end ResourceOrder
