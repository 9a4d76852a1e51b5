import ResourceOrder.Proofs.Graph.Expansion

/-!
# What the load order promises

Every node has one place in the load order, behind the nodes that it depends on, and the walk has
nothing to report (`Graph.loadOrder_valid`).

That no node is left out is a fact about all graphs without cycles.  From a node one can go on to
something that depends on it only so many times; where this ends stands a node that depends on
nothing, or an entrypoint.  What a placed node depends on is placed, so the way back leads from
there to the node that was asked for (`Graph.Valid.mem_nodes`).
-/

namespace ResourceOrder

section
variable {next : Nat → List Nat}

/-- seen from the end, a settled list has each vertex behind those that come next after it -/
theorem Settled.idxOf_lt {l : List Nat} (h : Settled next l.reverse) {v w : Nat} (hv : v ∈ l)
    (hvw : Edge next v w) : l.idxOf w < l.idxOf v := by
  induction l using List.reverseRecOn with
  | nil => exact absurd hv (by simp)
  | append_singleton l x ih =>
    rw [List.reverse_append, List.reverse_singleton, List.singleton_append] at h
    by_cases hl : v ∈ l
    · have hw : w ∈ l := List.mem_reverse.1 (h.2.mem_of_edge (List.mem_reverse.2 hl) hvw)
      rw [List.idxOf_append_of_mem hw, List.idxOf_append_of_mem hl]
      exact ih h.2 hl
    · have hvx : v = x := by
        rcases List.mem_append.1 hv with hv | hv
        · exact absurd hv hl
        · exact List.mem_singleton.1 hv
      subst hvx
      have hw : w ∈ l := List.mem_reverse.1 (h.1 w hvw)
      have hlt := List.idxOf_lt_length_of_mem hw
      rw [List.idxOf_append_of_mem hw, List.idxOf_append_of_notMem hl]
      omega

end

namespace Graph
variable {g : Graph}

theorem transGen_dependents {i j : Nat} (h : Relation.TransGen (Edge g.dependents) i j) :
    Relation.TransGen (Edge g.dependencies) j i := by
  induction h with
  | single hij => exact .single (mem_dependents.1 hij)
  | tail _ hjk ih => exact .head (mem_dependents.1 hjk) ih

namespace Valid
variable (h : g.Valid)
include h

/-- only so many nodes depend on a node through one another -/
theorem shallow_dependents {i : Nat} (hi : i < g.size) : Shallow g.dependents g.size i :=
  shallow_of_acyclic (fun v hv => h.acyclic v (transGen_dependents hv))
    (fun _ _ hw => lt_size_of_edge (mem_dependents.1 hw)) hi

theorem sound_walk : g.walk.Sound g.dependencies := by
  have hfree : (g.free.foldl Walk.place ⟨[], []⟩).Sound g.dependencies := sound_free
  rw [Walk.foldl_place List.nodup_nil] at hfree
  rw [h.walk_eq, ← Walk.extend_extend]
  refine hfree.extend (Settled.append_flatMap (fun i hi => ?_) _)
  rw [← h.expand_size (mem_entrypoints_iff.1 hi).1]
  exact Settled.append_expand (h.shallow_entrypoint hi)

theorem nodup_nodes : g.loadOrder.nodes.Nodup := h.sound_walk.nodup

theorem mem_nodes_iff {i : Nat} :
    i ∈ g.loadOrder.nodes ↔ i ∈ g.free ∨ ∃ e ∈ g.entrypoints, i ∈ g.expansion e := by
  rw [h.loadOrder_nodes, mem_distinct, List.mem_append, List.mem_flatMap]

theorem lt_size_of_mem_nodes {i : Nat} (hi : i ∈ g.loadOrder.nodes) : i < g.size := by
  rcases h.mem_nodes_iff.1 hi with hi | ⟨e, he, hi⟩
  · exact (mem_free_iff.1 hi).1
  · exact expand_lt h.below (mem_entrypoints_iff.1 he).1 hi

/-- every node is placed; the induction is on how far one can still go on to something that
depends on the node -/
theorem mem_nodes {depth i : Nat} (hd : Shallow g.dependents depth i) (hi : i < g.size) :
    i ∈ g.loadOrder.nodes := by
  induction depth generalizing i with
  | zero => exact False.elim hd
  | succ depth ih =>
    by_cases hfree : g.dependencies i = []
    · exact h.mem_nodes_iff.2 (.inl (mem_free_iff.2 ⟨hi, hfree⟩))
    cases hdep : g.dependents i with
    | nil =>
      refine h.mem_nodes_iff.2 (.inr ⟨i, mem_entrypoints_iff.2 ⟨hi, hfree, hdep⟩, ?_⟩)
      rw [h.expansion_eq]
      simp
    | cons j js =>
      have hj : j ∈ g.dependents i := by simp [hdep]
      have hji : Edge g.dependencies j i := mem_dependents.1 hj
      have hplaced := ih (hd j hj) (lt_size_of_edge hji)
      exact List.mem_reverse.1
        (h.sound_walk.settled.mem_of_edge (List.mem_reverse.2 hplaced) hji)

theorem nodes_perm : g.loadOrder.nodes.Perm (List.range g.size) := by
  refine (List.perm_ext_iff_of_nodup h.nodup_nodes List.nodup_range).2 fun i => ?_
  rw [List.mem_range]
  exact ⟨h.lt_size_of_mem_nodes, fun hi => h.mem_nodes (h.shallow_dependents hi) hi⟩

theorem idxOf_lt {i j : Nat} (hij : j ∈ g.dependencies i) :
    g.loadOrder.nodes.idxOf j < g.loadOrder.nodes.idxOf i :=
  h.sound_walk.settled.idxOf_lt (h.nodes_perm.mem_iff.2 (List.mem_range.2 (lt_size_of_edge hij)))
    hij

theorem loadOrder_diagnostics : g.loadOrder.diagnostics = [] := by
  show g.walk.diagnostics = []
  rw [h.walk_eq]
  rfl

end Valid

/-! ## names -/

theorem nameOf_of_getElem? {i : Nat} {n : Node} (h : g.nodes[i]? = some n) :
    g.nameOf i = n.name := by
  rw [nameOf, h]
  rfl

theorem nameOf_eq_getElem {i : Nat} (hi : i < (g.resources.map Resource.name).length) :
    g.nameOf i = (g.resources.map Resource.name)[i] := by
  have hi' : i < g.nodes.length := by simpa [resources] using hi
  rw [nameOf_of_getElem? (List.getElem?_eq_getElem hi'), List.getElem_map]
  simp only [resources, List.getElem_map]
  rfl

theorem nameOf_injective {rs : List Resource} (hid : Identified rs) (hc : g.Connects rs)
    {i j : Nat} (hi : i < g.size) (hj : j < g.size) (h : g.nameOf i = g.nameOf j) : i = j := by
  have hd := hid.distinct
  rw [← hc.resources] at hd
  have hlen : (g.resources.map Resource.name).length = g.size := by simp [resources, size]
  rw [nameOf_eq_getElem (hlen ▸ hi), nameOf_eq_getElem (hlen ▸ hj)] at h
  exact (hd.getElem_inj_iff).1 h

theorem position?_nameOf {rs : List Resource} (h : build rs = .ok g) {i : Nat} (hi : i < g.size) :
    g.loadOrder.position? (g.nameOf i) = some (g.loadOrder.nodes.idxOf i) := by
  obtain ⟨hid, hc, _⟩ := build_eq_ok_iff.1 h
  have hv := valid_of_build h
  have hmem : i ∈ g.loadOrder.nodes := hv.nodes_perm.mem_iff.2 (List.mem_range.2 hi)
  have hlt := List.idxOf_lt_length_of_mem hmem
  show (g.loadOrder.nodes.map g.nameOf).findIdx? _ = _
  refine List.findIdx?_eq_some_iff_getElem.2 ⟨by rwa [List.length_map], ?_, fun k hk => ?_⟩
  · simp
  · have hk' : k < g.loadOrder.nodes.length := hk.trans hlt
    rw [List.getElem_map, Bool.not_eq_true, beq_eq_false_iff_ne]
    intro hname
    have hki := nameOf_injective hid hc (hv.lt_size_of_mem_nodes (List.getElem_mem hk')) hi hname
    rw [← hki, hv.nodup_nodes.idxOf_getElem] at hk
    exact Nat.lt_irrefl _ hk

/-- **Every node has one place in the load order, behind all that it depends on, under its own
name, and there is nothing to report.** -/
theorem loadOrder_valid {rs : List Resource} (h : build rs = .ok g) :
    g.loadOrder.nodes.Perm (List.range g.size) ∧
    g.loadOrder.names.length = g.loadOrder.nodes.length ∧
    (∀ (k i : Nat) (n : Node), g.loadOrder.nodes[k]? = some i → g.nodes[i]? = some n →
      g.loadOrder.names[k]? = some n.name) ∧
    (∀ (i d : Nat) (n : Node), g.nodes[i]? = some n → d ∈ n.dependencies →
      g.loadOrder.nodes.idxOf d < g.loadOrder.nodes.idxOf i ∧
      ∃ m, g.nodes[d]? = some m ∧
        g.loadOrder.position? m.name = some (g.loadOrder.nodes.idxOf d) ∧
        g.loadOrder.position? n.name = some (g.loadOrder.nodes.idxOf i)) ∧
    g.loadOrder.diagnostics = [] := by
  have hv := valid_of_build h
  refine ⟨hv.nodes_perm, List.length_map .., fun k i n hk hn => ?_, fun i d n hn hd => ?_,
    hv.loadOrder_diagnostics⟩
  · show (g.loadOrder.nodes.map g.nameOf)[k]? = _
    rw [List.getElem?_map, hk, Option.map_some, nameOf_of_getElem? hn]
  · rw [← dependencies_of_getElem? hn] at hd
    have hm := List.getElem?_eq_getElem (hv.below i d hd)
    refine ⟨hv.idxOf_lt hd, _, hm, ?_⟩
    rw [← nameOf_of_getElem? hn, ← nameOf_of_getElem? hm]
    exact ⟨position?_nameOf h (hv.below i d hd), position?_nameOf h (lt_size_of_edge hd)⟩

theorem loadOrder_valid_diamond :
    ∃ g, build diamond = .ok g ∧ g.loadOrder.names = ["base", "map", "hud", "ui", "game"] ∧
      g.loadOrder.nodes.Perm (List.range g.size) :=
  ⟨_, rfl, rfl, (loadOrder_valid (show build diamond = .ok _ from rfl)).1⟩

end Graph

end ResourceOrder
