import ResourceOrder.Graph.Build
import ResourceOrder.Proofs.Graph.Links
import ResourceOrder.Proofs.Graph.Search

/-!
# Which resources form a graph

* `WellFormed`        what resources must be like;
* `Graph.Connects`    the graph has a node for each resource, with links as they should be;
* `Graph.Represents`  what this means for those who use the graph.

`Graph.build` succeeds exactly for well-formed resources, and then gives a graph that represents
them (`Graph.build_represents`).  Building takes three passes; each of them succeeds on a condition
of its own (`Graph.build_eq_ok_iff`), and the conditions are put together here.
-/

namespace ResourceOrder

/-- names are in order, each requirement leads to one resource, and none leads back in a circle -/
structure WellFormed (rs : List Resource) : Prop where
  identified : Identified rs
  provided : ∀ i r, rs[i]? = some r → ∀ name ∈ r.requires, ∃ j, Picks rs i name j
  acyclic : ∀ i, ¬ Relation.TransGen (Requires rs) i i

namespace Graph

structure Connects (g : Graph) (rs : List Resource) : Prop where
  resources : g.resources = rs
  linked : ∀ i n, g.nodes[i]? = some n → Linked rs i n

structure Represents (g : Graph) (rs : List Resource) : Prop where
  /-- node `i` stands for resource `i` -/
  resources : g.resources = rs
  /-- a node depends on what its requirements lead to, in the order of the requirements -/
  dependencies : ∀ i r, rs[i]? = some r →
    ∃ js, List.Forall₂ (Picks rs i) r.requires js ∧ FirstOccurrences js (g.dependencies i)
  irreflexive : ∀ i, i ∉ g.dependencies i
  missing : ∀ n ∈ g.nodes, n.missing = []
  dependents : ∀ j, g.dependents j = (List.range g.size).filter fun i => j ∈ g.dependencies i

/-! ## nodes and edges -/

section
variable {g : Graph}

theorem dependencies_of_getElem? {i : Nat} {n : Node} (h : g.nodes[i]? = some n) :
    g.dependencies i = n.dependencies := by
  rw [dependencies, h]
  rfl

theorem exists_node_of_edge {i j : Nat} (h : Edge g.dependencies i j) :
    ∃ n, g.nodes[i]? = some n ∧ j ∈ n.dependencies := by
  unfold Edge dependencies at h
  cases hn : g.nodes[i]? with
  | none => simp [hn] at h
  | some n => exact ⟨n, rfl, by simpa [hn] using h⟩

theorem lt_size_of_edge {i j : Nat} (h : Edge g.dependencies i j) : i < g.size := by
  obtain ⟨n, hn, _⟩ := exists_node_of_edge h
  exact (List.getElem?_eq_some_iff.1 hn).1

theorem dependents_eq_filter (j : Nat) :
    g.dependents j = (List.range g.size).filter fun i => j ∈ g.dependencies i := by
  rw [dependents, positions_eq_filter]
  refine List.filter_congr fun i _ => ?_
  rw [dependencies]
  cases g.nodes[i]? with
  | none => simp
  | some n => simp [Node.dependsOn]

end

namespace Connects
variable {g : Graph} {rs : List Resource} (h : g.Connects rs)
include h

theorem size_eq : g.size = rs.length := by
  rw [← h.resources, Graph.resources, List.length_map]
  rfl

theorem getElem?_resource {i : Nat} {n : Node} (hn : g.nodes[i]? = some n) :
    rs[i]? = some n.resource := by
  rw [← h.resources, Graph.resources, List.getElem?_map, hn]
  rfl

theorem exists_node {i : Nat} {r : Resource} (hr : rs[i]? = some r) :
    ∃ n, g.nodes[i]? = some n ∧ n.resource = r := by
  rw [← h.resources, Graph.resources, List.getElem?_map] at hr
  exact Option.map_eq_some_iff.1 hr

/-- the providers that a node's links name are those that its requirements lead to -/
theorem picks_links {i : Nat} {n : Node} (hn : g.nodes[i]? = some n) :
    List.Forall₂ (Picks rs i) n.resource.requires (n.links.map Link.provider) := by
  rw [List.forall₂_map_right_iff]
  exact (h.linked i n hn).imp fun _ _ hl => hl.2

theorem edge_iff {i j : Nat} : Edge g.dependencies i j ↔ Requires rs i j := by
  constructor
  · intro hij
    obtain ⟨n, hn, hj⟩ := exists_node_of_edge hij
    refine ⟨n.resource, h.getElem?_resource hn, ?_⟩
    obtain ⟨k, hk, hkj⟩ := List.getElem_of_mem (mem_distinct.1 hj)
    have hl := h.picks_links hn
    have hk' : k < n.resource.requires.length := hl.length_eq ▸ hk
    refine ⟨n.resource.requires[k], List.getElem_mem hk', ?_⟩
    rw [← hkj]
    exact hl.get hk' hk
  · intro h
    obtain ⟨r, hr, name, hname, hj⟩ := h
    obtain ⟨n, hn, rfl⟩ := h.exists_node hr
    show j ∈ g.dependencies i
    rw [dependencies_of_getElem? hn]
    refine mem_distinct.2 ?_
    obtain ⟨k, hk, rfl⟩ := List.getElem_of_mem hname
    have hl := h.picks_links hn
    have hk' : k < (n.links.map Link.provider).length := hl.length_eq ▸ hk
    have hjk : j = (n.links.map Link.provider)[k] := hj.unique (hl.get hk hk')
    rw [hjk]
    exact List.getElem_mem hk'

theorem lt_size {i j : Nat} (hij : Edge g.dependencies i j) : j < g.size := by
  obtain ⟨_, _, _, _, hj⟩ := h.edge_iff.1 hij
  rw [h.size_eq]
  exact hj.lt

theorem acyclic_iff : Acyclic g.dependencies ↔ ∀ i, ¬ Relation.TransGen (Requires rs) i i := by
  have heq : Edge g.dependencies = Requires rs := by
    funext i j
    exact propext h.edge_iff
  rw [Acyclic, heq]

theorem missing_eq_nil {n : Node} (hn : n ∈ g.nodes) : n.missing = [] := by
  obtain ⟨i, hi, rfl⟩ := List.getElem_of_mem hn
  have hl := h.linked i g.nodes[i] (List.getElem?_eq_getElem hi)
  refine List.filter_eq_nil_iff.2 fun name hname => ?_
  obtain ⟨k, hk, rfl⟩ := List.getElem_of_mem hname
  have hk' : k < g.nodes[i].links.length := hl.length_eq ▸ hk
  have hreq : (g.nodes[i].links[k]).requirement = g.nodes[i].resource.requires[k] :=
    (hl.get hk hk').1
  have hmem : g.nodes[i].resource.requires[k] ∈ g.nodes[i].links.map Link.requirement :=
    hreq ▸ List.mem_map_of_mem (List.getElem_mem hk')
  simp [hmem]

theorem represents : g.Represents rs where
  resources := h.resources
  dependencies i r hr := by
    obtain ⟨n, hn, rfl⟩ := h.exists_node hr
    refine ⟨n.links.map Link.provider, h.picks_links hn, ?_⟩
    rw [dependencies_of_getElem? hn]
    exact firstOccurrences_distinct _
  irreflexive i hi := by
    obtain ⟨_, _, _, _, hpick⟩ := h.edge_iff.1 hi
    exact hpick.ne rfl
  missing _ := h.missing_eq_nil
  dependents := dependents_eq_filter

end Connects

/-! ## building -/

theorem linkAll_eq_ok_iff_connects {rs : List Resource} {nodes : List Node} :
    linkAll rs = .ok nodes ↔ (Graph.mk nodes).Connects rs :=
  linkAll_eq_ok_iff.trans ⟨fun h => ⟨h.1, h.2⟩, fun h => ⟨h.resources, h.linked⟩⟩

/-- there are nodes if every requirement leads somewhere -/
theorem exists_connects_iff {rs : List Resource} :
    (∃ g : Graph, g.Connects rs) ↔
      ∀ i r, rs[i]? = some r → ∀ name ∈ r.requires, ∃ j, Picks rs i name j := by
  constructor
  · rintro ⟨g, h⟩ i r hr name hname
    obtain ⟨n, hn, rfl⟩ := h.exists_node hr
    obtain ⟨k, hk, rfl⟩ := List.getElem_of_mem hname
    have hl := h.picks_links hn
    exact ⟨_, hl.get hk (hl.length_eq ▸ hk)⟩
  · intro h
    have hnode : ∀ e ∈ rs.zipIdx, ∃ n, linkNode rs e.2 e.1 = .ok n := by
      rintro ⟨r, i⟩ he
      have hr := List.mk_mem_zipIdx_iff_getElem?.1 he
      have hlink : ∀ name ∈ r.requires, ∃ l, link rs i r name = .ok l := fun name hname => by
        obtain ⟨j, hj⟩ := h i r hr name hname
        exact ⟨⟨name, j⟩, link_eq_ok_iff.2 ⟨rfl, hj⟩⟩
      obtain ⟨links, hlinks⟩ := exists_mapM_eq_ok hlink
      exact ⟨⟨r, links⟩, map_eq_ok_iff.2 ⟨links, hlinks, rfl⟩⟩
    obtain ⟨nodes, hnodes⟩ := exists_mapM_eq_ok hnode
    exact ⟨⟨nodes⟩, linkAll_eq_ok_iff_connects.1 hnodes⟩

theorem checkCycles_eq_ok_iff {rs : List Resource} {g g' : Graph} (h : g.Connects rs) :
    checkCycles g = .ok g' ↔ g' = g ∧ Acyclic g.dependencies := by
  have hnone : findCycle? g.dependencies g.size = none ↔ Acyclic g.dependencies :=
    findCycle?_eq_none_iff fun v w hw => ⟨lt_size_of_edge hw, h.lt_size hw⟩
  rw [checkCycles, ← hnone]
  cases findCycle? g.dependencies g.size with
  | none =>
    refine ⟨fun he => ?_, fun he => ?_⟩
    · cases he
      exact ⟨rfl, rfl⟩
    · rw [he.1]
  | some cycle => exact iff_of_false error_ne_ok fun he => nomatch he.2

theorem build_eq_ok_iff {rs : List Resource} {g : Graph} :
    build rs = .ok g ↔ Identified rs ∧ g.Connects rs ∧ Acyclic g.dependencies := by
  rw [build, bind_eq_ok_iff]
  constructor
  · intro h
    obtain ⟨_, hid, h⟩ := h
    obtain ⟨nodes, hnodes, h⟩ := bind_eq_ok_iff.1 h
    have hc := linkAll_eq_ok_iff_connects.1 hnodes
    obtain ⟨rfl, hac⟩ := (checkCycles_eq_ok_iff hc).1 h
    exact ⟨checkIdentities_eq_ok_iff.1 hid, hc, hac⟩
  · intro h
    obtain ⟨hid, hc, hac⟩ := h
    refine ⟨(), checkIdentities_eq_ok_iff.2 hid, bind_eq_ok_iff.2 ⟨g.nodes, ?_, ?_⟩⟩
    · exact linkAll_eq_ok_iff_connects.2 hc
    · exact (checkCycles_eq_ok_iff hc).2 ⟨rfl, hac⟩

theorem exists_build_iff {rs : List Resource} : (∃ g, build rs = .ok g) ↔ WellFormed rs := by
  constructor
  · intro h
    obtain ⟨g, h⟩ := h
    obtain ⟨hid, hc, hac⟩ := build_eq_ok_iff.1 h
    exact ⟨hid, exists_connects_iff.1 ⟨g, hc⟩, hc.acyclic_iff.1 hac⟩
  · intro h
    obtain ⟨g, hc⟩ := exists_connects_iff.2 h.provided
    exact ⟨g, build_eq_ok_iff.2 ⟨h.identified, hc, hc.acyclic_iff.2 h.acyclic⟩⟩

/-- **A graph is built exactly of well-formed resources, and it represents them.** -/
theorem build_represents (rs : List Resource) :
    ((∃ g, build rs = .ok g) ↔ WellFormed rs) ∧ ∀ g, build rs = .ok g → g.Represents rs :=
  ⟨exists_build_iff, fun _ h => (build_eq_ok_iff.1 h).2.1.represents⟩

end Graph

end ResourceOrder
