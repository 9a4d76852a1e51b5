import ResourceOrder.Proofs.Graph.Reordering
import ResourceOrder.Proofs.Precedence
import ResourceOrder.Proofs.Resolution.Pipeline

/-!
# What the load order takes from the order of the resources

The load order of the same resources in another order is the same, as long as the resources that
depend on nothing keep their order, and so do those that nothing depends on.

* `IsFree`        a resource that depends on nothing;
* `IsEntrypoint`  a resource that depends on something and that nothing depends on.

Nodes are numbered by the order of the resources, so two graphs of the same resources are compared
by the names of their nodes.  An expansion goes along the dependencies of each node in their own
order, and these have the same names in both graphs (`Graph.map_nameOf_dependencies`); the load
order consists of expansions (`Graph.names_eq`).  **All that the numbers of the nodes decide is
where the expansions begin** (`resolveResources_perm`).  Resources that stand in their load order
already keep it.
-/

namespace ResourceOrder

/-! ## expansions under other names -/

section
variable {α β : Type} {f f' : α → β}

theorem flatMap_eq_of_map_eq {γ : Type} {F F' : α → List γ} (h : ∀ a b, f a = f' b → F a = F' b) :
    ∀ {l l' : List α}, l.map f = l'.map f' → l.flatMap F = l'.flatMap F'
  | [], l', hl => by
    rw [List.map_eq_nil_iff.1 hl.symm]
    rfl
  | a :: l, l', hl => by
    obtain ⟨b, l', rfl, hb, hl'⟩ := List.map_eq_cons_iff.1 hl.symm
    rw [List.flatMap_cons, List.flatMap_cons, h a b hb.symm, flatMap_eq_of_map_eq h hl'.symm]

end

section
variable {next next' : Nat → List Nat} {f f' : Nat → String}

/-- vertices of the same name have expansions with the same names if their edges do so -/
theorem map_expand (h : ∀ v w, f v = f' w → (next v).map f = (next' w).map f') (depth : Nat) :
    ∀ v w, f v = f' w → (expand next depth v).map f = (expand next' depth w).map f' := by
  induction depth with
  | zero => exact fun _ _ _ => rfl
  | succ depth ih =>
    intro v w hvw
    have hbelow := flatMap_eq_of_map_eq ih (h v w hvw)
    rw [expand_succ, expand_succ, List.map_append, List.map_append, List.map_flatMap,
      List.map_flatMap, hbelow, List.map_singleton, List.map_singleton, hvw]

/-- what an expansion has in front of its end comes next after something -/
theorem exists_edge_of_mem_expand {depth v u : Nat} (h : u ∈ expand next depth v) :
    u = v ∨ ∃ w, Edge next w u := by
  induction depth generalizing v with
  | zero => exact absurd h (by simp [expand])
  | succ depth ih =>
    rw [expand_succ, List.mem_append, List.mem_flatMap, List.mem_singleton] at h
    rcases h with ⟨w, hw, hu⟩ | rfl
    · rcases ih hu with rfl | hedge
      · exact .inr ⟨v, hw⟩
      · exact .inr hedge
    · exact .inl rfl

end

/-! ## beginnings -/

/-- a resource that depends on nothing -/
def IsFree (rs : List Resource) (r : Resource) : Prop := ∀ q, ¬ Depends rs r q

/-- a resource that depends on something and that nothing depends on -/
def IsEntrypoint (rs : List Resource) (r : Resource) : Prop :=
  (∃ q, Depends rs r q) ∧ ∀ q, ¬ Depends rs q r

section
variable {rs rs' : List Resource} {r q : Resource}

theorem requires_iff_depends (hnd : rs.Nodup) {i j : Nat} (hr : rs[i]? = some r)
    (hq : rs[j]? = some q) : Requires rs i j ↔ Depends rs r q := by
  constructor
  · intro h
    obtain ⟨p, hp, name, hname, hj⟩ := h
    obtain rfl : r = p := Option.some.inj (hr.symm.trans hp)
    exact ⟨List.mem_of_getElem? hr, name, hname, (picks_iff_leadsTo hnd hr hq).1 hj⟩
  · intro h
    obtain ⟨_, name, hname, hlead⟩ := h
    exact ⟨r, hr, name, hname, (picks_iff_leadsTo hnd hr hq).2 hlead⟩

theorem map_resourceAt_range : (List.range rs.length).map (resourceAt rs) = rs := by
  refine List.ext_getElem (by simp) fun i hi hi' => ?_
  rw [List.getElem_map, List.getElem_range]
  exact resourceAt_eq (List.getElem?_eq_getElem hi')

theorem map_resourceAt_sublist {places : List Nat} (hp : places.Sublist (List.range rs.length)) :
    (places.map (resourceAt rs)).Sublist rs := by
  have hmap := hp.map (resourceAt rs)
  rwa [map_resourceAt_range] at hmap

theorem mem_map_resourceAt {places : List Nat} (hp : places.Sublist (List.range rs.length))
    {P : Resource → Prop} (hP : ∀ i q, rs[i]? = some q → (i ∈ places ↔ P q)) :
    r ∈ places.map (resourceAt rs) ↔ r ∈ rs ∧ P r := by
  rw [List.mem_map]
  constructor
  · intro h
    obtain ⟨i, hi, rfl⟩ := h
    have hq := List.getElem?_eq_getElem (List.mem_range.1 (hp.subset hi))
    rw [resourceAt_eq hq]
    exact ⟨List.getElem_mem _, (hP i _ hq).1 hi⟩
  · intro h
    obtain ⟨i, hi⟩ := List.getElem?_of_mem h.1
    exact ⟨i, (hP i r hi).2 h.2, resourceAt_eq hi⟩

namespace Graph
variable {g g' : Graph}

/-! ## the two kinds of nodes -/

theorem positions_sublist_range {α : Type} (p : Nat → α → Bool) (as : List α) :
    (positions p as).Sublist (List.range as.length) := by
  rw [positions_eq_filter]
  exact List.filter_sublist

theorem free_sublist_range : g.free.Sublist (List.range g.size) := positions_sublist_range _ _

theorem entrypoints_sublist_range : g.entrypoints.Sublist (List.range g.size) :=
  positions_sublist_range _ _

namespace Connects
variable (h : g.Connects rs) (hnd : rs.Nodup)
include h

theorem nameOf_eq (i : Nat) : g.nameOf i = (resourceAt rs i).name := by
  rw [nameOf, resourceAt, ← h.resources, Graph.resources, List.getElem?_map]
  cases g.nodes[i]? <;> rfl

theorem map_nameOf (places : List Nat) :
    places.map g.nameOf = (places.map (resourceAt rs)).map Resource.name := by
  rw [List.map_map]
  exact List.map_congr_left fun i _ => h.nameOf_eq i

include hnd

theorem edge_iff_depends {i j : Nat} (hr : rs[i]? = some r) (hq : rs[j]? = some q) :
    Edge g.dependencies i j ↔ Depends rs r q := by
  rw [h.edge_iff, requires_iff_depends hnd hr hq]

theorem dependencies_eq_nil_iff {i : Nat} (hr : rs[i]? = some r) :
    g.dependencies i = [] ↔ IsFree rs r := by
  rw [List.eq_nil_iff_forall_not_mem]
  constructor
  · intro hnil q hq
    obtain ⟨_, _, _, hlead⟩ := id hq
    obtain ⟨j, hj⟩ := List.getElem?_of_mem hlead.mem
    exact hnil j ((h.edge_iff_depends hnd hr hj).2 hq)
  · intro hfree j hj
    have hq := List.getElem?_eq_getElem (h.size_eq ▸ h.lt_size hj)
    exact hfree _ ((h.edge_iff_depends hnd hr hq).1 hj)

theorem dependents_eq_nil_iff {i : Nat} (hr : rs[i]? = some r) :
    g.dependents i = [] ↔ ∀ q, ¬ Depends rs q r := by
  rw [List.eq_nil_iff_forall_not_mem]
  constructor
  · intro hnil q hq
    obtain ⟨j, hj⟩ := List.getElem?_of_mem hq.1
    exact hnil j (mem_dependents.2 ((h.edge_iff_depends hnd hj hr).2 hq))
  · intro hnone j hj
    have hji := mem_dependents.1 hj
    have hq := List.getElem?_eq_getElem (h.size_eq ▸ lt_size_of_edge hji)
    exact hnone _ ((h.edge_iff_depends hnd hq hr).1 hji)

theorem mem_free_resources : r ∈ g.free.map (resourceAt rs) ↔ r ∈ rs ∧ IsFree rs r := by
  refine mem_map_resourceAt (h.size_eq ▸ free_sublist_range) fun i q hq => ?_
  have hi : i < g.size := h.size_eq ▸ (List.getElem?_eq_some_iff.1 hq).1
  rw [mem_free_iff, h.dependencies_eq_nil_iff hnd hq, and_iff_right hi]

theorem mem_entrypoint_resources :
    r ∈ g.entrypoints.map (resourceAt rs) ↔ r ∈ rs ∧ IsEntrypoint rs r := by
  refine mem_map_resourceAt (h.size_eq ▸ entrypoints_sublist_range) fun i q hq => ?_
  have hi : i < g.size := h.size_eq ▸ (List.getElem?_eq_some_iff.1 hq).1
  have hfree : (∃ p, Depends rs q p) ↔ ¬ IsFree rs q := by simp [IsFree]
  rw [mem_entrypoints_iff, ne_eq, h.dependencies_eq_nil_iff hnd hq,
    h.dependents_eq_nil_iff hnd hq, IsEntrypoint, hfree, and_iff_right hi]

end Connects

/-! ## names -/

theorem nameOf_eq_empty {i : Nat} (hi : g.size ≤ i) : g.nameOf i = "" := by
  rw [nameOf, List.getElem?_eq_none hi]
  rfl

theorem dependencies_eq_nil {i : Nat} (hi : g.size ≤ i) : g.dependencies i = [] := by
  rw [dependencies, List.getElem?_eq_none hi]
  rfl

section
variable (hid : Identified rs) (h : g.Connects rs)
include hid h

theorem nameOf_ne_empty {i : Nat} (hi : i < g.size) : g.nameOf i ≠ "" := by
  have hr := h.getElem?_resource (List.getElem?_eq_getElem hi)
  rw [h.nameOf_eq, resourceAt_eq hr]
  exact (hid.named _ (List.mem_of_getElem? hr)).1

theorem dependencyNames?_nameOf {i : Nat} (hi : i < g.size) :
    g.dependencyNames? (g.nameOf i) = some ((g.dependencies i).map g.nameOf) := by
  have hr := h.getElem?_resource (List.getElem?_eq_getElem hi)
  have hfind : g.find? (g.nameOf i) = some i := by
    rw [find?_eq_some_iff hid h, h.nameOf_eq, resourceAt_eq hr]
    exact ⟨_, hr, rfl⟩
  rw [dependencyNames?, hfind]
  rfl

/-- two nodes of the same name depend on nodes of the same names, in the same order, if this can be
told of the name -/
theorem map_nameOf_dependencies_of_eq (hid' : Identified rs') (h' : g'.Connects rs') {i j : Nat}
    (hij : g.nameOf i = g'.nameOf j)
    (hnames : i < g.size → g.dependencyNames? (g.nameOf i) = g'.dependencyNames? (g.nameOf i)) :
    (g.dependencies i).map g.nameOf = (g'.dependencies j).map g'.nameOf := by
  by_cases hi : i < g.size
  · have hj : j < g'.size := by
      refine Nat.lt_of_not_le fun hle => nameOf_ne_empty hid h hi ?_
      rw [hij, nameOf_eq_empty hle]
    have hnames := hnames hi
    rw [dependencyNames?_nameOf hid h hi, hij, dependencyNames?_nameOf hid' h' hj] at hnames
    exact Option.some.inj hnames
  · have hi := Nat.le_of_not_lt hi
    have hj : g'.size ≤ j := by
      refine Nat.le_of_not_lt fun hlt => nameOf_ne_empty hid' h' hlt ?_
      rw [← hij, nameOf_eq_empty hi]
    rw [dependencies_eq_nil hi, dependencies_eq_nil hj]
    rfl

/-- nodes of the same name depend on nodes of the same names, in the same order -/
theorem map_nameOf_dependencies (hperm : rs.Perm rs') (h' : g'.Connects rs') {i j : Nat}
    (hij : g.nameOf i = g'.nameOf j) :
    (g.dependencies i).map g.nameOf = (g'.dependencies j).map g'.nameOf :=
  map_nameOf_dependencies_of_eq hid h ((identified_perm hperm).1 hid) h' hij fun _ =>
    dependencyNames?_perm hperm hid h h' (g.nameOf i)

end

theorem names_eq (hb : build rs = .ok g) :
    g.loadOrder.names = distinct (g.free.map g.nameOf ++
      g.entrypoints.flatMap fun i => (g.expansion i).map g.nameOf) := by
  obtain ⟨hid, hc, _⟩ := build_eq_ok_iff.1 hb
  have hv := valid_of_build hb
  have hapart : ∀ i ∈ g.free ++ g.entrypoints.flatMap g.expansion,
      ∀ j ∈ g.free ++ g.entrypoints.flatMap g.expansion, g.nameOf i = g.nameOf j → i = j := by
    intro i hi j hj
    rw [← mem_distinct, ← hv.loadOrder_nodes] at hi hj
    exact nameOf_injective hid hc (hv.lt_size_of_mem_nodes hi) (hv.lt_size_of_mem_nodes hj)
  show g.loadOrder.nodes.map g.nameOf = _
  rw [hv.loadOrder_nodes, ← distinct_map hapart, List.map_append, List.map_flatMap]

/-- more depth than an expansion has changes nothing -/
theorem Valid.expand_eq (hv : g.Valid) {depth : Nat} (hd : g.size < depth) (i : Nat) :
    expand g.dependencies depth i = g.expansion i :=
  expand_eq_of_shallow hd fun j hj => hv.shallow (hv.below i j hj)

/-- entrypoints of the same names have expansions with the same names, if nodes of the same name
depend on nodes of the same names -/
theorem flatMap_expansion_eq (hv : g.Valid) (hv' : g'.Valid)
    (hdeps : ∀ v w, g.nameOf v = g'.nameOf w →
      (g.dependencies v).map g.nameOf = (g'.dependencies w).map g'.nameOf)
    (hentry : g.entrypoints.map g.nameOf = g'.entrypoints.map g'.nameOf) :
    (g.entrypoints.flatMap fun i => (g.expansion i).map g.nameOf) =
      g'.entrypoints.flatMap fun i => (g'.expansion i).map g'.nameOf := by
  refine flatMap_eq_of_map_eq (fun i j hij => ?_) hentry
  have hexpand := map_expand hdeps (max g.size g'.size + 1) i j hij
  rwa [hv.expand_eq (by omega), hv'.expand_eq (by omega)] at hexpand

/-- the load order takes nothing else from the order of the resources than where it begins -/
theorem names_eq_of_perm (hperm : rs.Perm rs') (hb : build rs = .ok g) (hb' : build rs' = .ok g')
    (hfree : g.free.map g.nameOf = g'.free.map g'.nameOf)
    (hentry : g.entrypoints.map g.nameOf = g'.entrypoints.map g'.nameOf) :
    g.loadOrder.names = g'.loadOrder.names := by
  obtain ⟨hid, hc, _⟩ := build_eq_ok_iff.1 hb
  obtain ⟨_, hc', _⟩ := build_eq_ok_iff.1 hb'
  have hdeps : ∀ v w, g.nameOf v = g'.nameOf w →
      (g.dependencies v).map g.nameOf = (g'.dependencies w).map g'.nameOf := fun v w hvw =>
    map_nameOf_dependencies hid hc hperm hc' hvw
  rw [names_eq hb, names_eq hb', hfree,
    flatMap_expansion_eq (valid_of_build hb) (valid_of_build hb') hdeps hentry]

/-! ## resources in their load order -/

namespace Valid
variable (hv : g.Valid)
include hv

theorem free_sublist_nodes : g.free.Sublist g.loadOrder.nodes := by
  have hfree : distinct g.free = g.free := distinct_of_nodup positions_nodup
  rw [hv.loadOrder_nodes, distinct_append, hfree]
  exact List.sublist_append_left ..

/-- an expansion has no other entrypoint than the node that it ends with -/
theorem filter_expansion {i : Nat} (hi : i ∈ g.entrypoints) :
    (g.expansion i).filter (· ∈ g.entrypoints) = [i] := by
  have hbelow : ((g.dependencies i).flatMap g.expansion).filter (· ∈ g.entrypoints) = [] := by
    rw [List.filter_eq_nil_iff]
    intro u hu
    obtain ⟨j, hj, hu⟩ := List.mem_flatMap.1 hu
    have hedge : ∃ w, Edge g.dependencies w u := by
      rcases exists_edge_of_mem_expand hu with rfl | hedge
      · exact ⟨i, hj⟩
      · exact hedge
    obtain ⟨w, hw⟩ := hedge
    have hdependent := mem_dependents.2 hw
    simp only [decide_eq_true_eq, mem_entrypoints_iff]
    intro hentry
    rw [hentry.2.2] at hdependent
    simp at hdependent
  rw [hv.expansion_eq, List.filter_append, hbelow, List.nil_append]
  exact List.filter_cons_of_pos (by simpa using hi)

theorem entrypoints_sublist_nodes : g.entrypoints.Sublist g.loadOrder.nodes := by
  have hfree : g.free.filter (· ∈ g.entrypoints) = [] := by
    rw [List.filter_eq_nil_iff]
    intro i hi
    simp only [decide_eq_true_eq, mem_entrypoints_iff]
    exact fun hentry => hentry.2.1 (mem_free_iff.1 hi).2
  have hexpand : (g.entrypoints.flatMap g.expansion).filter (· ∈ g.entrypoints) =
      g.entrypoints := by
    rw [List.filter_flatMap, List.flatMap_congr fun i hi => hv.filter_expansion hi,
      List.flatMap_singleton']
  have hfilter : g.loadOrder.nodes.filter (· ∈ g.entrypoints) = g.entrypoints := by
    rw [hv.loadOrder_nodes, distinct_filter, List.filter_append, hfree, List.nil_append, hexpand]
    exact distinct_of_nodup positions_nodup
  exact hfilter ▸ List.filter_sublist

end Valid

/-! ## keeping the order -/

/-- resources of one kind have the same names in both graphs if their order is kept -/
theorem map_nameOf_eq_of_keepsOrder (hc : g.Connects rs) (hc' : g'.Connects rs')
    (hperm : rs.Perm rs') (hnd : rs.Nodup) {P : Resource → Prop} (hkeep : KeepsOrder P rs rs')
    {places places' : List Nat} (hp : places.Sublist (List.range g.size))
    (hp' : places'.Sublist (List.range g'.size))
    (hmem : ∀ r, r ∈ places.map (resourceAt rs) ↔ r ∈ rs ∧ P r)
    (hmem' : ∀ r, r ∈ places'.map (resourceAt rs') ↔ r ∈ rs' ∧ P r) :
    places.map g.nameOf = places'.map g'.nameOf := by
  have hnd' := hperm.nodup_iff.1 hnd
  have hplaces : places.Sublist (List.range rs.length) := hc.size_eq ▸ hp
  have hplaces' : places'.Sublist (List.range rs'.length) := hc'.size_eq ▸ hp'
  have hsub := map_resourceAt_sublist hplaces
  have hsub' := map_resourceAt_sublist hplaces'
  have hsame : (places.map (resourceAt rs)).Perm (places'.map (resourceAt rs')) := by
    refine (List.perm_ext_iff_of_nodup (hsub.nodup hnd) (hsub'.nodup hnd')).2 fun r => ?_
    rw [hmem, hmem', hperm.mem_iff]
  have heq := eq_of_keepsOrder hkeep hnd' hsub hsub' hsame fun r hr => ((hmem r).1 hr).2
  rw [hc.map_nameOf, hc'.map_nameOf, heq]

theorem names_eq_of_keepsOrder (hb : build rs = .ok g) (hperm : rs.Perm rs')
    (hfree : KeepsOrder (IsFree rs) rs rs') (hentry : KeepsOrder (IsEntrypoint rs) rs rs') :
    ∃ g', build rs' = .ok g' ∧ g'.loadOrder.names = g.loadOrder.names := by
  obtain ⟨g', hb'⟩ := exists_build_iff.2 ((wellFormed_perm hperm).1 (exists_build_iff.1 ⟨g, hb⟩))
  obtain ⟨hid, hc, _⟩ := build_eq_ok_iff.1 hb
  obtain ⟨_, hc', _⟩ := build_eq_ok_iff.1 hb'
  have hnd := hid.nodup
  have hnd' := hperm.nodup_iff.1 hnd
  have hdepends := depends_perm hperm
  refine ⟨g', hb', (names_eq_of_perm hperm hb hb' ?_ ?_).symm⟩
  · refine map_nameOf_eq_of_keepsOrder hc hc' hperm hnd hfree free_sublist_range
      free_sublist_range (fun r => hc.mem_free_resources hnd) fun r => ?_
    rw [IsFree, hdepends]
    exact hc'.mem_free_resources hnd'
  · refine map_nameOf_eq_of_keepsOrder hc hc' hperm hnd hentry entrypoints_sublist_range
      entrypoints_sublist_range (fun r => hc.mem_entrypoint_resources hnd) fun r => ?_
    rw [IsEntrypoint, hdepends]
    exact hc'.mem_entrypoint_resources hnd'

/-- the resources in their load order -/
theorem exists_ordered (hb : build rs = .ok g) :
    ∃ ordered, ordered.Perm rs ∧ ordered.map Resource.name = g.loadOrder.names ∧
      KeepsOrder (IsFree rs) rs ordered ∧ KeepsOrder (IsEntrypoint rs) rs ordered := by
  obtain ⟨hid, hc, _⟩ := build_eq_ok_iff.1 hb
  have hv := valid_of_build hb
  have hnd := hid.nodup
  have hperm : (g.loadOrder.nodes.map (resourceAt rs)).Perm rs := by
    have hmap := hv.nodes_perm.map (resourceAt rs)
    rwa [hc.size_eq, map_resourceAt_range] at hmap
  refine ⟨g.loadOrder.nodes.map (resourceAt rs), hperm, ?_, ?_, ?_⟩
  · exact (hc.map_nameOf g.loadOrder.nodes).symm
  · exact keepsOrder_of_sublist hnd (map_resourceAt_sublist (hc.size_eq ▸ free_sublist_range))
      (fun r hr hfree => (hc.mem_free_resources hnd).2 ⟨hr, hfree⟩)
      (hv.free_sublist_nodes.map _)
  · exact keepsOrder_of_sublist hnd
      (map_resourceAt_sublist (hc.size_eq ▸ entrypoints_sublist_range))
      (fun r hr hentry => (hc.mem_entrypoint_resources hnd).2 ⟨hr, hentry⟩)
      (hv.entrypoints_sublist_nodes.map _)

end Graph

/-- resources are told by their names, and so are lists of them -/
theorem Identified.eq_of_map_name (hid : Identified rs) {as bs : List Resource}
    (has : ∀ r ∈ as, r ∈ rs) (hbs : ∀ r ∈ bs, r ∈ rs)
    (h : as.map Resource.name = bs.map Resource.name) : as = bs := by
  induction as generalizing bs with
  | nil => exact (List.map_eq_nil_iff.1 h.symm).symm
  | cons a as ih =>
    obtain ⟨b, bs, rfl, hname, htail⟩ := List.map_eq_cons_iff.1 h.symm
    rw [List.forall_mem_cons] at has hbs
    rw [hid.eq_of_name_eq has.1 hbs.1 hname.symm, ih has.2 hbs.2 htail.symm]

/-- **Of the order of the resources, the load order takes only the order of those that depend on
nothing and of those that nothing depends on; in their load order, resources stay where they
are.** -/
theorem resolveResources_perm {g : Graph} (h : Graph.build rs = .ok g) :
    ∃ res, resolveResources rs = .ok res ∧
      (∀ rs', rs.Perm rs' → KeepsOrder (IsFree rs) rs rs' → KeepsOrder (IsEntrypoint rs) rs rs' →
        ∃ res', resolveResources rs' = .ok res' ∧ res'.loadOrder = res.loadOrder) ∧
      (∃ ordered : List Resource, ordered.Perm rs ∧
        ordered.map Resource.name = res.loadOrder) ∧
      ∀ ordered : List Resource, ordered.Perm rs → ordered.map Resource.name = res.loadOrder →
        ∃ res', resolveResources ordered = .ok res' ∧ res'.loadOrder = res.loadOrder := by
  have hkept : ∀ rs', rs.Perm rs' → KeepsOrder (IsFree rs) rs rs' →
      KeepsOrder (IsEntrypoint rs) rs rs' → ∃ res', resolveResources rs' = .ok res' ∧
        res'.loadOrder = g.loadOrder.names := by
    intro rs' hperm hfree hentry
    obtain ⟨g', hb', hnames⟩ := Graph.names_eq_of_keepsOrder h hperm hfree hentry
    exact ⟨_, resolveResources_of_build hb', hnames⟩
  obtain ⟨ordered, hperm, hnames, hfree, hentry⟩ := Graph.exists_ordered h
  refine ⟨_, resolveResources_of_build h, hkept, ⟨ordered, hperm, hnames⟩, ?_⟩
  intro ordered' hperm' hnames'
  obtain ⟨hid, _⟩ := Graph.build_eq_ok_iff.1 h
  have hsame : ordered' = ordered := by
    apply hid.eq_of_map_name
    · exact fun r hr => hperm'.subset hr
    · exact fun r hr => hperm.subset hr
    · rw [hnames', hnames]
  rw [hsame]
  exact hkept ordered hperm.symm hfree hentry

/-- the resources of `diamond` in another order, with `base` in front of `map` as before -/
def shuffledDiamond : List Resource :=
  [⟨"hud", ["map", "base"], "hud"⟩, ⟨"game", ["ui", "hud"], "game"⟩, ⟨"base", [], "core"⟩,
    ⟨"ui", ["core", "hud", "base"], "core"⟩, ⟨"map", [], "world"⟩]

theorem resolveResources_perm_diamond :
    Graph.diamond.Perm shuffledDiamond ∧
      KeepsOrder (IsFree Graph.diamond) Graph.diamond shuffledDiamond ∧
      KeepsOrder (IsEntrypoint Graph.diamond) Graph.diamond shuffledDiamond ∧
      ∃ res res', resolveResources Graph.diamond = .ok res ∧
        resolveResources shuffledDiamond = .ok res' ∧ res'.loadOrder = res.loadOrder := by
  obtain ⟨g, hb, hfree, hentry⟩ : ∃ g, Graph.build Graph.diamond = .ok g ∧ g.free = [1, 3] ∧
      g.entrypoints = [4] := ⟨_, rfl, rfl, rfl⟩
  obtain ⟨hid, hc, _⟩ := Graph.build_eq_ok_iff.1 hb
  have hperm : Graph.diamond.Perm shuffledDiamond := by decide
  have hfreeKept : KeepsOrder (IsFree Graph.diamond) Graph.diamond shuffledDiamond := by
    have hpart : ([1, 3].map (resourceAt Graph.diamond)).Sublist Graph.diamond := by decide
    refine keepsOrder_of_sublist hid.nodup hpart (fun r hr h => ?_) (by decide)
    rw [← hfree, hc.mem_free_resources hid.nodup]
    exact ⟨hr, h⟩
  have hentryKept : KeepsOrder (IsEntrypoint Graph.diamond) Graph.diamond shuffledDiamond := by
    have hpart : ([4].map (resourceAt Graph.diamond)).Sublist Graph.diamond := by decide
    refine keepsOrder_of_sublist hid.nodup hpart (fun r hr h => ?_) (by decide)
    rw [← hentry, hc.mem_entrypoint_resources hid.nodup]
    exact ⟨hr, h⟩
  obtain ⟨res, hres, hkept, _⟩ := resolveResources_perm hb
  obtain ⟨res', hres', horder⟩ := hkept _ hperm hfreeKept hentryKept
  exact ⟨hperm, hfreeKept, hentryKept, res, res', hres, hres', horder⟩

end

end ResourceOrder
