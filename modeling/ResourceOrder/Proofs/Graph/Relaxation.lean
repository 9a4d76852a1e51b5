import ResourceOrder.Proofs.Graph.Placement
import ResourceOrder.Proofs.Precedence

/-!
# Resources that require less

* `Relaxed r r'`  `r'` is the resource `r` with nothing required but what `r` requires.

Where a requirement leads depends on the names of the resources only, not on what they require
(`picks_congr`).  So of resources that form a graph some requirements can be left out: those that
are left lead where they led before (`requires_of_relaxed`), and fewer edges close no cycle
(`wellFormed_of_relaxed`).  **The load order of the whole graph is an order for what is left of
it, too** (`Graph.exists_build_relaxed`).
-/

namespace ResourceOrder

/-- the names that `r'` requires are required by `r`, in any order and any number -/
structure Relaxed (r r' : Resource) : Prop where
  name_eq : r'.name = r.name
  provides_eq : r'.provides = r.provides
  requires_subset : ∀ name ∈ r'.requires, name ∈ r.requires

section
variable {rs rs' : List Resource}

/-! ## what decides where a requirement leads -/

theorem elsewhere_iff {i k : Nat} {nameOf : Resource → String} {name : String} :
    Elsewhere rs i nameOf name k ↔ k ≠ i ∧ (rs.map nameOf)[k]? = some name := by
  rw [Elsewhere, List.getElem?_map, Option.map_eq_some_iff]

theorem picks_congr (hname : rs'.map Resource.name = rs.map Resource.name)
    (hprovides : rs'.map Resource.provides = rs.map Resource.provides) : Picks rs' = Picks rs := by
  funext i name j
  unfold Picks
  simp only [elsewhere_iff, hname, hprovides]

/-! ## resource by resource -/

section
variable (h : List.Forall₂ Relaxed rs rs')
include h

theorem map_eq_of_relaxed {f : Resource → String} (hf : ∀ r r', Relaxed r r' → f r' = f r) :
    rs'.map f = rs.map f := by
  induction h with
  | nil => rfl
  | cons hr _ ih => rw [List.map_cons, List.map_cons, hf _ _ hr, ih]

theorem map_name_of_relaxed : rs'.map Resource.name = rs.map Resource.name :=
  map_eq_of_relaxed h fun _ _ hr => hr.name_eq

theorem picks_of_relaxed : Picks rs' = Picks rs :=
  picks_congr (map_name_of_relaxed h) (map_eq_of_relaxed h fun _ _ hr => hr.provides_eq)

theorem exists_of_relaxed {i : Nat} {r' : Resource} (hr' : rs'[i]? = some r') :
    ∃ r, rs[i]? = some r ∧ Relaxed r r' := by
  induction h generalizing i with
  | nil => cases hr'
  | cons hr _ ih =>
    cases i with
    | zero =>
      cases hr'
      exact ⟨_, rfl, hr⟩
    | succ i => exact ih hr'

theorem requires_of_relaxed {i j : Nat} (hij : Requires rs' i j) : Requires rs i j := by
  obtain ⟨r', hr', name, hname, hpick⟩ := hij
  obtain ⟨r, hr, hrelaxed⟩ := exists_of_relaxed h hr'
  rw [picks_of_relaxed h] at hpick
  exact ⟨r, hr, name, hrelaxed.requires_subset name hname, hpick⟩

theorem identified_of_relaxed (hid : Identified rs) : Identified rs' where
  named r' hr' := by
    obtain ⟨i, hi⟩ := List.getElem?_of_mem hr'
    obtain ⟨r, hr, hrelaxed⟩ := exists_of_relaxed h hi
    rw [hrelaxed.name_eq, hrelaxed.provides_eq]
    exact hid.named r (List.mem_of_getElem? hr)
  distinct := by
    rw [map_name_of_relaxed h]
    exact hid.distinct

theorem wellFormed_of_relaxed (hw : WellFormed rs) : WellFormed rs' where
  identified := identified_of_relaxed h hw.identified
  provided i r' hr' name hname := by
    obtain ⟨r, hr, hrelaxed⟩ := exists_of_relaxed h hr'
    rw [picks_of_relaxed h]
    exact hw.provided i r hr name (hrelaxed.requires_subset name hname)
  acyclic i hi :=
    hw.acyclic i (Relation.TransGen.mono (fun _ _ hjk => requires_of_relaxed h hjk) _ _ hi)

end

/-! ## graphs -/

namespace Graph
variable {g g' : Graph}

theorem Connects.nameOf_eq_getD (hc : g.Connects rs) (i : Nat) :
    g.nameOf i = ((rs.map Resource.name)[i]?).getD "" := by
  rw [← hc.resources, Graph.resources, List.map_map, List.getElem?_map]
  rfl

theorem Valid.precedes_names (hv : g.Valid) {i j : Nat} (hij : j ∈ g.dependencies i) :
    Precedes g.loadOrder.names (g.nameOf j) (g.nameOf i) := by
  have hmem : i ∈ g.loadOrder.nodes :=
    hv.nodes_perm.mem_iff.2 (List.mem_range.2 (lt_size_of_edge hij))
  exact (precedes_of_idxOf_lt hmem (hv.idxOf_lt hij)).map g.nameOf

/-- what is left of the requirements makes a graph that the load order of the whole one suits -/
theorem exists_build_relaxed (hb : build rs = .ok g) (h : List.Forall₂ Relaxed rs rs') :
    ∃ g', build rs' = .ok g' ∧ ∀ i j, j ∈ g'.dependencies i →
      Precedes g.loadOrder.names (g'.nameOf j) (g'.nameOf i) := by
  have hw := wellFormed_of_relaxed h (exists_build_iff.1 ⟨g, hb⟩)
  obtain ⟨g', hb'⟩ := exists_build_iff.2 hw
  obtain ⟨_, hc, _⟩ := build_eq_ok_iff.1 hb
  obtain ⟨_, hc', _⟩ := build_eq_ok_iff.1 hb'
  have hname : ∀ i, g'.nameOf i = g.nameOf i := fun i => by
    rw [hc.nameOf_eq_getD, hc'.nameOf_eq_getD, map_name_of_relaxed h]
  refine ⟨g', hb', fun i j hij => ?_⟩
  have hedge : j ∈ g.dependencies i := hc.edge_iff.2 (requires_of_relaxed h (hc'.edge_iff.1 hij))
  rw [hname, hname]
  exact (valid_of_build hb).precedes_names hedge

end Graph

end

end ResourceOrder
