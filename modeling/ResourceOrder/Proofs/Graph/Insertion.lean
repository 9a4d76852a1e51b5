import ResourceOrder.Proofs.Graph.InputOrder

/-!
# One more resource that stands alone

* `Detached rs x`  the resource `x` requires nothing, and none of `rs` requires it or has its name;
* `freeNames rs`   the names of the resources that require nothing, in order.

A resource that nobody asks for is not seen when a requirement is looked up (`leadsTo_cons`), so
the others depend on one another as they did before (`Detached.depends_cons`).  **Wherever the
detached resource is put, the others form a graph exactly if they did before, and their load order
is the same; the new one stands among those that depend on nothing, in the order of the resources**
(`Graph.build_insert`).

The numbers of the nodes behind the new one are all different, so the two graphs are compared by
the names of their nodes.
-/

namespace ResourceOrder

/-- a resource that neither requires anything nor is required -/
structure Detached (rs : List Resource) (x : Resource) : Prop where
  requires_eq : x.requires = []
  named : x.name ≠ "" ∧ x.provides ≠ ""
  fresh : ∀ r ∈ rs, r.name ≠ x.name
  unused : ∀ r ∈ rs, x.name ∉ r.requires ∧ x.provides ∉ r.requires

/-- the names of the resources that require nothing -/
def freeNames (rs : List Resource) : List String :=
  (rs.filter fun r => r.requires = []).map Resource.name

section
variable {rs : List Resource} {x r q : Resource} {name : String}

theorem freeNames_append (as bs : List Resource) :
    freeNames (as ++ bs) = freeNames as ++ freeNames bs := by
  simp [freeNames]

theorem freeNames_cons (h : x.requires = []) (bs : List Resource) :
    freeNames (x :: bs) = x.name :: freeNames bs := by
  simp [freeNames, h]

theorem nodup_freeNames (hid : Identified rs) : (freeNames rs).Nodup :=
  hid.distinct.sublist (List.filter_sublist.map Resource.name)

/-! ## looking past one resource -/

theorem other_cons {nameOf : Resource → String} (hx : nameOf x ≠ name) (p : Resource) :
    Other (x :: rs) r nameOf name p ↔ Other rs r nameOf name p := by
  unfold Other
  rw [List.mem_cons]
  constructor
  · rintro ⟨rfl | hp, hne, hname⟩
    · exact absurd hname hx
    · exact ⟨hp, hne, hname⟩
  · rintro ⟨hp, hne, hname⟩
    exact ⟨.inr hp, hne, hname⟩

/-- a resource that does not go by the name makes no difference to where the name leads -/
theorem leadsTo_cons (hprov : x.provides ≠ name) (hname : x.name ≠ name) :
    LeadsTo (x :: rs) r name q ↔ LeadsTo rs r name q := by
  unfold LeadsTo
  simp only [other_cons hprov, other_cons hname]

theorem forall₂_congr_of_mem {α β : Type} {R S : α → β → Prop} {as : List α} {bs : List β}
    (h : ∀ a ∈ as, ∀ b, R a b ↔ S a b) : List.Forall₂ R as bs ↔ List.Forall₂ S as bs := by
  induction as generalizing bs with
  | nil => rw [List.forall₂_nil_left_iff, List.forall₂_nil_left_iff]
  | cons a as ih =>
    cases bs with
    | nil => simp
    | cons b bs =>
      rw [List.forall₂_cons, List.forall₂_cons, h a (List.mem_cons_self ..),
        ih fun x hx => h x (List.mem_cons_of_mem _ hx)]

namespace Detached
variable (h : Detached rs x)
include h

theorem leadsTo_cons_iff (hr : r ∈ rs) (hname : name ∈ r.requires) :
    LeadsTo (x :: rs) r name q ↔ LeadsTo rs r name q := by
  obtain ⟨hn, hp⟩ := h.unused r hr
  apply leadsTo_cons
  · rintro rfl
    exact hp hname
  · rintro rfl
    exact hn hname

theorem notMem : x ∉ rs := fun hx => h.fresh x hx rfl

theorem depends_cons : Depends (x :: rs) = Depends rs := by
  funext r q
  refine propext ⟨?_, ?_⟩
  · rintro ⟨hr, name, hname, hlead⟩
    rcases List.mem_cons.1 hr with rfl | hr
    · rw [h.requires_eq] at hname
      exact absurd hname (by simp)
    · exact ⟨hr, name, hname, (h.leadsTo_cons_iff hr hname).1 hlead⟩
  · rintro ⟨hr, name, hname, hlead⟩
    exact ⟨List.mem_cons_of_mem _ hr, name, hname, (h.leadsTo_cons_iff hr hname).2 hlead⟩

theorem provided_cons : Provided (x :: rs) ↔ Provided rs := by
  constructor
  · intro hprov r hr name hname
    obtain ⟨q, hq⟩ := hprov r (List.mem_cons_of_mem _ hr) name hname
    exact ⟨q, (h.leadsTo_cons_iff hr hname).1 hq⟩
  · intro hprov r hr name hname
    rcases List.mem_cons.1 hr with rfl | hr
    · rw [h.requires_eq] at hname
      exact absurd hname (by simp)
    · obtain ⟨q, hq⟩ := hprov r hr name hname
      exact ⟨q, (h.leadsTo_cons_iff hr hname).2 hq⟩

theorem identified_cons : Identified (x :: rs) ↔ Identified rs := by
  have hnew : x.name ∉ rs.map Resource.name := fun hm => by
    obtain ⟨r, hr, hname⟩ := List.mem_map.1 hm
    exact h.fresh r hr hname
  constructor
  · intro hid
    have hdistinct := hid.distinct
    rw [List.map_cons, List.nodup_cons] at hdistinct
    exact ⟨fun r hr => hid.named r (List.mem_cons_of_mem _ hr), hdistinct.2⟩
  · intro hid
    refine ⟨fun r hr => ?_, ?_⟩
    · rcases List.mem_cons.1 hr with rfl | hr
      · exact h.named
      · exact hid.named r hr
    · rw [List.map_cons, List.nodup_cons]
      exact ⟨hnew, hid.distinct⟩

theorem wellFormed_cons : WellFormed (x :: rs) ↔ WellFormed rs := by
  rw [wellFormed_iff, wellFormed_iff, h.identified_cons, h.provided_cons, h.depends_cons]

end Detached

/-! ## names in order -/

theorem isFree_iff (hprov : Provided rs) (hr : r ∈ rs) : IsFree rs r ↔ r.requires = [] := by
  constructor
  · intro hfree
    refine List.eq_nil_iff_forall_not_mem.2 fun name hname => ?_
    obtain ⟨q, hq⟩ := hprov r hr name hname
    exact hfree q ⟨hr, name, hname, hq⟩
  · rintro hnil q ⟨_, name, hname, _⟩
    rw [hnil] at hname
    exact absurd hname (by simp)

/-- in front of a new element stands what stood there before, and behind it what is left -/
theorem distinct_insert {α : Type} [DecidableEq α] {front back rest : List α} {a : α}
    (hnodup : (front ++ a :: back).Nodup) (ha : a ∉ rest) :
    ∃ more, distinct (front ++ back ++ rest) = front ++ back ++ more ∧
      distinct (front ++ a :: back ++ rest) = front ++ a :: back ++ more ∧ a ∉ more := by
  have hsub : (front ++ back).Sublist (front ++ a :: back) :=
    (List.sublist_cons_self a back).append_left front
  have hmore : (distinct rest).filter (· ∉ front ++ a :: back) =
      (distinct rest).filter (· ∉ front ++ back) := by
    refine List.filter_congr fun b hb => ?_
    have hba : b ≠ a := fun he => ha (he ▸ mem_distinct.1 hb)
    simp [hba]
  refine ⟨(distinct rest).filter (· ∉ front ++ back), ?_, ?_, fun hm => ?_⟩
  · rw [distinct_append, distinct_of_nodup (hsub.nodup hnodup)]
  · rw [distinct_append, distinct_of_nodup hnodup, hmore]
  · exact ha (mem_distinct.1 (List.mem_of_mem_filter hm))

namespace Graph
variable {g g' : Graph}

/-- the nodes of one kind have the names of the resources of this kind, in order -/
theorem map_nameOf_eq_filter (hc : g.Connects rs) (hnd : rs.Nodup) {P : Resource → Prop}
    [DecidablePred P] {places : List Nat} (hp : places.Sublist (List.range g.size))
    (hmem : ∀ r, r ∈ places.map (resourceAt rs) ↔ r ∈ rs ∧ P r) :
    places.map g.nameOf = (rs.filter P).map Resource.name := by
  have hsub : (places.map (resourceAt rs)).Sublist rs := map_resourceAt_sublist (hc.size_eq ▸ hp)
  have hfilter : rs.filter P = rs.filter (· ∈ places.map (resourceAt rs)) := by
    refine List.filter_congr fun r hr => ?_
    simp only [hmem, hr, true_and]
  rw [hc.map_nameOf, hfilter, filter_mem_of_sublist hnd hsub]

theorem map_nameOf_free (hb : build rs = .ok g) : g.free.map g.nameOf = freeNames rs := by
  obtain ⟨hid, hc, _⟩ := build_eq_ok_iff.1 hb
  have hprov : Provided rs := (wellFormed_iff.1 (exists_build_iff.1 ⟨g, hb⟩)).2.1
  refine map_nameOf_eq_filter hc hid.nodup free_sublist_range fun r => ?_
  rw [hc.mem_free_resources hid.nodup]
  exact and_congr_right fun hr => isFree_iff hprov hr

theorem mem_of_mem_names (hb : build rs = .ok g) (hname : name ∈ g.loadOrder.names) :
    ∃ r ∈ rs, r.name = name := by
  obtain ⟨_, hc, _⟩ := build_eq_ok_iff.1 hb
  obtain ⟨i, hi, rfl⟩ := List.mem_map.1 hname
  have hlt := (valid_of_build hb).lt_size_of_mem_nodes hi
  have hr := hc.getElem?_resource (List.getElem?_eq_getElem hlt)
  exact ⟨_, List.mem_of_getElem? hr, by rw [hc.nameOf_eq, resourceAt_eq hr]⟩

/-! ## both graphs -/

section
variable {front back : List Resource} (h : Detached (front ++ back) x)
include h

theorem wellFormed_insert : WellFormed (front ++ x :: back) ↔ WellFormed (front ++ back) := by
  rw [wellFormed_perm List.perm_middle, h.wellFormed_cons]

theorem depends_insert : Depends (front ++ x :: back) = Depends (front ++ back) := by
  rw [depends_perm List.perm_middle, h.depends_cons]

/-- a node depends on the same names in both graphs -/
theorem dependencyNames?_insert (hid : Identified (front ++ back))
    (hid' : Identified (front ++ x :: back)) (hc : g.Connects (front ++ back))
    (hc' : g'.Connects (front ++ x :: back)) (hname : name ≠ x.name) :
    g.dependencyNames? name = g'.dependencyNames? name := by
  have hlead : LeadsTo (front ++ x :: back) = LeadsTo (x :: (front ++ back)) :=
    leadsTo_perm List.perm_middle
  have hmem : ∀ r, r ∈ front ++ x :: back ↔ r ∈ x :: (front ++ back) := fun _ =>
    List.perm_middle.mem_iff
  have hsame : ∀ r ∈ front ++ back, ∀ qs : List Resource,
      List.Forall₂ (LeadsTo (x :: (front ++ back)) r) r.requires qs ↔
        List.Forall₂ (LeadsTo (front ++ back) r) r.requires qs := fun r hr qs =>
    forall₂_congr_of_mem fun _ hn _ => h.leadsTo_cons_iff hr hn
  refine Option.ext fun names => ?_
  rw [dependencyNames?_eq_some_iff hid hc, dependencyNames?_eq_some_iff hid' hc', hlead]
  constructor
  · rintro ⟨r, hr, hrname, qs, hqs, rfl⟩
    exact ⟨r, (hmem r).2 (List.mem_cons_of_mem _ hr), hrname, qs, (hsame r hr qs).2 hqs, rfl⟩
  · rintro ⟨r, hr, hrname, qs, hqs, rfl⟩
    have hr : r ∈ front ++ back := by
      rcases List.mem_cons.1 ((hmem r).1 hr) with rfl | hr
      · exact absurd hrname.symm hname
      · exact hr
    exact ⟨r, hr, hrname, qs, (hsame r hr qs).1 hqs, rfl⟩

theorem map_nameOf_entrypoints_insert (hb : build (front ++ back) = .ok g)
    (hb' : build (front ++ x :: back) = .ok g') :
    g.entrypoints.map g.nameOf = g'.entrypoints.map g'.nameOf := by
  classical
  obtain ⟨hid, hc, _⟩ := build_eq_ok_iff.1 hb
  obtain ⟨hid', hc', _⟩ := build_eq_ok_iff.1 hb'
  have hout : ¬ IsEntrypoint (front ++ back) x := by
    rintro ⟨⟨q, hx, _⟩, _⟩
    exact h.notMem hx
  have hsame : IsEntrypoint (front ++ x :: back) = IsEntrypoint (front ++ back) := by
    unfold IsEntrypoint
    rw [depends_insert h]
  have hfilter : (front ++ x :: back).filter (IsEntrypoint (front ++ back)) =
      (front ++ back).filter (IsEntrypoint (front ++ back)) := by
    rw [List.filter_append, List.filter_cons_of_neg (by simpa using hout), List.filter_append]
  rw [map_nameOf_eq_filter hc hid.nodup entrypoints_sublist_range fun _ =>
      hc.mem_entrypoint_resources hid.nodup, ← hfilter]
  refine (map_nameOf_eq_filter hc' hid'.nodup entrypoints_sublist_range fun r => ?_).symm
  rw [hc'.mem_entrypoint_resources hid'.nodup, hsame]

/-- what is written of the entrypoints is the same in both graphs -/
theorem flatMap_expansion_insert (hb : build (front ++ back) = .ok g)
    (hb' : build (front ++ x :: back) = .ok g') :
    (g.entrypoints.flatMap fun i => (g.expansion i).map g.nameOf) =
      g'.entrypoints.flatMap fun i => (g'.expansion i).map g'.nameOf := by
  obtain ⟨hid, hc, _⟩ := build_eq_ok_iff.1 hb
  obtain ⟨hid', hc', _⟩ := build_eq_ok_iff.1 hb'
  refine flatMap_expansion_eq (valid_of_build hb) (valid_of_build hb') (fun v w hvw => ?_)
    (map_nameOf_entrypoints_insert h hb hb')
  refine map_nameOf_dependencies_of_eq hid hc hid' hc' hvw fun hv => ?_
  refine dependencyNames?_insert h hid hid' hc hc' ?_
  have hr := hc.getElem?_resource (List.getElem?_eq_getElem hv)
  rw [hc.nameOf_eq, resourceAt_eq hr]
  exact h.fresh _ (List.mem_of_getElem? hr)

/-- **A detached resource makes no difference to whether the others form a graph, nor to their load
order, wherever it is put; it stands among the resources that depend on nothing, which come first in
the order of the resources.** -/
theorem build_insert :
    ((∃ g', build (front ++ x :: back) = .ok g') ↔ ∃ g, build (front ++ back) = .ok g) ∧
    ∀ g g', build (front ++ back) = .ok g → build (front ++ x :: back) = .ok g' →
      g'.loadOrder.names.filter (· ≠ x.name) = g.loadOrder.names ∧
      g.free.map g.nameOf = freeNames front ++ freeNames back ∧
      g'.free.map g'.nameOf = freeNames front ++ x.name :: freeNames back ∧
      ∃ rest, g.loadOrder.names = g.free.map g.nameOf ++ rest ∧
        g'.loadOrder.names = g'.free.map g'.nameOf ++ rest := by
  refine ⟨by rw [exists_build_iff, exists_build_iff, wellFormed_insert h], fun g g' hb hb' => ?_⟩
  have hfree : g.free.map g.nameOf = freeNames front ++ freeNames back := by
    rw [map_nameOf_free hb, freeNames_append]
  have hfree' : g'.free.map g'.nameOf = freeNames front ++ x.name :: freeNames back := by
    rw [map_nameOf_free hb', freeNames_append, freeNames_cons h.requires_eq]
  have hnodup : (freeNames front ++ x.name :: freeNames back).Nodup := by
    obtain ⟨hid', _⟩ := build_eq_ok_iff.1 hb'
    rw [← freeNames_cons h.requires_eq, ← freeNames_append]
    exact nodup_freeNames hid'
  have hold : x.name ∉ g.loadOrder.names := fun hx => by
    obtain ⟨r, hr, hname⟩ := mem_of_mem_names hb hx
    exact h.fresh r hr hname
  have hnames := names_eq hb
  have hnames' := names_eq hb'
  rw [hfree] at hnames
  rw [hfree', ← flatMap_expansion_insert h hb hb'] at hnames'
  rw [hnames, mem_distinct, List.mem_append, not_or] at hold
  obtain ⟨more, hdistinct, hdistinct', hmore⟩ := distinct_insert hnodup hold.2
  rw [hdistinct] at hnames
  rw [hdistinct'] at hnames'
  refine ⟨?_, hfree, hfree', more, ?_, ?_⟩
  · have hkept : ∀ y ∈ freeNames front ++ freeNames back ++ more, y ≠ x.name := by
      rintro y hy rfl
      rcases List.mem_append.1 hy with hy | hy
      · exact hold.1 hy
      · exact hmore hy
    rw [hnames', hnames, List.append_assoc, List.cons_append, List.filter_append,
      List.filter_cons_of_neg (by simp), ← List.filter_append, ← List.append_assoc]
    exact List.filter_eq_self.2 fun y hy => decide_eq_true (hkept y hy)
  · rw [hnames, hfree]
  · rw [hnames', hfree']

end

/-- `news` is put between `ui` and `base`; it requires nothing, and nothing requires `news` or
`feed` -/
def news : Resource := ⟨"news", [], "feed"⟩

theorem build_insert_news :
    Detached (diamond.take 1 ++ diamond.drop 1) news ∧
      ∃ g g' : Graph, build (diamond.take 1 ++ diamond.drop 1) = .ok g ∧
        build (diamond.take 1 ++ news :: diamond.drop 1) = .ok g' ∧
        g'.loadOrder.names = ["news", "base", "map", "hud", "ui", "game"] ∧
        g'.loadOrder.names.filter (· ≠ "news") = g.loadOrder.names := by
  have h : Detached (diamond.take 1 ++ diamond.drop 1) news :=
    ⟨rfl, by decide, by decide, by decide⟩
  obtain ⟨g, hb⟩ : ∃ g, build (diamond.take 1 ++ diamond.drop 1) = .ok g := ⟨_, rfl⟩
  obtain ⟨g', hb', hnames⟩ : ∃ g', build (diamond.take 1 ++ news :: diamond.drop 1) = .ok g' ∧
      g'.loadOrder.names = ["news", "base", "map", "hud", "ui", "game"] := ⟨_, rfl, rfl⟩
  exact ⟨h, g, g', hb, hb', hnames, ((build_insert h).2 g g' hb hb').1⟩

end Graph

end

end ResourceOrder
