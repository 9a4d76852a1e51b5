import ResourceOrder.Proofs.Graph.Reordering

/-!
# Which fault is reported

* `NameFault`         what is wrong with the names of the resource at a place;
* `RequiredAt`        what a resource requires at a place of its requirements;
* `RequirementFault`  why a requirement has not exactly one provider.

Names are checked before requirements, and requirements before cycles.  **Of several faults of the
names, that of the first resource is reported, and of several faults of requirements, that of the
first requirement of the first resource** (`Graph.build_first_fault`).  What is reported says what
is the case: the providers of an ambiguous requirement are all other resources that provide the
name.  A requirement that no other resource provides is never ambiguous, for names are distinct by
then (`Elsewhere.unique`).
-/

namespace ResourceOrder

/-! ## faults -/

/-- what is wrong with the names of the resource at place `i`: a resource has one fault at most,
since each check comes after those in front of it -/
inductive NameFault (rs : List Resource) (i : Nat) : GraphError → Prop
  | unnamed {r : Resource} : rs[i]? = some r → r.name = "" →
      NameFault rs i (.emptyIdentity i .resource)
  | providesNothing {r : Resource} : rs[i]? = some r → r.name ≠ "" → r.provides = "" →
      NameFault rs i (.emptyIdentity i .provides)
  | taken {r q : Resource} {j : Nat} : rs[i]? = some r → r.name ≠ "" → r.provides ≠ "" →
      j < i → rs[j]? = some q → q.name = r.name → NameFault rs i (.duplicateResource r.name)

/-- requirement `k` of the resource `r`, which stands at place `i`, is `name` -/
structure RequiredAt (rs : List Resource) (i k : Nat) (r : Resource) (name : String) : Prop where
  resource : rs[i]? = some r
  requirement : r.requires[k]? = some name

/-- why the requirement `name` of the resource `r` at place `i` leads nowhere -/
inductive RequirementFault (rs : List Resource) (i : Nat) (r : Resource) (name : String) :
    GraphError → Prop
  | missing : (∀ k, ¬ Elsewhere rs i Resource.provides name k) →
      (∀ k, ¬ Elsewhere rs i Resource.name name k) →
      RequirementFault rs i r name (.missingProvider r.name name)
  | ambiguous {places : List Nat} : 2 ≤ places.length → places.Pairwise (· < ·) →
      (∀ k, k ∈ places ↔ Elsewhere rs i Resource.provides name k) →
      RequirementFault rs i r name (.ambiguousProvider r.name name (places.map (nameAt rs)))

section
variable {rs : List Resource} {e : GraphError}

/-! ## names -/

theorem NameFault.lt {i : Nat} (h : NameFault rs i e) : i < rs.length := by
  cases h with
  | unnamed hr => exact (List.getElem?_eq_some_iff.1 hr).1
  | providesNothing hr => exact (List.getElem?_eq_some_iff.1 hr).1
  | taken hr => exact (List.getElem?_eq_some_iff.1 hr).1

/-- a fault of the first resources is a fault of all -/
theorem NameFault.of_take {i n : Nat} (h : NameFault (rs.take n) i e) : NameFault rs i e := by
  have hkeep : ∀ {j : Nat} {r : Resource}, (rs.take n)[j]? = some r → rs[j]? = some r := by
    intro j r hr
    rw [List.getElem?_take] at hr
    split at hr
    · exact hr
    · cases hr
  cases h with
  | unnamed hr hname => exact .unnamed (hkeep hr) hname
  | providesNothing hr hname hprov => exact .providesNothing (hkeep hr) hname hprov
  | taken hr hname hprov hj hq he => exact .taken (hkeep hr) hname hprov hj (hkeep hq) he

theorem identified_iff : Identified rs ↔ ∀ i e, ¬ NameFault rs i e := by
  constructor
  · intro hid i e h
    cases h with
    | unnamed hr hname => exact (hid.named _ (List.mem_of_getElem? hr)).1 hname
    | providesNothing hr _ hprov => exact (hid.named _ (List.mem_of_getElem? hr)).2 hprov
    | @taken r q j hr _ _ hj hq he =>
      have hsame : q = r :=
        hid.eq_of_name_eq (List.mem_of_getElem? hq) (List.mem_of_getElem? hr) he
      exact Nat.ne_of_lt hj (eq_of_getElem? hid.nodup hr (hsame ▸ hq))
  · intro h
    have hnamed : ∀ r ∈ rs, r.name ≠ "" ∧ r.provides ≠ "" := by
      intro r hr
      obtain ⟨i, hi⟩ := List.getElem?_of_mem hr
      have hname : r.name ≠ "" := fun hname => h i _ (.unnamed hi hname)
      exact ⟨hname, fun hprov => h i _ (.providesNothing hi hname hprov)⟩
    refine ⟨hnamed, ?_⟩
    rw [List.nodup_iff_pairwise_ne, List.pairwise_iff_getElem]
    intro j i hj hi hji he
    have hr := List.getElem?_eq_getElem (show i < rs.length by simpa using hi)
    have hq := List.getElem?_eq_getElem (show j < rs.length by simpa using hj)
    have hn := hnamed _ (List.mem_of_getElem? hr)
    rw [List.getElem_map, List.getElem_map] at he
    exact h i _ (.taken hr hn.1 hn.2 hji hq he)

theorem checkFrom_append {index : Nat} {seen : List String} {front back : List Resource}
    (h : checkFrom index seen front = .ok ()) :
    checkFrom index seen (front ++ back) =
      checkFrom (index + front.length) ((front.map Resource.name).reverse ++ seen) back := by
  induction front generalizing index seen with
  | nil => rfl
  | cons r front ih =>
    rw [checkFrom] at h
    rw [List.cons_append, checkFrom]
    split at h
    · cases h
    split at h
    · cases h
    split at h
    · cases h
    · rename_i hname hprov hseen
      rw [if_neg hname, if_neg hprov, if_neg hseen, ih h, List.length_cons, List.map_cons,
        List.reverse_cons, List.append_assoc, List.singleton_append]
      congr 1
      omega

/-- the first fault of the names is the one that the check meets -/
theorem checkIdentities_of_first {i : Nat} (h : NameFault rs i e)
    (hfirst : ∀ j < i, ∀ e', ¬ NameFault rs j e') : checkIdentities rs = .error e := by
  have hfront : checkIdentities (rs.take i) = .ok () := by
    refine checkIdentities_eq_ok_iff.2 (identified_iff.2 fun j e' hj => ?_)
    have hlt := hj.lt
    rw [List.length_take] at hlt
    exact hfirst j (by omega) e' hj.of_take
  have hi := h.lt
  have hlen : (rs.take i).length = i := by
    rw [List.length_take]
    omega
  have hsplit : rs = rs.take i ++ rs[i] :: rs.drop (i + 1) := by
    rw [List.getElem_cons_drop, List.take_append_drop]
  have hget : ∀ {r : Resource}, rs[i]? = some r → r = rs[i] := fun hr => by
    rw [List.getElem?_eq_getElem hi] at hr
    exact (Option.some.inj hr).symm
  rw [hsplit, checkIdentities, checkFrom_append hfront, hlen, Nat.zero_add, List.append_nil,
    checkFrom]
  cases h with
  | unnamed hr hname =>
    rw [if_pos (hget hr ▸ hname)]
  | providesNothing hr hname hprov =>
    rw [if_neg (hget hr ▸ hname), if_pos (hget hr ▸ hprov)]
  | @taken r q j hr hname hprov hj hq he =>
    have hmem : rs[i].name ∈ ((rs.take i).map Resource.name).reverse := by
      rw [List.mem_reverse, ← hget hr, ← he]
      refine List.mem_map_of_mem (List.mem_of_getElem? (i := j) ?_)
      rw [List.getElem?_take_of_lt hj]
      exact hq
    rw [if_neg (hget hr ▸ hname), if_neg (hget hr ▸ hprov), if_pos hmem, hget hr]

/-! ## requirements -/

/-- once names are distinct, one other resource at most has a name -/
theorem Elsewhere.unique (hid : Identified rs) {i j k : Nat} {name : String}
    (hj : Elsewhere rs i Resource.name name j) (hk : Elsewhere rs i Resource.name name k) :
    j = k := by
  obtain ⟨_, r, hr, hrname⟩ := hj
  obtain ⟨_, q, hq, hqname⟩ := hk
  have hsame : q = r := hid.eq_of_name_eq (List.mem_of_getElem? hq) (List.mem_of_getElem? hr)
    (hqname.trans hrname.symm)
  exact eq_of_getElem? hid.nodup hq (hsame ▸ hr)

variable {i : Nat} {r : Resource} {name : String}

theorem providers_eq_nil (hprov : ∀ k, ¬ Elsewhere rs i Resource.provides name k)
    (hname : ∀ k, ¬ Elsewhere rs i Resource.name name k) : providers rs name (some i) = [] := by
  have hnone : ∀ {nameOf : Resource → String}, (∀ k, ¬ Elsewhere rs i nameOf name k) →
      positions (fun k r => some k ≠ some i && nameOf r == name) rs = [] := by
    intro nameOf h
    refine List.eq_nil_iff_forall_not_mem.2 fun k hk => h k (mem_positions_elsewhere.1 hk)
  rw [providers, hnone hprov, hnone hname]
  rfl

theorem providers_eq_of_sorted {places : List Nat} (hne : places ≠ [])
    (hsorted : places.Pairwise (· < ·))
    (hmem : ∀ k, k ∈ places ↔ Elsewhere rs i Resource.provides name k) :
    providers rs name (some i) = places := by
  have heq : positions (fun k r => some k ≠ some i && r.provides == name) rs = places := by
    refine List.Perm.eq_of_pairwise' positions_sorted hsorted ?_
    refine (List.perm_ext_iff_of_nodup positions_nodup (hsorted.imp Nat.ne_of_lt)).2 fun k => ?_
    rw [hmem, mem_positions_elsewhere]
  rw [providers, heq]
  exact if_neg fun hempty => hne (List.isEmpty_iff.1 hempty)

theorem link_of_fault (h : RequirementFault rs i r name e) : link rs i r name = .error e := by
  cases h with
  | missing hprov hname => rw [link, providers_eq_nil hprov hname]
  | @ambiguous places hlong hsorted hmem =>
    have hne : places ≠ [] := fun hnil => by
      rw [hnil] at hlong
      exact absurd hlong (by decide)
    rw [link, providers_eq_of_sorted hne hsorted hmem]
    cases places with
    | nil => exact absurd rfl hne
    | cons j places =>
      cases places with
      | nil => exact absurd hlong (by simp)
      | cons k places => rfl

/-- a requirement has exactly one provider or a fault -/
theorem exists_requirementFault (hid : Identified rs) (h : ¬ ∃ j, Picks rs i name j) :
    ∃ e, RequirementFault rs i r name e := by
  by_cases hprov : ∃ k, Elsewhere rs i Resource.provides name k
  · obtain ⟨k, hk⟩ := hprov
    have hmem : ∀ l, l ∈ positions (fun l r => some l ≠ some i && r.provides == name) rs ↔
        Elsewhere rs i Resource.provides name l := fun _ => mem_positions_elsewhere
    refine ⟨_, .ambiguous ?_ positions_sorted hmem⟩
    generalize positions (fun l r => some l ≠ some i && r.provides == name) rs = places at hmem
    match places with
    | [] => exact absurd ((hmem k).2 hk) (by simp)
    | [j] => exact absurd ⟨j, .inl fun l => by rw [← hmem l, List.mem_singleton]⟩ h
    | _ :: _ :: places => simp
  · have hnone : ∀ k, ¬ Elsewhere rs i Resource.provides name k := fun k hk => hprov ⟨k, hk⟩
    refine ⟨_, .missing hnone fun k hk => h ⟨k, .inr ⟨hnone, fun l => ⟨fun hl => ?_, ?_⟩⟩⟩⟩
    · exact hl.unique hid hk
    · rintro rfl
      exact hk

/-- the providers of an ambiguous requirement have names of their own, none of them that of the
resource which has the requirement -/
theorem nodup_map_nameAt (hid : Identified rs) (hr : rs[i]? = some r) {places : List Nat}
    (hsorted : places.Pairwise (· < ·))
    (hmem : ∀ k ∈ places, Elsewhere rs i Resource.provides name k) :
    (places.map (nameAt rs)).Nodup ∧ r.name ∉ places.map (nameAt rs) := by
  have hname : ∀ {k : Nat} {q : Resource}, rs[k]? = some q → nameAt rs k = q.name := by
    intro k q hq
    rw [nameAt, hq]
    rfl
  have hsame : ∀ {j k : Nat} {p q : Resource}, rs[j]? = some p → rs[k]? = some q →
      p.name = q.name → j = k := by
    intro j k p q hp hq he
    have hpq := hid.eq_of_name_eq (List.mem_of_getElem? hp) (List.mem_of_getElem? hq) he
    exact eq_of_getElem? hid.nodup hq (hpq ▸ hp)
  constructor
  · have hnodup : places.Nodup := hsorted.imp Nat.ne_of_lt
    refine hnodup.map_on fun j hj k hk he => ?_
    obtain ⟨_, p, hp, _⟩ := hmem j hj
    obtain ⟨_, q, hq, _⟩ := hmem k hk
    rw [hname hp, hname hq] at he
    exact hsame hp hq he
  · intro hin
    obtain ⟨k, hk, he⟩ := List.mem_map.1 hin
    obtain ⟨hki, q, hq, _⟩ := hmem k hk
    rw [hname hq] at he
    exact hki (hsame hq hr he)

theorem RequirementFault.providers_names (hid : Identified rs) (hr : rs[i]? = some r)
    {resource requirement : String} {names : List String}
    (h : RequirementFault rs i r name (.ambiguousProvider resource requirement names)) :
    names.Nodup ∧ resource ∉ names := by
  cases h with
  | ambiguous _ hsorted hmem => exact nodup_map_nameAt hid hr hsorted fun k hk => (hmem k).1 hk

theorem RequirementFault.eq_missing (h : RequirementFault rs i r name e)
    (hprov : ∀ k, ¬ Elsewhere rs i Resource.provides name k) :
    e = .missingProvider r.name name := by
  cases h with
  | missing => rfl
  | @ambiguous places hlong _ hmem =>
    have hk : places[0] ∈ places := List.getElem_mem (by omega)
    exact absurd ((hmem _).1 hk) (hprov _)

/-! ## the first fault -/

theorem exists_first {P : Nat → Prop} (h : ∃ i, P i) : ∃ i, P i ∧ ∀ j < i, ¬ P j := by
  classical
  exact ⟨Nat.find h, Nat.find_spec h, fun _ hj => Nat.find_min h hj⟩

/-- requirement `l` of resource `j` is looked up before requirement `k` of resource `i` -/
def LookedUpBefore (j l i k : Nat) : Prop := j < i ∨ j = i ∧ l < k

theorem linkNode_of_first {k : Nat} (hr : RequiredAt rs i k r name)
    (h : RequirementFault rs i r name e)
    (hfirst : ∀ l < k, ∀ name', RequiredAt rs i l r name' → ∃ j, Picks rs i name' j) :
    linkNode rs i r = .error e := by
  rw [linkNode, map_eq_error_iff]
  refine mapM_eq_error_of_first hr.requirement (fun l hl name' hname' => ?_) (link_of_fault h)
  obtain ⟨j, hj⟩ := hfirst l hl name' ⟨hr.resource, hname'⟩
  exact ⟨⟨name', j⟩, link_eq_ok_iff.2 ⟨rfl, hj⟩⟩

theorem exists_linkNode_eq_ok
    (h : ∀ l name', RequiredAt rs i l r name' → ∃ j, Picks rs i name' j) (hr : rs[i]? = some r) :
    ∃ n, linkNode rs i r = .ok n := by
  have hlinks : ∃ links, r.requires.mapM (link rs i r) = .ok links := by
    refine exists_mapM_eq_ok fun name' hname' => ?_
    obtain ⟨l, hl⟩ := List.getElem?_of_mem hname'
    obtain ⟨j, hj⟩ := h l name' ⟨hr, hl⟩
    exact ⟨⟨name', j⟩, link_eq_ok_iff.2 ⟨rfl, hj⟩⟩
  obtain ⟨links, hlinks⟩ := hlinks
  exact ⟨⟨r, links⟩, by rw [linkNode, hlinks]; rfl⟩

theorem linkAll_of_first {k : Nat} (hr : RequiredAt rs i k r name)
    (h : RequirementFault rs i r name e)
    (hfirst : ∀ j l r' name', LookedUpBefore j l i k → RequiredAt rs j l r' name' →
      ∃ p, Picks rs j name' p) : linkAll rs = .error e := by
  have hplace : ∀ {j : Nat} {x : Resource × Nat}, rs.zipIdx[j]? = some x →
      rs[j]? = some x.1 ∧ x.2 = j := by
    intro j x hx
    rw [List.getElem?_zipIdx, Option.map_eq_some_iff] at hx
    obtain ⟨q, hq, rfl⟩ := hx
    exact ⟨hq, Nat.zero_add j⟩
  have hi : rs.zipIdx[i]? = some (r, i) := by
    rw [List.getElem?_zipIdx, hr.resource, Option.map_some, Nat.zero_add]
  refine mapM_eq_error_of_first hi (fun j hj x hx => ?_) ?_
  · obtain ⟨hq, hplace⟩ := hplace hx
    rw [hplace]
    exact exists_linkNode_eq_ok (fun l name' hl => hfirst j l _ name' (.inl hj) hl) hq
  · exact linkNode_of_first hr h fun l hl name' hl' => hfirst i l r name' (.inr ⟨rfl, hl⟩) hl'

namespace Graph

theorem build_of_first_name {i : Nat} (h : NameFault rs i e)
    (hfirst : ∀ j < i, ∀ e', ¬ NameFault rs j e') : build rs = .error e := by
  rw [build, checkIdentities_of_first h hfirst]
  rfl

theorem exists_nameFault_of_build (h : build rs = .error e) (hcheck : e.check = .identities) :
    ∃ i, NameFault rs i e := by
  have hfails := fails_of_build_eq_error h
  rw [hcheck] at hfails
  have hfault : ∃ i e', NameFault rs i e' := by
    by_contra hnone
    exact hfails (identified_iff.2 fun i e' he' => hnone ⟨i, e', he'⟩)
  obtain ⟨i, ⟨e', he'⟩, hfirst⟩ := exists_first hfault
  have hb := build_of_first_name he' fun j hj e'' he'' => hfirst j hj ⟨e'', he''⟩
  rw [h] at hb
  cases hb
  exact ⟨i, he'⟩

theorem build_of_linkAll (hid : Identified rs) (h : linkAll rs = .error e) :
    build rs = .error e := by
  rw [build, checkIdentities_eq_ok_iff.2 hid]
  show (linkAll rs >>= _) = _
  rw [h]
  rfl

theorem check_of_wellProvided (hid : Identified rs)
    (h : ∀ i k r name, RequiredAt rs i k r name → ∃ j, Picks rs i name j)
    (hb : build rs = .error e) : e.check = .cycles := by
  have hprov : Provided rs := by
    refine (provided_iff hid.nodup).2 fun i r hr name hname => ?_
    obtain ⟨k, hk⟩ := List.getElem?_of_mem hname
    exact h i k r name ⟨hr, hk⟩
  exact (fails_of_build_eq_error hb).unique ⟨hid, hprov⟩

/-- **The fault of the names that is reported is that of the first resource which has one.  If there
is none, the fault of a requirement that is reported is that of the first requirement which has not
exactly one provider, whatever cycles there are; it says how many there are and which.** -/
theorem build_first_fault (rs : List Resource) :
    ((∃ i e, NameFault rs i e) →
      ∃ i e, build rs = .error e ∧ NameFault rs i e ∧ ∀ j < i, ∀ e', ¬ NameFault rs j e') ∧
    ((∀ i e, ¬ NameFault rs i e) →
      (∃ i k r name, RequiredAt rs i k r name ∧ ¬ ∃ j, Picks rs i name j) →
      ∃ i k r name e, build rs = .error e ∧ RequiredAt rs i k r name ∧
        RequirementFault rs i r name e ∧
        ((∀ j, ¬ Elsewhere rs i Resource.provides name j) →
          e = .missingProvider r.name name) ∧
        (∀ resource requirement names, e = .ambiguousProvider resource requirement names →
          names.Nodup ∧ resource ∉ names) ∧
        ∀ j l r' name', LookedUpBefore j l i k → RequiredAt rs j l r' name' →
          ∃ p, Picks rs j name' p) ∧
    ((∀ i e, ¬ NameFault rs i e) →
      (∀ i k r name, RequiredAt rs i k r name → ∃ j, Picks rs i name j) →
      ∀ e, build rs = .error e → e.check = .cycles) := by
  refine ⟨fun h => ?_, fun hnames h => ?_, fun hnames h e hb => ?_⟩
  · obtain ⟨i, ⟨e, he⟩, hfirst⟩ := exists_first h
    have hfirst : ∀ j < i, ∀ e', ¬ NameFault rs j e' := fun j hj e' he' => hfirst j hj ⟨e', he'⟩
    exact ⟨i, e, build_of_first_name he hfirst, he, hfirst⟩
  · have hid := identified_iff.2 hnames
    obtain ⟨i, hi, hfirst⟩ := exists_first h
    obtain ⟨k, ⟨r, name, hr, hnone⟩, hfirst'⟩ := exists_first hi
    obtain ⟨e, he⟩ := exists_requirementFault (r := r) hid hnone
    have hbefore : ∀ j l r' name', LookedUpBefore j l i k → RequiredAt rs j l r' name' →
        ∃ p, Picks rs j name' p := by
      intro j l r' name' hjl hr'
      by_contra hnone'
      rcases hjl with hj | ⟨rfl, hl⟩
      · exact hfirst j hj ⟨l, r', name', hr', hnone'⟩
      · exact hfirst' l hl ⟨r', name', hr', hnone'⟩
    refine ⟨i, k, r, name, e, ?_, hr, he, he.eq_missing, fun _ _ _ heq => ?_, hbefore⟩
    · exact build_of_linkAll hid (linkAll_of_first hr he hbefore)
    · exact RequirementFault.providers_names hid hr.resource (heq ▸ he)
  · exact check_of_wellProvided (identified_iff.2 hnames) h hb

/-- `ui` and `hud` require one another and `hud` also requires what nothing provides, but the
first requirement without one provider is that of `map` -/
def tangle : List Resource :=
  [⟨"ui", ["hud"], "core"⟩, ⟨"map", ["ui", "core"], "core"⟩, ⟨"hud", ["ui", "sound"], "hud"⟩,
    ⟨"base", [], "core"⟩]

theorem build_first_fault_tangle :
    build tangle = .error (.ambiguousProvider "map" "core" ["ui", "base"]) ∧
      ∃ i k r name e, build tangle = .error e ∧ RequiredAt tangle i k r name ∧
        RequirementFault tangle i r name e := by
  have hid : Identified tangle := checkIdentities_eq_ok_iff.1 rfl
  have hlead : ¬ ∃ j, Picks tangle 1 "core" j := by
    rintro ⟨j, hj⟩
    have hone := providers_eq_singleton_iff.2 hj
    rw [show providers tangle "core" (some 1) = [0, 3] from rfl] at hone
    cases hone
  obtain ⟨i, k, r, name, e, hb, hr, he, _⟩ := (build_first_fault tangle).2.1
    (identified_iff.1 hid) ⟨1, 1, _, "core", ⟨rfl, rfl⟩, hlead⟩
  exact ⟨rfl, i, k, r, name, e, hb, hr, he⟩

end Graph

end

end ResourceOrder
