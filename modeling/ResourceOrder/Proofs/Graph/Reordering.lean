import ResourceOrder.Proofs.Graph.Placement

/-!
# Graphs of the same resources in another order

* `LeadsTo`      the resource that a requirement leads to, told without places;
* `Provided`     every requirement leads to a resource;
* `Depends`      a resource has a requirement that leads to another one;
* `Check`        the checks that resources can fail, and `Fails` the first one that they do fail;
* `Graph.dependencyNames?`  the names that a node depends on, in order;
* `Graph.Agree`  two results of building: graphs with the same edges between the same names, or
                 errors from the same check.

None of the relations tells in which order the resources stand.  As soon as their names are
distinct, the relations between places are the same as those between resources
(`picks_iff_leadsTo`, `acyclic_iff_depends`).  **So building in any other order gives the same
edges between names, or fails in the same check** (`Graph.build_perm`).
-/

namespace ResourceOrder

/-! ## relations between resources -/

/-- another resource than `r` that goes by the name -/
def Other (rs : List Resource) (r : Resource) (nameOf : Resource → String) (name : String)
    (p : Resource) : Prop :=
  p ∈ rs ∧ p ≠ r ∧ nameOf p = name

/-- the requirement `name` of `r` leads to `q` -/
def LeadsTo (rs : List Resource) (r : Resource) (name : String) (q : Resource) : Prop :=
  (∀ p, Other rs r Resource.provides name p ↔ p = q) ∨
  ((∀ p, ¬ Other rs r Resource.provides name p) ∧
    ∀ p, Other rs r Resource.name name p ↔ p = q)

def Provided (rs : List Resource) : Prop :=
  ∀ r ∈ rs, ∀ name ∈ r.requires, ∃ q, LeadsTo rs r name q

def Depends (rs : List Resource) (r q : Resource) : Prop :=
  r ∈ rs ∧ ∃ name ∈ r.requires, LeadsTo rs r name q

section
variable {rs rs' : List Resource} {r q : Resource} {name : String}

theorem LeadsTo.mem (h : LeadsTo rs r name q) : q ∈ rs := by
  rcases h with h | h
  · exact ((h q).2 rfl).1
  · exact ((h.2 q).2 rfl).1

theorem LeadsTo.unique (h : LeadsTo rs r name q) {q' : Resource} (h' : LeadsTo rs r name q') :
    q = q' := by
  rcases h with h | h
  · rcases h' with h' | h'
    · exact (h' q).1 ((h q).2 rfl)
    · exact absurd ((h q).2 rfl) (h'.1 q)
  · rcases h' with h' | h'
    · exact absurd ((h' q').2 rfl) (h.1 q')
    · exact (h'.2 q).1 ((h.2 q).2 rfl)

/-! ## in another order -/

theorem other_perm (h : rs.Perm rs') : Other rs = Other rs' := by
  funext r nameOf name p
  unfold Other
  rw [h.mem_iff]

theorem leadsTo_perm (h : rs.Perm rs') : LeadsTo rs = LeadsTo rs' := by
  funext r name q
  unfold LeadsTo
  rw [other_perm h]

theorem depends_perm (h : rs.Perm rs') : Depends rs = Depends rs' := by
  funext r q
  unfold Depends
  rw [h.mem_iff, leadsTo_perm h]

theorem provided_perm (h : rs.Perm rs') : Provided rs ↔ Provided rs' := by
  unfold Provided
  simp only [h.mem_iff, leadsTo_perm h]

theorem identified_perm (h : rs.Perm rs') : Identified rs ↔ Identified rs' := by
  have hmap : (rs.map Resource.name).Nodup ↔ (rs'.map Resource.name).Nodup :=
    (h.map Resource.name).nodup_iff
  constructor
  · intro hid
    exact ⟨fun r hr => hid.named r (h.mem_iff.2 hr), hmap.1 hid.distinct⟩
  · intro hid
    exact ⟨fun r hr => hid.named r (h.mem_iff.1 hr), hmap.2 hid.distinct⟩

/-! ## places and resources -/

theorem Identified.nodup (h : Identified rs) : rs.Nodup := h.distinct.of_map _

theorem Identified.eq_of_name_eq (h : Identified rs) (hr : r ∈ rs) (hq : q ∈ rs)
    (hname : r.name = q.name) : r = q :=
  List.inj_on_of_nodup_map h.distinct hr hq hname

variable {i j : Nat}

theorem eq_of_getElem? (hnd : rs.Nodup) {k : Nat} (hi : rs[i]? = some r) (hk : rs[k]? = some r) :
    k = i := by
  obtain ⟨hi', hri⟩ := List.getElem?_eq_some_iff.1 hi
  obtain ⟨hk', hrk⟩ := List.getElem?_eq_some_iff.1 hk
  exact hnd.getElem_inj_iff.1 (hrk.trans hri.symm)

theorem other_iff_elsewhere (hnd : rs.Nodup) (hr : rs[i]? = some r)
    {nameOf : Resource → String} {k : Nat} {p : Resource} (hp : rs[k]? = some p) :
    Other rs r nameOf name p ↔ Elsewhere rs i nameOf name k := by
  constructor
  · intro h
    obtain ⟨_, hne, hname⟩ := h
    refine ⟨fun hk => hne ?_, p, hp, hname⟩
    rw [hk, hr] at hp
    exact (Option.some.inj hp).symm
  · intro h
    obtain ⟨hk, p', hp', hname⟩ := h
    obtain rfl := Option.some.inj (hp.symm.trans hp')
    refine ⟨List.mem_of_getElem? hp, fun hpr => hk ?_, hname⟩
    exact eq_of_getElem? hnd hr (hpr ▸ hp)

theorem only_other_iff (hnd : rs.Nodup) (hr : rs[i]? = some r) (hq : rs[j]? = some q)
    {nameOf : Resource → String} :
    (∀ p, Other rs r nameOf name p ↔ p = q) ↔ ∀ k, Elsewhere rs i nameOf name k ↔ k = j := by
  constructor
  · intro h k
    constructor
    · intro hk
      obtain ⟨_, p, hp, _⟩ := id hk
      have hpq := (h p).1 ((other_iff_elsewhere hnd hr hp).2 hk)
      exact eq_of_getElem? hnd hq (hpq ▸ hp)
    · rintro rfl
      exact (other_iff_elsewhere hnd hr hq).1 ((h q).2 rfl)
  · intro h p
    constructor
    · intro hp
      obtain ⟨k, hk⟩ := List.getElem?_of_mem hp.1
      have hkj := (h k).1 ((other_iff_elsewhere hnd hr hk).1 hp)
      rw [hkj, hq] at hk
      exact (Option.some.inj hk).symm
    · rintro rfl
      exact (other_iff_elsewhere hnd hr hq).2 ((h j).2 rfl)

theorem no_other_iff (hnd : rs.Nodup) (hr : rs[i]? = some r) {nameOf : Resource → String} :
    (∀ p, ¬ Other rs r nameOf name p) ↔ ∀ k, ¬ Elsewhere rs i nameOf name k := by
  constructor
  · intro h k hk
    obtain ⟨_, p, hp, _⟩ := id hk
    exact h p ((other_iff_elsewhere hnd hr hp).2 hk)
  · intro h p hp
    obtain ⟨k, hk⟩ := List.getElem?_of_mem hp.1
    exact h k ((other_iff_elsewhere hnd hr hk).1 hp)

theorem picks_iff_leadsTo (hnd : rs.Nodup) (hr : rs[i]? = some r) (hq : rs[j]? = some q) :
    Picks rs i name j ↔ LeadsTo rs r name q := by
  unfold Picks LeadsTo
  rw [only_other_iff hnd hr hq, only_other_iff hnd hr hq, no_other_iff hnd hr]

theorem exists_picks_iff (hnd : rs.Nodup) (hr : rs[i]? = some r) :
    (∃ j, Picks rs i name j) ↔ ∃ q, LeadsTo rs r name q := by
  constructor
  · intro h
    obtain ⟨j, hj⟩ := h
    have hq := List.getElem?_eq_getElem hj.lt
    exact ⟨_, (picks_iff_leadsTo hnd hr hq).1 hj⟩
  · intro h
    obtain ⟨q, hq⟩ := h
    obtain ⟨j, hj⟩ := List.getElem?_of_mem hq.mem
    exact ⟨j, (picks_iff_leadsTo hnd hr hj).2 hq⟩

theorem provided_iff (hnd : rs.Nodup) :
    Provided rs ↔ ∀ i r, rs[i]? = some r → ∀ name ∈ r.requires, ∃ j, Picks rs i name j := by
  constructor
  · intro h i r hr name hname
    exact (exists_picks_iff hnd hr).2 (h r (List.mem_of_getElem? hr) name hname)
  · intro h r hr name hname
    obtain ⟨i, hi⟩ := List.getElem?_of_mem hr
    exact (exists_picks_iff hnd hi).1 (h i r hi name hname)

/-- the resource at a place; beyond the end, one without a name -/
def resourceAt (rs : List Resource) (i : Nat) : Resource := (rs[i]?).getD (.standalone "")

theorem resourceAt_eq (h : rs[i]? = some r) : resourceAt rs i = r := by
  rw [resourceAt, h, Option.getD_some]

theorem acyclic_iff_depends (hnd : rs.Nodup) :
    (∀ i, ¬ Relation.TransGen (Requires rs) i i) ↔
      ∀ r, ¬ Relation.TransGen (Depends rs) r r := by
  constructor
  · intro h r hr
    refine h (rs.idxOf r) (hr.lift (rs.idxOf ·) fun p q hpq => ?_)
    obtain ⟨hp, name, hname, hq⟩ := hpq
    have hp' := List.getElem?_idxOf hp
    exact ⟨p, hp', name, hname, (picks_iff_leadsTo hnd hp' (List.getElem?_idxOf hq.mem)).2 hq⟩
  · intro h i hi
    refine h (resourceAt rs i) (hi.lift (resourceAt rs) fun k l hkl => ?_)
    obtain ⟨p, hp, name, hname, hl⟩ := hkl
    have hq := List.getElem?_eq_getElem hl.lt
    show Depends rs (resourceAt rs k) (resourceAt rs l)
    rw [resourceAt_eq hp, resourceAt_eq hq]
    exact ⟨List.mem_of_getElem? hp, name, hname, (picks_iff_leadsTo hnd hp hq).1 hl⟩

theorem wellFormed_iff :
    WellFormed rs ↔ Identified rs ∧ Provided rs ∧ ∀ r, ¬ Relation.TransGen (Depends rs) r r := by
  constructor
  · intro h
    have hnd := h.identified.nodup
    exact ⟨h.identified, (provided_iff hnd).2 h.provided, (acyclic_iff_depends hnd).1 h.acyclic⟩
  · intro h
    obtain ⟨hid, hprov, hac⟩ := h
    exact ⟨hid, (provided_iff hid.nodup).1 hprov, (acyclic_iff_depends hid.nodup).2 hac⟩

theorem wellFormed_perm (h : rs.Perm rs') : WellFormed rs ↔ WellFormed rs' := by
  rw [wellFormed_iff, wellFormed_iff, identified_perm h, provided_perm h, depends_perm h]

end

/-! ## checks -/

inductive Check where
  | identities
  | providers
  | cycles
deriving DecidableEq

/-- the check that an error comes from -/
def GraphError.check : GraphError → Check
  | .emptyIdentity _ _ => .identities
  | .duplicateResource _ => .identities
  | .missingProvider _ _ => .providers
  | .ambiguousProvider _ _ _ => .providers
  | .cycle _ => .cycles

/-- the first check that resources without a graph fail -/
def Fails (rs : List Resource) : Check → Prop
  | .identities => ¬ Identified rs
  | .providers => Identified rs ∧ ¬ Provided rs
  | .cycles => Identified rs ∧ Provided rs

section
variable {rs rs' : List Resource} {e : GraphError}

theorem Fails.unique {c c' : Check} (h : Fails rs c) (h' : Fails rs c') : c = c' := by
  cases c with
  | identities =>
    cases c' with
    | identities => rfl
    | providers => exact absurd h'.1 h
    | cycles => exact absurd h'.1 h
  | providers =>
    cases c' with
    | identities => exact absurd h.1 h'
    | providers => rfl
    | cycles => exact absurd h'.2 h.2
  | cycles =>
    cases c' with
    | identities => exact absurd h.1 h'
    | providers => exact absurd h.2 h'.2
    | cycles => rfl

theorem fails_perm (h : rs.Perm rs') (c : Check) : Fails rs c ↔ Fails rs' c := by
  cases c with
  | identities => exact not_congr (identified_perm h)
  | providers => exact and_congr (identified_perm h) (not_congr (provided_perm h))
  | cycles => exact and_congr (identified_perm h) (provided_perm h)

theorem check_of_checkFrom (rs : List Resource) : ∀ (index : Nat) (seen : List String),
    checkFrom index seen rs = .error e → e.check = .identities := by
  induction rs with
  | nil => exact fun _ _ h => nomatch h
  | cons r rs ih =>
    intro index seen h
    rw [checkFrom] at h
    split at h
    · cases h
      rfl
    split at h
    · cases h
      rfl
    split at h
    · cases h
      rfl
    · exact ih _ _ h

theorem check_of_link {i : Nat} {r : Resource} {name : String}
    (h : link rs i r name = .error e) : e.check = .providers := by
  unfold link at h
  split at h
  · cases h
    rfl
  · cases h
  · cases h
    rfl

theorem check_of_linkAll (h : linkAll rs = .error e) : e.check = .providers := by
  obtain ⟨x, _, hx⟩ := exists_of_mapM_eq_error h
  rw [linkNode, map_eq_error_iff] at hx
  obtain ⟨name, _, hlink⟩ := exists_of_mapM_eq_error hx
  exact check_of_link hlink

namespace Graph

theorem check_of_checkCycles {g : Graph} (h : checkCycles g = .error e) : e.check = .cycles := by
  unfold checkCycles at h
  split at h
  · cases h
  · cases h
    rfl

/-- an error comes from the first check that fails -/
theorem fails_of_build_eq_error (h : build rs = .error e) : Fails rs e.check := by
  rw [build, bind_eq_error_iff] at h
  rcases h with h | ⟨_, hok, h⟩
  · rw [check_of_checkFrom rs 0 [] h]
    intro hid
    rw [checkIdentities_eq_ok_iff.2 hid] at h
    cases h
  have hid := checkIdentities_eq_ok_iff.1 hok
  rcases bind_eq_error_iff.1 h with h | ⟨nodes, hnodes, h⟩
  · rw [check_of_linkAll h]
    refine ⟨hid, fun hprov => ?_⟩
    obtain ⟨g, hc⟩ := exists_connects_iff.2 ((provided_iff hid.nodup).1 hprov)
    have hnodes : linkAll rs = .ok g.nodes := linkAll_eq_ok_iff_connects.2 hc
    rw [hnodes] at h
    cases h
  · rw [check_of_checkCycles h]
    have hc := linkAll_eq_ok_iff_connects.1 hnodes
    exact ⟨hid, (provided_iff hid.nodup).2 (exists_connects_iff.1 ⟨_, hc⟩)⟩

/-! ## edges between names -/

/-- the names of the nodes that the node of this name depends on, in its order; none if there is no
such node -/
def dependencyNames? (g : Graph) (name : String) : Option (List String) :=
  (g.find? name).map fun i => (g.dependencies i).map g.nameOf

variable {g g' : Graph}

theorem find?_eq_some_iff (hid : Identified rs) (hc : g.Connects rs) {name : String} {i : Nat} :
    g.find? name = some i ↔ ∃ r, rs[i]? = some r ∧ r.name = name := by
  rw [find?, List.findIdx?_eq_some_iff_getElem]
  constructor
  · intro h
    obtain ⟨hi, hname, _⟩ := h
    exact ⟨_, hc.getElem?_resource (List.getElem?_eq_getElem hi), eq_of_beq hname⟩
  · intro h
    obtain ⟨r, hr, rfl⟩ := h
    obtain ⟨n, hn, rfl⟩ := hc.exists_node hr
    obtain ⟨hi, hni⟩ := List.getElem?_eq_some_iff.1 hn
    refine ⟨hi, ?_, fun k hk => ?_⟩
    · rw [hni]
      exact beq_self_eq_true _
    · have hk' : k < g.nodes.length := Nat.lt_trans hk hi
      rw [Bool.not_eq_true, beq_eq_false_iff_ne]
      intro hname
      have hrk := hc.getElem?_resource (List.getElem?_eq_getElem hk')
      have hsame := hid.eq_of_name_eq (List.mem_of_getElem? hrk) (List.mem_of_getElem? hr) hname
      exact Nat.ne_of_lt hk (eq_of_getElem? hid.nodup hr (hsame ▸ hrk))

/-- the nodes that a node depends on have the names of what its requirements lead to -/
theorem exists_leadsTo_dependencies (hid : Identified rs) (hc : g.Connects rs) {i : Nat}
    {r : Resource} (hr : rs[i]? = some r) :
    ∃ qs, List.Forall₂ (LeadsTo rs r) r.requires qs ∧
      (g.dependencies i).map g.nameOf = (distinct qs).map Resource.name := by
  obtain ⟨n, hn, rfl⟩ := hc.exists_node hr
  have hpicks := hc.picks_links hn
  have hplaces : ∀ j ∈ n.links.map Link.provider, ∃ q, rs[j]? = some q := fun j hj => by
    obtain ⟨m, hm, rfl⟩ := List.getElem_of_mem hj
    have hm' : m < n.resource.requires.length := hpicks.length_eq ▸ hm
    exact ⟨_, List.getElem?_eq_getElem (hpicks.get hm' hm).lt⟩
  have hapart : ∀ j ∈ n.links.map Link.provider, ∀ k ∈ n.links.map Link.provider,
      resourceAt rs j = resourceAt rs k → j = k := fun j hj k hk hjk => by
    obtain ⟨q, hq⟩ := hplaces j hj
    obtain ⟨p, hp⟩ := hplaces k hk
    rw [resourceAt_eq hq, resourceAt_eq hp] at hjk
    exact (eq_of_getElem? hid.nodup hq (hjk ▸ hp)).symm
  refine ⟨(n.links.map Link.provider).map (resourceAt rs), ?_, ?_⟩
  · rw [List.forall₂_map_right_iff]
    refine hpicks.imp fun name j hj => ?_
    have hq := List.getElem?_eq_getElem hj.lt
    rw [resourceAt_eq hq]
    exact (picks_iff_leadsTo hid.nodup hr hq).1 hj
  · rw [distinct_map hapart, List.map_map, dependencies_of_getElem? hn]
    refine List.map_congr_left fun j hj => ?_
    obtain ⟨q, hq⟩ := hplaces j (mem_distinct.1 hj)
    obtain ⟨m, hm, rfl⟩ := hc.exists_node hq
    rw [Function.comp_apply, resourceAt_eq hq, nameOf_of_getElem? hm]
    rfl

/-- the names that a node depends on, told without places -/
theorem dependencyNames?_eq_some_iff (hid : Identified rs) (hc : g.Connects rs) {name : String}
    {names : List String} :
    g.dependencyNames? name = some names ↔
      ∃ r ∈ rs, r.name = name ∧ ∃ qs, List.Forall₂ (LeadsTo rs r) r.requires qs ∧
        names = (distinct qs).map Resource.name := by
  rw [dependencyNames?, Option.map_eq_some_iff]
  simp only [find?_eq_some_iff hid hc]
  constructor
  · intro h
    obtain ⟨i, ⟨r, hr, hname⟩, rfl⟩ := h
    obtain ⟨qs, hqs, heq⟩ := exists_leadsTo_dependencies hid hc hr
    exact ⟨r, List.mem_of_getElem? hr, hname, qs, hqs, heq⟩
  · intro h
    obtain ⟨r, hr, hname, qs, hqs, rfl⟩ := h
    obtain ⟨i, hi⟩ := List.getElem?_of_mem hr
    obtain ⟨qs', hqs', heq⟩ := exists_leadsTo_dependencies hid hc hi
    have hunique : qs' = qs := List.right_unique_forall₂' (fun _ _ _ h h' => h.unique h') hqs' hqs
    exact ⟨i, ⟨r, hi, hname⟩, by rw [heq, hunique]⟩

theorem dependencyNames?_perm (h : rs.Perm rs') (hid : Identified rs) (hc : g.Connects rs)
    (hc' : g'.Connects rs') (name : String) :
    g.dependencyNames? name = g'.dependencyNames? name := by
  refine Option.ext fun names => ?_
  rw [dependencyNames?_eq_some_iff hid hc,
    dependencyNames?_eq_some_iff ((identified_perm h).1 hid) hc']
  simp only [h.mem_iff, leadsTo_perm h]

/-! ## building in another order -/

/-- the same edges between the same names, or errors from the same check -/
inductive Agree : Except GraphError Graph → Except GraphError Graph → Prop
  | built {g g' : Graph} : (∀ name, g.dependencyNames? name = g'.dependencyNames? name) →
      Agree (.ok g) (.ok g')
  | refused {e e' : GraphError} : e.check = e'.check → Agree (.error e) (.error e')

/-- **The order of the resources decides neither whether they form a graph, nor the edges of the
graph between their names and the order of those of one node, nor which check fails.** -/
theorem build_perm (h : rs.Perm rs') : Agree (build rs) (build rs') := by
  have hok : (∃ g, build rs = .ok g) ↔ ∃ g, build rs' = .ok g := by
    rw [exists_build_iff, exists_build_iff, wellFormed_perm h]
  cases hb : build rs with
  | ok g =>
    obtain ⟨g', hb'⟩ := hok.1 ⟨g, hb⟩
    obtain ⟨hid, hc, _⟩ := build_eq_ok_iff.1 hb
    obtain ⟨_, hc', _⟩ := build_eq_ok_iff.1 hb'
    rw [hb']
    exact .built (dependencyNames?_perm h hid hc hc')
  | error e =>
    cases hb' : build rs' with
    | ok g' =>
      obtain ⟨g, hg⟩ := hok.2 ⟨g', hb'⟩
      rw [hb] at hg
      cases hg
    | error e' =>
      have hfails := (fails_perm h _).1 (fails_of_build_eq_error hb)
      exact .refused (hfails.unique (fails_of_build_eq_error hb'))

theorem build_perm_diamond :
    ∃ g g' : Graph, build diamond = .ok g ∧ build diamond.reverse = .ok g' ∧
      g.free = [1, 3] ∧ g'.free = [1, 3] ∧ g.nameOf 1 = "base" ∧ g'.nameOf 1 = "map" ∧
      g'.dependencyNames? "ui" = some ["base", "hud"] ∧
      Agree (build diamond) (build diamond.reverse) :=
  ⟨_, _, rfl, rfl, rfl, rfl, rfl, rfl, rfl, build_perm (List.reverse_perm diamond).symm⟩

end Graph

end

end ResourceOrder
