import Mathlib.Data.List.Sort
import ResourceOrder.Graph.Provider
import ResourceOrder.Proofs.Distinct
import ResourceOrder.Proofs.Outcome

/-!
# Which resource a requirement leads to

* `Elsewhere`  another resource that goes by a name;
* `Picks`      the one resource that a requirement leads to: the only other one that provides the
               name or, if no other one provides it, the only other one that has it;
* `Requires`   one resource requires another one;
* `Linked`     a node whose links lead to where its requirements do;
* `Identified` resources with names of their own.

Linking succeeds exactly if every requirement leads somewhere (`linkAll_eq_ok_iff`), and the check
of the names exactly if they are in order (`checkIdentities_eq_ok_iff`).
-/

namespace ResourceOrder

/-! ## the relations -/

/-- the resource at place `k`, which is not the one at place `i`, goes by the name -/
def Elsewhere (rs : List Resource) (i : Nat) (nameOf : Resource → String) (name : String)
    (k : Nat) : Prop :=
  k ≠ i ∧ ∃ r, rs[k]? = some r ∧ nameOf r = name

/-- the requirement `name` of the resource at place `i` leads to the one at place `j` -/
def Picks (rs : List Resource) (i : Nat) (name : String) (j : Nat) : Prop :=
  (∀ k, Elsewhere rs i Resource.provides name k ↔ k = j) ∨
  ((∀ k, ¬ Elsewhere rs i Resource.provides name k) ∧
    ∀ k, Elsewhere rs i Resource.name name k ↔ k = j)

def Requires (rs : List Resource) (i j : Nat) : Prop :=
  ∃ r, rs[i]? = some r ∧ ∃ name ∈ r.requires, Picks rs i name j

def Linked (rs : List Resource) (i : Nat) (n : Node) : Prop :=
  List.Forall₂ (fun name l => l.requirement = name ∧ Picks rs i name l.provider)
    n.resource.requires n.links

/-- no name is empty, and no two resources share one -/
structure Identified (rs : List Resource) : Prop where
  named : ∀ r ∈ rs, r.name ≠ "" ∧ r.provides ≠ ""
  distinct : (rs.map Resource.name).Nodup

/-! ## identities -/

theorem checkFrom_eq_ok_iff (rs : List Resource) :
    ∀ (index : Nat) (seen : List String), checkFrom index seen rs = .ok () ↔
      Identified rs ∧ ∀ r ∈ rs, r.name ∉ seen := by
  induction rs with
  | nil => exact fun _ _ => iff_of_true rfl ⟨⟨by simp, by simp⟩, by simp⟩
  | cons r rs ih =>
    intro index seen
    rw [checkFrom]
    by_cases hname : r.name = ""
    · rw [if_pos hname]
      exact iff_of_false error_ne_ok fun h => (h.1.named r (by simp)).1 hname
    rw [if_neg hname]
    by_cases hprov : r.provides = ""
    · rw [if_pos hprov]
      exact iff_of_false error_ne_ok fun h => (h.1.named r (by simp)).2 hprov
    rw [if_neg hprov]
    by_cases hseen : r.name ∈ seen
    · rw [if_pos hseen]
      exact iff_of_false error_ne_ok fun h => h.2 r (by simp) hseen
    rw [if_neg hseen, ih]
    constructor
    · intro h
      obtain ⟨h, hnew⟩ := h
      refine ⟨⟨?_, ?_⟩, ?_⟩
      · intro q hq
        rcases List.mem_cons.1 hq with rfl | hq
        · exact ⟨hname, hprov⟩
        · exact h.named q hq
      · rw [List.map_cons, List.nodup_cons]
        refine ⟨fun hm => ?_, h.distinct⟩
        obtain ⟨q, hq, he⟩ := List.mem_map.1 hm
        exact hnew q hq (he ▸ List.mem_cons_self ..)
      · intro q hq
        rcases List.mem_cons.1 hq with rfl | hq
        · exact hseen
        · exact fun hm => hnew q hq (List.mem_cons_of_mem _ hm)
    · intro h
      obtain ⟨h, hnew⟩ := h
      have hd := h.distinct
      rw [List.map_cons, List.nodup_cons] at hd
      refine ⟨⟨fun q hq => h.named q (List.mem_cons_of_mem _ hq), hd.2⟩, fun q hq hm => ?_⟩
      rcases List.mem_cons.1 hm with he | hm
      · exact hd.1 (he ▸ List.mem_map_of_mem hq)
      · exact hnew q (List.mem_cons_of_mem _ hq) hm

theorem checkIdentities_eq_ok_iff {rs : List Resource} :
    checkIdentities rs = .ok () ↔ Identified rs := by
  rw [checkIdentities, checkFrom_eq_ok_iff]
  simp

/-! ## places -/

section
variable {α : Type} {p : Nat → α → Bool} {as : List α}

theorem positions_sorted : (positions p as).Pairwise (· < ·) := by
  have hsub : (positions p as).Sublist (as.zipIdx.map Prod.snd) :=
    List.filter_sublist.map _
  rw [List.zipIdx_map_snd, ← List.range_eq_range'] at hsub
  exact List.pairwise_lt_range.sublist hsub

theorem positions_nodup : (positions p as).Nodup :=
  positions_sorted.imp Nat.ne_of_lt

theorem positions_eq_filter :
    positions p as = (List.range as.length).filter fun i => as[i]?.any (p i) := by
  refine List.Perm.eq_of_pairwise' positions_sorted (List.pairwise_lt_range.filter _) ?_
  refine (List.perm_ext_iff_of_nodup positions_nodup (List.nodup_range.filter _)).2 fun i => ?_
  rw [mem_positions, List.mem_filter, List.mem_range, Option.any_eq_true]
  constructor
  · intro h
    obtain ⟨a, ha, hp⟩ := h
    exact ⟨(List.getElem?_eq_some_iff.1 ha).1, a, ha, hp⟩
  · intro h
    obtain ⟨_, a, ha, hp⟩ := h
    exact ⟨a, ha, hp⟩

theorem eq_singleton_iff {l : List Nat} (hl : l.Nodup) {j : Nat} :
    l = [j] ↔ ∀ k, k ∈ l ↔ k = j := by
  constructor
  · rintro rfl k
    exact List.mem_singleton
  · intro h
    refine List.perm_singleton.1 ((List.perm_ext_iff_of_nodup hl (by simp)).2 fun k => ?_)
    rw [h k, List.mem_singleton]

end

/-! ## links -/

section
variable {rs : List Resource}

theorem mem_positions_elsewhere {i : Nat} {nameOf : Resource → String} {name : String} {k : Nat} :
    k ∈ positions (fun k r => some k ≠ some i && nameOf r == name) rs ↔
      Elsewhere rs i nameOf name k := by
  simp only [mem_positions, Elsewhere, Bool.and_eq_true, decide_eq_true_eq, beq_iff_eq, ne_eq,
    Option.some.injEq]
  constructor
  · intro h
    obtain ⟨r, hr, hk, hn⟩ := h
    exact ⟨hk, r, hr, hn⟩
  · intro h
    obtain ⟨hk, r, hr, hn⟩ := h
    exact ⟨r, hr, hk, hn⟩

theorem providers_eq_singleton_iff {i j : Nat} {name : String} :
    providers rs name (some i) = [j] ↔ Picks rs i name j := by
  unfold providers Picks
  simp only [← mem_positions_elsewhere]
  generalize hp : positions (fun k r => some k ≠ some i && r.provides == name) rs = byProvides
  have hnd : byProvides.Nodup := hp ▸ positions_nodup
  cases byProvides with
  | nil =>
    rw [if_pos (by simp), eq_singleton_iff positions_nodup]
    refine ⟨fun h => .inr ⟨by simp, h⟩, fun h => ?_⟩
    rcases h with h | h
    · exact absurd ((h j).2 rfl) (by simp)
    · exact h.2
  | cons k ks =>
    rw [if_neg (by simp), eq_singleton_iff hnd]
    refine ⟨.inl, fun h => ?_⟩
    rcases h with h | h
    · exact h
    · exact absurd (List.mem_cons_self ..) (h.1 k)

theorem Picks.unique {i j k : Nat} {name : String} (hj : Picks rs i name j)
    (hk : Picks rs i name k) : j = k := by
  have h := (providers_eq_singleton_iff.2 hj).symm.trans (providers_eq_singleton_iff.2 hk)
  exact List.head_eq_of_cons_eq h

theorem Picks.ne {i j : Nat} {name : String} (h : Picks rs i name j) : j ≠ i := by
  rcases h with h | h
  · exact ((h j).2 rfl).1
  · exact ((h.2 j).2 rfl).1

theorem Picks.lt {i j : Nat} {name : String} (h : Picks rs i name j) : j < rs.length := by
  have hplace : ∃ r, rs[j]? = some r := by
    rcases h with h | h
    · obtain ⟨_, r, hr, _⟩ := (h j).2 rfl
      exact ⟨r, hr⟩
    · obtain ⟨_, r, hr, _⟩ := (h.2 j).2 rfl
      exact ⟨r, hr⟩
  obtain ⟨r, hr⟩ := hplace
  exact (List.getElem?_eq_some_iff.1 hr).1

theorem link_eq_ok_iff {i : Nat} {r : Resource} {name : String} {l : Link} :
    link rs i r name = .ok l ↔ l.requirement = name ∧ Picks rs i name l.provider := by
  rw [← providers_eq_singleton_iff, link]
  obtain ⟨requirement, provider⟩ := l
  split
  next h => exact iff_of_false error_ne_ok fun hl => by rw [h] at hl; cases hl.2
  next j h =>
    rw [h]
    constructor
    · intro hl
      cases hl
      exact ⟨rfl, rfl⟩
    · intro h
      obtain ⟨rfl, hl⟩ := h
      cases hl
      rfl
  next h => exact iff_of_false error_ne_ok fun hl => h provider hl.2

theorem linkNode_eq_ok_iff {i : Nat} {r : Resource} {n : Node} :
    linkNode rs i r = .ok n ↔ n.resource = r ∧ Linked rs i n := by
  obtain ⟨resource, links⟩ := n
  rw [linkNode, map_eq_ok_iff]
  constructor
  · intro h
    obtain ⟨links', h, he⟩ := h
    cases he
    exact ⟨rfl, (mapM_eq_ok_iff.1 h).imp fun _ _ hl => link_eq_ok_iff.1 hl⟩
  · intro h
    obtain ⟨rfl, h⟩ := h
    exact ⟨links, mapM_eq_ok_iff.2 (h.imp fun _ _ hl => link_eq_ok_iff.2 hl), rfl⟩

theorem linkAll_eq_ok_iff {nodes : List Node} :
    linkAll rs = .ok nodes ↔
      nodes.map Node.resource = rs ∧ ∀ i n, nodes[i]? = some n → Linked rs i n := by
  rw [linkAll, mapM_eq_ok_iff, List.forall₂_iff_get]
  simp only [linkNode_eq_ok_iff, List.length_zipIdx, List.get_eq_getElem, List.getElem_zipIdx]
  constructor
  · intro h
    obtain ⟨hlen, h⟩ := h
    refine ⟨List.ext_getElem (by simp [hlen]) fun i hi hi' => ?_, fun i n hn => ?_⟩
    · rw [List.getElem_map]
      exact (h i (by simpa using hi') (by simpa using hi)).1
    · obtain ⟨hi, rfl⟩ := List.getElem?_eq_some_iff.1 hn
      simpa using (h i (by omega) hi).2
  · intro h
    obtain ⟨rfl, h⟩ := h
    refine ⟨by simp, fun i hi hi' => ⟨by simp, ?_⟩⟩
    simpa using h i _ (List.getElem?_eq_getElem hi')

end

end ResourceOrder
