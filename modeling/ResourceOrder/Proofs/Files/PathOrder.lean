import ResourceOrder.Files.Path
import Mathlib.Data.List.Lex
import Mathlib.Data.Prod.Lex

/-!
# The order of paths

* `Component.key`  a component as its rank and the numbers of the bytes of its name;
* `sortKey`        a path as the keys of its components.

Components are compared as their keys are (`Component.before_iff`), lists of components as the lists
of their keys (`before_iff`), and a path is sorted by its key.  So the order of paths is the linear
order of lists, and two paths take the same place in it only if they have the same components
(`sortKey_inj`).  **Paths with different components are sorted into a strictly increasing list**
(`pairwise_sort`), **the same one for all orders in which they can be given** (`sort_eq_of_perm`).
-/

namespace ResourceOrder.Path

/-! ## components -/

theorem map_toNat_injective : Function.Injective (List.map UInt8.toNat) :=
  List.map_injective_iff.2 fun _ _ => UInt8.toNat_inj.1

/-- bytes are ordered as their numbers are -/
theorem map_toNat_lt_iff {s t : RawText} : s.map UInt8.toNat < t.map UInt8.toNat ↔ s < t := by
  induction s generalizing t with
  | nil => cases t <;> simp
  | cons b bs ih =>
    cases t with
    | nil => simp
    | cons c cs =>
      rw [List.map_cons, List.map_cons, List.cons_lt_cons_iff, List.cons_lt_cons_iff, ih,
        UInt8.toNat_inj, UInt8.lt_iff_toNat_lt]

/-- the rank of a component, and the numbers of the bytes of its name; what is no name has none -/
def Component.key : Component → ℕ ×ₗ List ℕ
  | .name s => toLex (3, s.map UInt8.toNat)
  | c => toLex (c.rank, [])

theorem Component.key_injective : Function.Injective Component.key := by
  intro a b h
  cases a <;> cases b <;>
    simp_all [key, rank, map_toNat_injective.eq_iff]

theorem Component.before_iff {a b : Component} : a.before b = true ↔ a.key < b.key := by
  cases a <;> cases b <;>
    simp [before, key, rank, Prod.Lex.toLex_lt_toLex, map_toNat_lt_iff]

theorem before_iff {as bs : List Component} :
    before as bs = true ↔ as.map Component.key < bs.map Component.key := by
  induction as generalizing bs with
  | nil => cases bs <;> simp [before]
  | cons a as ih =>
    cases bs with
    | nil => simp [before]
    | cons b bs =>
      rw [before, List.map_cons, List.map_cons, List.cons_lt_cons_iff]
      by_cases h : a = b
      · subst h
        simp [ih]
      · have hkey : a.key ≠ b.key := fun he => h (Component.key_injective he)
        simp [h, hkey, Component.before_iff]

/-! ## paths -/

/-- by which paths are sorted -/
def sortKey (path : RawText) : List (ℕ ×ₗ List ℕ) := (components path).map Component.key

theorem sortKey_inj {p q : RawText} : sortKey p = sortKey q ↔ components p = components q :=
  (List.map_injective_iff.2 Component.key_injective).eq_iff

theorem before_components_iff {p q : RawText} :
    before (components p) (components q) = true ↔ sortKey p < sortKey q := before_iff

theorem not_before_components_iff {p q : RawText} :
    (!before (components q) (components p)) = true ↔ sortKey p ≤ sortKey q := by
  rw [Bool.not_eq_true', ← Bool.not_eq_true, before_components_iff, not_lt]

theorem sorted_sort (paths : List RawText) :
    (sort paths).Pairwise fun p q => sortKey p ≤ sortKey q := by
  refine (List.pairwise_mergeSort ?_ ?_ paths).imp not_before_components_iff.1
  · intro p q r hpq hqr
    rw [not_before_components_iff] at *
    exact hpq.trans hqr
  · intro p q
    rw [Bool.or_eq_true, not_before_components_iff, not_before_components_iff]
    exact le_total _ _

theorem perm_sort (paths : List RawText) : (sort paths).Perm paths := List.mergeSort_perm _ _

section
variable {as bs : List RawText}

/-- **paths with different components are sorted into a strictly increasing list** -/
theorem pairwise_sort (hnodup : (as.map components).Nodup) :
    (sort as).Pairwise fun p q => before (components p) (components q) = true := by
  have hne : (sort as).Pairwise fun p q => components p ≠ components q :=
    List.pairwise_map.1 (((perm_sort as).map components).nodup_iff.2 hnodup)
  refine ((sorted_sort as).and hne).imp fun ⟨hle, hne⟩ => ?_
  exact before_components_iff.2 (lt_of_le_of_ne hle fun h => hne (sortKey_inj.1 h))

/-- a strictly increasing list is what its elements are sorted into -/
theorem sort_eq (h : as.Perm bs)
    (hbs : bs.Pairwise fun p q => before (components p) (components q) = true) : sort as = bs := by
  have hnodup : (bs.map components).Nodup := List.pairwise_map.2 <| hbs.imp fun hpq he => by
    rw [before_components_iff, sortKey_inj.2 he] at hpq
    exact lt_irrefl _ hpq
  refine List.Perm.eq_of_pairwise (fun p q _ _ hpq hqp => ?_)
    (pairwise_sort ((h.map components).nodup_iff.2 hnodup)) hbs ((perm_sort as).trans h)
  rw [before_components_iff] at hpq hqp
  exact absurd hqp hpq.asymm

theorem sort_eq_of_perm (hnodup : (as.map components).Nodup) (h : as.Perm bs) :
    sort as = sort bs :=
  sort_eq (h.trans (perm_sort bs).symm) (pairwise_sort ((h.map components).nodup_iff.1 hnodup))

end

end ResourceOrder.Path
