import Mathlib.Data.List.Dedup
import Mathlib.Data.List.Induction
import ResourceOrder.Resource.Basic

/-!
# First occurrences

* `FirstOccurrences as bs`  `bs` has the elements of `as`, each once and in the order in which
                            they come first in `as`.

A list has its first occurrences in one way only, and `distinct` gives them (`distinct_eq_iff`).
What is behind a list adds to its first occurrences only what is new (`distinct_append`).
-/

namespace ResourceOrder

section
variable {α : Type} [DecidableEq α]

structure FirstOccurrences (as bs : List α) : Prop where
  mem : ∀ a, a ∈ bs ↔ a ∈ as
  ordered : bs.Pairwise fun a b => as.idxOf a < as.idxOf b

theorem FirstOccurrences.nodup {as bs : List α} (h : FirstOccurrences as bs) : bs.Nodup :=
  h.ordered.imp fun hab he => by rw [he] at hab; exact Nat.lt_irrefl _ hab

theorem firstOccurrences_distinct (as : List α) : FirstOccurrences as (distinct as) where
  mem _ := mem_distinct
  ordered := by
    induction as with
    | nil => exact List.Pairwise.nil
    | cons a as ih =>
      rw [distinct_cons, List.pairwise_cons]
      constructor
      · intro b hb
        have hne : b ≠ a := of_decide_eq_true (List.mem_filter.1 hb).2
        rw [List.idxOf_cons_self, List.idxOf_cons_ne _ hne.symm]
        exact Nat.succ_pos _
      · refine (ih.filter _).imp_of_mem fun {b c} hb hc hbc => ?_
        have hb' : b ≠ a := of_decide_eq_true (List.mem_filter.1 hb).2
        have hc' : c ≠ a := of_decide_eq_true (List.mem_filter.1 hc).2
        rw [List.idxOf_cons_ne _ hb'.symm, List.idxOf_cons_ne _ hc'.symm]
        exact Nat.succ_lt_succ hbc

theorem distinct_eq_iff {as bs : List α} : distinct as = bs ↔ FirstOccurrences as bs := by
  have hself := firstOccurrences_distinct as
  constructor
  · rintro rfl
    exact hself
  · intro h
    refine List.Perm.eq_of_pairwise (fun _ _ _ _ hab hba => absurd hba (Nat.lt_asymm hab))
      hself.ordered h.ordered ?_
    exact (List.perm_ext_iff_of_nodup hself.nodup h.nodup).2 fun a =>
      (hself.mem a).trans (h.mem a).symm

theorem distinct_append (as bs : List α) :
    distinct (as ++ bs) = distinct as ++ (distinct bs).filter (· ∉ as) := by
  induction as with
  | nil => exact (List.filter_eq_self.2 (by simp)).symm
  | cons a as ih =>
    rw [List.cons_append, distinct_cons, ih, List.filter_append, List.filter_filter, distinct_cons,
      List.cons_append]
    congr 2
    refine List.filter_congr fun b _ => ?_
    simp

theorem distinct_distinct_append (as bs : List α) :
    distinct (distinct as ++ bs) = distinct (as ++ bs) := by
  rw [distinct_append, distinct_append, distinct_of_nodup (nodup_distinct as)]
  congr 1
  refine List.filter_congr fun b _ => ?_
  simp

theorem distinct_append_of_subset {as bs : List α} (h : ∀ b ∈ bs, b ∈ as) :
    distinct (as ++ bs) = distinct as := by
  have hnil : (distinct bs).filter (· ∉ as) = [] := by
    refine List.filter_eq_nil_iff.2 fun b hb => ?_
    simp [h b (mem_distinct.1 hb)]
  rw [distinct_append, hnil, List.append_nil]

theorem distinct_concat (as : List α) (a : α) :
    distinct (as ++ [a]) = if a ∈ as then distinct as else distinct as ++ [a] := by
  split
  next h => exact distinct_append_of_subset fun b hb => List.mem_singleton.1 hb ▸ h
  next h =>
    rw [distinct_append]
    simp [distinct, h]

/-- seen from the end, first occurrences are last ones -/
theorem reverse_distinct (as : List α) : (distinct as).reverse = as.reverse.dedup := by
  induction as using List.reverseRecOn with
  | nil => rfl
  | append_singleton as a ih =>
    rw [distinct_concat, List.reverse_append, List.reverse_singleton, List.singleton_append,
      List.dedup_cons]
    by_cases h : a ∈ as
    · rw [if_pos h, if_pos (List.mem_reverse.2 h), ih]
    · rw [if_neg h, if_neg (fun hr => h (List.mem_reverse.1 hr)), List.reverse_append, ih]
      rfl

theorem distinct_filter (p : α → Bool) (as : List α) :
    (distinct as).filter p = distinct (as.filter p) := by
  induction as with
  | nil => rfl
  | cons a as ih =>
    rw [distinct_cons, List.filter_cons, List.filter_cons, List.filter_filter]
    by_cases h : p a
    · rw [if_pos h, if_pos h, distinct_cons, ← ih, List.filter_filter]
      simp only [Bool.and_comm]
    · have hswap : (distinct as).filter (fun b => p b && decide (b ≠ a)) =
          (distinct as).filter p := by
        refine List.filter_congr fun b _ => ?_
        by_cases hba : b = a
        · simp [hba, h]
        · simp [hba]
      rw [if_neg h, if_neg h, hswap, ih]

/-- a map that keeps the elements of a list apart keeps their first occurrences -/
theorem distinct_map {β : Type} [DecidableEq β] {f : α → β} {as : List α}
    (hf : ∀ a ∈ as, ∀ b ∈ as, f a = f b → a = b) : distinct (as.map f) = (distinct as).map f := by
  induction as with
  | nil => rfl
  | cons a as ih =>
    have hrest : ∀ x ∈ as, ∀ y ∈ as, f x = f y → x = y := fun x hx y hy =>
      hf x (List.mem_cons_of_mem _ hx) y (List.mem_cons_of_mem _ hy)
    rw [List.map_cons, distinct_cons, distinct_cons, ih hrest, List.map_cons, List.filter_map]
    congr 2
    refine List.filter_congr fun b hb => decide_eq_decide.2 (not_congr ⟨?_, congrArg f⟩)
    exact hf b (List.mem_cons_of_mem _ (mem_distinct.1 hb)) a (List.mem_cons_self ..)

end

end ResourceOrder
