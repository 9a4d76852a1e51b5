import Mathlib.Data.List.Nodup
import Mathlib.Data.List.Perm.Basic

/-!
# What stands in front of what

* `Precedes l a b`   `a` stands in front of `b` in the list `l`;
* `KeepsOrder p l m` of the elements with property `p`, those that stand in front of others in `l`
                     do so in `m` too.

Two lists with the same elements are the same as soon as one keeps the order of the other
(`eq_of_keepsOrder`), and a part that two lists have in common stands in the same order in both
(`keepsOrder_of_sublist`).
-/

namespace ResourceOrder

section
variable {α β : Type} {l m : List α}

/-- somewhere in the list, `a` is followed by `b`, not necessarily at once -/
def Precedes (l : List α) (a b : α) : Prop := [a, b].Sublist l

def KeepsOrder (p : α → Prop) (l m : List α) : Prop :=
  ∀ a b, p a → p b → Precedes l a b → Precedes m a b

/-! ## one list -/

section
variable {a b : α}

theorem Precedes.mem_left (h : Precedes l a b) : a ∈ l := h.subset (by simp)

theorem Precedes.mem_right (h : Precedes l a b) : b ∈ l := h.subset (by simp)

theorem Precedes.map (h : Precedes l a b) (f : α → β) : Precedes (l.map f) (f a) (f b) :=
  List.Sublist.map f h

/-- in a list without repetitions no two elements stand in front of one another -/
theorem Precedes.asymm (hl : l.Nodup) (hab : Precedes l a b) : ¬ Precedes l b a := by
  induction l with
  | nil => exact fun _ => absurd hab.mem_left (by simp)
  | cons c l ih =>
    obtain ⟨hc, hl⟩ := List.nodup_cons.1 hl
    intro hba
    cases hab with
    | cons _ hab' =>
      have hca : c ≠ a := fun he => hc (he ▸ Precedes.mem_left hab')
      have hcb : c ≠ b := fun he => hc (he ▸ Precedes.mem_right hab')
      cases hba with
      | cons _ hba' => exact ih hl hab' hba'
      | cons_cons _ _ => exact hcb rfl
    | cons_cons _ hb =>
      have hb : b ∈ l := List.singleton_sublist.1 hb
      cases hba with
      | cons _ hba' => exact hc (Precedes.mem_right hba')
      | cons_cons _ _ => exact hc hb

theorem precedes_of_idxOf_lt [DecidableEq α] (hb : b ∈ l) (h : l.idxOf a < l.idxOf b) :
    Precedes l a b := by
  induction l with
  | nil => exact absurd hb (by simp)
  | cons c l ih =>
    by_cases hca : c = a
    · subst hca
      have hne : c ≠ b := by
        rintro rfl
        exact Nat.lt_irrefl _ h
      have hb : b ∈ l := (List.mem_cons.1 hb).resolve_left hne.symm
      exact (List.singleton_sublist.2 hb).cons_cons c
    · have hcb : c ≠ b := by
        rintro rfl
        rw [List.idxOf_cons_self] at h
        omega
      rw [List.idxOf_cons_ne _ hca, List.idxOf_cons_ne _ hcb] at h
      have hb : b ∈ l := (List.mem_cons.1 hb).resolve_left (Ne.symm hcb)
      exact List.Sublist.cons c (ih hb (by omega))

end

/-! ## two lists -/

section
variable {p : α → Prop}

/-- parts of two lists that have the same elements are the same part if the order is kept -/
theorem eq_of_keepsOrder (h : KeepsOrder p l m) (hm : m.Nodup) {l' m' : List α}
    (hl' : l'.Sublist l) (hm' : m'.Sublist m) (hperm : l'.Perm m') (hp : ∀ a ∈ l', p a) :
    l' = m' := by
  have hordered : l'.Pairwise (Precedes m) := by
    rw [List.pairwise_iff_forall_sublist]
    intro a b hab
    have ha := hp a (Precedes.mem_left hab)
    have hb := hp b (Precedes.mem_right hab)
    exact h a b ha hb (hab.trans hl')
  have hordered' : m'.Pairwise (Precedes m) := by
    rw [List.pairwise_iff_forall_sublist]
    intro a b hab
    exact hab.trans hm'
  refine hperm.eq_of_pairwise (fun a b _ _ hab hba => ?_) hordered hordered'
  exact absurd hba (hab.asymm hm)

/-- a part of a list without repetitions is what is left without the other elements -/
theorem filter_mem_of_sublist [DecidableEq α] (hl : l.Nodup) {part : List α}
    (h : part.Sublist l) : l.filter (· ∈ part) = part := by
  induction h with
  | slnil => rfl
  | @cons part l a h ih =>
    obtain ⟨ha, hl⟩ := List.nodup_cons.1 hl
    have hout : a ∉ part := fun hm => ha (h.subset hm)
    rw [List.filter_cons_of_neg (by simpa using hout), ih hl]
  | @cons_cons part l a h ih =>
    obtain ⟨ha, hl⟩ := List.nodup_cons.1 hl
    have hrest : l.filter (· ∈ a :: part) = l.filter (· ∈ part) := by
      refine List.filter_congr fun b hb => ?_
      have hba : b ≠ a := fun he => ha (he ▸ hb)
      simp [hba]
    rw [List.filter_cons_of_pos (by simp), hrest, ih hl]

/-- what two lists have in common stands in the order of both -/
theorem keepsOrder_of_sublist [DecidableEq α] (hl : l.Nodup) {part : List α}
    (hpart : part.Sublist l) (hmem : ∀ a ∈ l, p a → a ∈ part) (hm : part.Sublist m) :
    KeepsOrder p l m := by
  intro a b ha hb hab
  have ha' := hmem a hab.mem_left ha
  have hb' := hmem b hab.mem_right hb
  have hboth : [a, b].filter (· ∈ part) = [a, b] := by simp [ha', hb']
  have hsub : ([a, b].filter (· ∈ part)).Sublist (l.filter (· ∈ part)) := List.Sublist.filter _ hab
  rw [hboth, filter_mem_of_sublist hl hpart] at hsub
  exact hsub.trans hm

end

end

end ResourceOrder
