/-!
# Resources

A resource has a name, the names that must be loaded before it, and the name under which others
can require it.

* `Resource`            these three;
* `Resource.standalone` a resource that requires nothing and provides its own name;
* `distinct`            a list of names with every name only where it stands first.
-/

namespace ResourceOrder

structure Resource where
  name : String
  requires : List String
  provides : String
deriving DecidableEq

/-- a resource that requires nothing and provides its own name -/
def Resource.standalone (name : String) : Resource := ⟨name, [], name⟩

/-- the elements of the list, each only where it stands first -/
def distinct {α : Type} [DecidableEq α] : List α → List α
  | [] => []
  | a :: as => a :: (distinct as).filter (· ≠ a)

section
variable {α : Type} [DecidableEq α]

@[simp] theorem distinct_nil : distinct ([] : List α) = [] := rfl

theorem distinct_cons (a : α) (as : List α) :
    distinct (a :: as) = a :: (distinct as).filter (· ≠ a) := rfl

@[simp] theorem mem_distinct {a : α} {as : List α} : a ∈ distinct as ↔ a ∈ as := by
  induction as with
  | nil => simp
  | cons b bs ih =>
    by_cases h : a = b
    · subst h; simp [distinct_cons]
    · simp [distinct_cons, ih, h]

theorem nodup_distinct (as : List α) : (distinct as).Nodup := by
  induction as with
  | nil => simp
  | cons a as ih =>
    rw [distinct_cons]
    exact List.nodup_cons.2 ⟨by simp, List.Pairwise.filter _ ih⟩

/-- nothing changes in a list without repetitions -/
theorem distinct_of_nodup {as : List α} (h : as.Nodup) : distinct as = as := by
  induction as with
  | nil => rfl
  | cons a as ih =>
    have ha := List.nodup_cons.1 h
    rw [distinct_cons, ih ha.2, List.filter_eq_self.2]
    intro b hb
    exact decide_eq_true fun he => ha.1 (he ▸ hb)

end

end ResourceOrder
