import Mathlib.Data.List.Forall2

/-!
# Computations that can fail

When a computation in steps succeeds (`bind_eq_ok_iff`), and when one for each element of a list
does (`mapM_eq_ok_iff`).  One that fails fails at a step (`bind_eq_error_iff`,
`exists_of_mapM_eq_error`, `foldlM_eq_error_iff`), and what is done for each element of a list
fails at the first element that it fails for (`exists_first_error`, `mapM_eq_error`).

A computation that can fail, on top of one that does nothing else, is one that can fail
(`exceptT_bind`, `exceptT_mapM`).
-/

namespace ResourceOrder

section
variable {ε α β : Type}

theorem error_ne_ok {e : ε} {a : α} : (Except.error e : Except ε α) ≠ .ok a :=
  fun h => nomatch h

theorem bind_eq_ok_iff {x : Except ε α} {f : α → Except ε β} {b : β} :
    (x >>= f) = .ok b ↔ ∃ a, x = .ok a ∧ f a = .ok b := by
  cases x with
  | error e => exact iff_of_false error_ne_ok fun ⟨_, h, _⟩ => error_ne_ok h
  | ok a => exact ⟨fun h => ⟨a, rfl, h⟩, fun ⟨_, h, h'⟩ => by cases h; exact h'⟩

theorem bind_pair_eq_ok_iff {γ : Type} {x : Except ε (α × γ)} {f : α × γ → Except ε β} {b : β} :
    (x >>= f) = .ok b ↔ ∃ a c, x = .ok (a, c) ∧ f (a, c) = .ok b := by
  rw [bind_eq_ok_iff]
  exact Prod.exists

theorem map_eq_ok_iff {x : Except ε α} {f : α → β} {b : β} :
    x.map f = .ok b ↔ ∃ a, x = .ok a ∧ f a = b := by
  cases x with
  | error e => exact iff_of_false error_ne_ok fun ⟨_, h, _⟩ => error_ne_ok h
  | ok a =>
    refine ⟨fun h => ⟨a, rfl, ?_⟩, ?_⟩
    · cases h
      rfl
    · intro h
      obtain ⟨_, h, rfl⟩ := h
      cases h
      rfl

theorem bind_eq_error_iff {x : Except ε α} {f : α → Except ε β} {e : ε} :
    (x >>= f) = .error e ↔ x = .error e ∨ ∃ a, x = .ok a ∧ f a = .error e := by
  cases x with
  | error e' =>
    refine ⟨fun h => .inl ?_, fun h => ?_⟩
    · cases h
      rfl
    · rcases h with h | ⟨_, h, _⟩
      · cases h
        rfl
      · cases h
  | ok a =>
    refine ⟨fun h => .inr ⟨a, rfl, h⟩, fun h => ?_⟩
    rcases h with h | ⟨_, h, h'⟩
    · cases h
    · cases h
      exact h'

theorem map_eq_error_iff {x : Except ε α} {f : α → β} {e : ε} :
    x.map f = .error e ↔ x = .error e := by
  cases x with
  | error e' => exact ⟨fun h => by cases h; rfl, fun h => by cases h; rfl⟩
  | ok a => exact ⟨fun h => (nomatch h), fun h => (nomatch h)⟩

theorem toOption_map_eq_some_iff {x : Except ε α} {f : α → β} {b : β} :
    x.toOption.map f = some b ↔ ∃ a, x = .ok a ∧ f a = b := by
  cases x with
  | error e => exact iff_of_false nofun fun ⟨_, h, _⟩ => error_ne_ok h
  | ok a =>
    refine ⟨fun h => ⟨a, rfl, Option.some.inj h⟩, fun h => ?_⟩
    obtain ⟨_, h, rfl⟩ := h
    cases h
    rfl

/-- two images of one list are related as soon as those of each element are -/
theorem forall₂_maps_iff {γ : Type} {R : β → γ → Prop} {f : α → β} {g : α → γ} {as : List α} :
    List.Forall₂ R (as.map f) (as.map g) ↔ ∀ a ∈ as, R (f a) (g a) := by
  rw [List.forall₂_map_left_iff, List.forall₂_map_right_iff, List.forall₂_same]

/-- what is on the right has something to which it is related on the left -/
theorem exists_of_mem_forall₂ {R : α → β → Prop} {as : List α} {bs : List β}
    (h : List.Forall₂ R as bs) {b : β} (hb : b ∈ bs) : ∃ a ∈ as, R a b := by
  induction h with
  | nil => cases hb
  | cons hab _ ih =>
    rcases List.mem_cons.1 hb with rfl | hb
    · exact ⟨_, List.mem_cons_self .., hab⟩
    · obtain ⟨a, ha, hab⟩ := ih hb
      exact ⟨a, List.mem_cons_of_mem _ ha, hab⟩

theorem mapM_eq_ok_iff {f : α → Except ε β} {as : List α} {bs : List β} :
    as.mapM f = .ok bs ↔ List.Forall₂ (fun a b => f a = .ok b) as bs := by
  induction as generalizing bs with
  | nil =>
    rw [List.mapM_nil, List.forall₂_nil_left_iff]
    exact ⟨fun h => by cases h; rfl, fun h => by rw [h]; rfl⟩
  | cons a as ih =>
    rw [List.mapM_cons, List.forall₂_cons_left_iff, bind_eq_ok_iff]
    constructor
    · intro h
      obtain ⟨b, hb, h⟩ := h
      obtain ⟨bs', hbs, h⟩ := bind_eq_ok_iff.1 h
      cases h
      exact ⟨b, bs', hb, ih.1 hbs, rfl⟩
    · intro h
      obtain ⟨b, bs', hb, hbs, rfl⟩ := h
      exact ⟨b, hb, bind_eq_ok_iff.2 ⟨bs', ih.2 hbs, rfl⟩⟩

theorem mapM_congr {f g : α → Except ε β} {as : List α}
    (h : ∀ a ∈ as, f a = g a) : as.mapM f = as.mapM g := by
  induction as with
  | nil => rfl
  | cons a as ih =>
    rw [List.mapM_cons, List.mapM_cons, h a (List.mem_cons_self ..),
      ih fun x hx => h x (List.mem_cons_of_mem _ hx)]

theorem exists_mapM_eq_ok {f : α → Except ε β} {as : List α} (h : ∀ a ∈ as, ∃ b, f a = .ok b) :
    ∃ bs, as.mapM f = .ok bs := by
  simp only [mapM_eq_ok_iff]
  induction as with
  | nil => exact ⟨[], .nil⟩
  | cons a as ih =>
    obtain ⟨b, hb⟩ := h a (List.mem_cons_self ..)
    obtain ⟨bs, hbs⟩ := ih fun x hx => h x (List.mem_cons_of_mem _ hx)
    exact ⟨b :: bs, .cons hb hbs⟩

theorem exists_eq_ok_of_mapM {f : α → Except ε β} {as : List α} {bs : List β}
    (h : as.mapM f = .ok bs) {a : α} (ha : a ∈ as) : ∃ b, f a = .ok b := by
  induction mapM_eq_ok_iff.1 h with
  | nil => cases ha
  | cons hb _ ih =>
    rcases List.mem_cons.1 ha with rfl | ha
    · exact ⟨_, hb⟩
    · exact ih (mapM_eq_ok_iff.2 ‹_›) ha

/-- what is in one of the lists that were computed -/
theorem mem_flatten_of_mapM {f : α → Except ε (List β)} {as : List α} {bss : List (List β)}
    (h : as.mapM f = .ok bss) {b : β} :
    b ∈ bss.flatten ↔ ∃ a ∈ as, ∃ bs, f a = .ok bs ∧ b ∈ bs := by
  induction mapM_eq_ok_iff.1 h with
  | nil => simp
  | @cons a bs as bss hbs hrest ih =>
    rw [List.flatten_cons, List.mem_append, ih (mapM_eq_ok_iff.2 hrest)]
    simp [hbs]

theorem exists_of_mapM_eq_error {f : α → Except ε β} {as : List α} {e : ε}
    (h : as.mapM f = .error e) : ∃ a ∈ as, f a = .error e := by
  induction as with
  | nil => cases h
  | cons a as ih =>
    rw [List.mapM_cons] at h
    rcases bind_eq_error_iff.1 h with h | ⟨b, _, h⟩
    · exact ⟨a, List.mem_cons_self .., h⟩
    · rcases bind_eq_error_iff.1 h with h | ⟨bs, _, h⟩
      · obtain ⟨x, hx, h⟩ := ih h
        exact ⟨x, List.mem_cons_of_mem _ hx, h⟩
      · cases h

/-- of the elements for which something fails there is a first one -/
theorem exists_first_error {f : α → Except ε β} {as : List α} {a : α} (ha : a ∈ as) {e : ε}
    (h : f a = .error e) :
    ∃ front x back e', as = front ++ x :: back ∧ (∀ y ∈ front, ∃ b, f y = .ok b) ∧
      f x = .error e' := by
  induction as with
  | nil => exact absurd ha (by simp)
  | cons y as ih =>
    cases hy : f y with
    | error e' => exact ⟨[], y, as, e', rfl, by simp, hy⟩
    | ok b =>
      have hne : a ≠ y := by
        rintro rfl
        rw [hy] at h
        cases h
      have ha := (List.mem_cons.1 ha).resolve_left hne
      obtain ⟨front, x, back, e', rfl, hfront, hx⟩ := ih ha
      refine ⟨y :: front, x, back, e', rfl, fun z hz => ?_, hx⟩
      rcases List.mem_cons.1 hz with rfl | hz
      · exact ⟨b, hy⟩
      · exact hfront z hz

theorem mapM_eq_error {f : α → Except ε β} {front back : List α} {a : α} {e : ε}
    (hfront : ∀ y ∈ front, ∃ b, f y = .ok b) (h : f a = .error e) :
    (front ++ a :: back).mapM f = .error e := by
  obtain ⟨bs, hbs⟩ := exists_mapM_eq_ok hfront
  rw [List.mapM_append, List.mapM_cons, hbs, h]
  rfl

/-- the first place where something fails decides how it fails for the whole list -/
theorem mapM_eq_error_of_first {f : α → Except ε β} {as : List α} {k : Nat} {a : α} {e : ε}
    (ha : as[k]? = some a) (hfront : ∀ l < k, ∀ b, as[l]? = some b → ∃ c, f b = .ok c)
    (h : f a = .error e) : as.mapM f = .error e := by
  obtain ⟨hk, rfl⟩ := List.getElem?_eq_some_iff.1 ha
  have hsplit : as = as.take k ++ as[k] :: as.drop (k + 1) := by
    rw [List.getElem_cons_drop, List.take_append_drop]
  rw [hsplit]
  refine mapM_eq_error (fun b hb => ?_) h
  obtain ⟨l, hl⟩ := List.getElem?_of_mem hb
  have hlt : l < (as.take k).length := (List.getElem?_eq_some_iff.1 hl).1
  rw [List.length_take] at hlt
  rw [List.getElem?_take_of_lt (by omega)] at hl
  exact hfront l (by omega) b hl

/-- a fold that fails has succeeded up to some element and fails there -/
theorem foldlM_eq_error_iff {f : β → α → Except ε β} {as : List α} {b : β} {e : ε} :
    as.foldlM f b = .error e ↔
      ∃ front a back b', as = front ++ a :: back ∧ front.foldlM f b = .ok b' ∧
        f b' a = .error e := by
  induction as generalizing b with
  | nil =>
    refine ⟨fun h => (nomatch h), fun h => ?_⟩
    obtain ⟨front, a, back, _, h, _⟩ := h
    exact absurd h.symm (List.append_ne_nil_of_right_ne_nil front (List.cons_ne_nil a back))
  | cons x as ih =>
    rw [List.foldlM_cons, bind_eq_error_iff]
    constructor
    · intro h
      rcases h with h | ⟨b₁, hx, h⟩
      · exact ⟨[], x, as, b, rfl, rfl, h⟩
      · obtain ⟨front, a, back, b', rfl, hfront, h⟩ := ih.1 h
        refine ⟨x :: front, a, back, b', rfl, ?_, h⟩
        rw [List.foldlM_cons]
        exact bind_eq_ok_iff.2 ⟨b₁, hx, hfront⟩
    · intro h
      obtain ⟨front, a, back, b', hsplit, hfront, h⟩ := h
      cases front with
      | nil =>
        obtain ⟨rfl, rfl⟩ := List.cons_eq_cons.1 hsplit
        cases hfront
        exact .inl h
      | cons y front =>
        obtain ⟨rfl, rfl⟩ := List.cons_eq_cons.1 hsplit
        rw [List.foldlM_cons] at hfront
        obtain ⟨b₁, hx, hfront⟩ := bind_eq_ok_iff.1 hfront
        exact .inr ⟨b₁, hx, ih.2 ⟨front, a, back, b', rfl, hfront, h⟩⟩

/-! ## with nothing underneath -/

theorem exceptT_bind (x : Except ε α) (f : α → Except ε β) :
    bind (m := ExceptT ε Id) x f = x >>= f := by
  cases x <;> rfl

theorem exceptT_mapM (f : α → Except ε β) (as : List α) :
    List.mapM (m := ExceptT ε Id) f as = as.mapM f := by
  induction as with
  | nil => rfl
  | cons a as ih =>
    rw [List.mapM_cons, List.mapM_cons, ih, exceptT_bind]
    congr 1
    funext b
    exact exceptT_bind (as.mapM f) fun bs => .ok (b :: bs)

end

end ResourceOrder
