import Mathlib.Data.Nat.Digits.Defs
import Mathlib.Tactic.IntervalCases
import Mathlib.Tactic.Ring
import ResourceOrder.Text.Digit

/-!
# Numbers in digits

* `IsDigit`   the character is the digit with this value, in lower case or in upper case;
* `Writes`    the characters write the number in the given base, the first one counts most.

The readers of digits know these digits and no others (`hexValue?_eq_some_iff`,
`decimalValue?_eq_some_iff`), so **the number that is read is the one that is written**
(`number?_eq_some_iff`), and its character is the one with this number (`character?_eq_some_iff`).
-/

namespace ResourceOrder

/-- the character is the digit with the value `d`, of either case -/
def IsDigit (base : Nat) (c : Char) (d : Nat) : Prop :=
  d < base ∧ (c = Nat.digitChar d ∨ c = (Nat.digitChar d).toUpper)

instance (base : Nat) (c : Char) (d : Nat) : Decidable (IsDigit base c d) :=
  inferInstanceAs (Decidable (_ ∧ _))

/-- the characters are the digits of `n`, maybe with zeros in front -/
def Writes (base : Nat) (digits : List Char) (n : Nat) : Prop :=
  ∃ values, List.Forall₂ (IsDigit base) digits values ∧ Nat.ofDigits base values.reverse = n

/-! ## one digit -/

/-- what holds of the first characters by their numbers holds of each of them -/
theorem forall_ascii {p : Char → Prop} (h : ∀ n < 128, p (Char.ofNat n)) {c : Char}
    (hc : c.toNat < 128) : p c := by
  have hp := h c.toNat hc
  rwa [Char.ofNat_toNat] at hp

theorem toNat_le_of_le {a b : Char} (h : a ≤ b) : a.toNat ≤ b.toNat :=
  UInt32.le_iff_toNat_le.1 (Char.le_def.1 h)

section
variable {c : Char} {d : Nat}

/-- letters and digits are those of ASCII -/
theorem isAlphanum_iff : c.isAlphanum = true ↔
    'a' ≤ c ∧ c ≤ 'z' ∨ 'A' ≤ c ∧ c ≤ 'Z' ∨ '0' ≤ c ∧ c ≤ '9' := by
  have hupper : c.isUpper = true ↔ 'A' ≤ c ∧ c ≤ 'Z' := decide_eq_true_iff
  have hboth : ∀ a b : Char, (decide (a ≤ c) && decide (c ≤ b)) = true ↔ a ≤ c ∧ c ≤ b := by
    intro a b
    rw [Bool.and_eq_true, decide_eq_true_eq, decide_eq_true_eq]
  have hlower : c.isLower = true ↔ 'a' ≤ c ∧ c ≤ 'z' := hboth 'a' 'z'
  have hdigit : c.isDigit = true ↔ '0' ≤ c ∧ c ≤ '9' := hboth '0' '9'
  show ((c.isUpper || c.isLower) || c.isDigit) = true ↔ _
  rw [Bool.or_eq_true, Bool.or_eq_true, hupper, hlower, hdigit, or_comm (a := 'A' ≤ c ∧ c ≤ 'Z'),
    or_assoc]

theorem hexValue?_eq_some_iff : hexValue? c = some d ↔ IsDigit 16 c d := by
  constructor
  · intro h
    have hascii : c.toNat < 128 := by
      unfold hexValue? at h
      split_ifs at h with hdigit hlower hupper
      · exact Nat.lt_of_le_of_lt (toNat_le_of_le hdigit.2) (by decide)
      · exact Nat.lt_of_le_of_lt (toNat_le_of_le hlower.2) (by decide)
      · exact Nat.lt_of_le_of_lt (toNat_le_of_le hupper.2) (by decide)
    have hall : ∀ n < 128, ∀ d ∈ hexValue? (Char.ofNat n), IsDigit 16 (Char.ofNat n) d := by
      decide
    exact forall_ascii (p := fun c => ∀ d ∈ hexValue? c, IsDigit 16 c d) hall hascii d h
  · intro ⟨hd, hc⟩
    interval_cases d <;> rcases hc with rfl | rfl <;> decide

theorem decimalValue?_eq_some_iff : decimalValue? c = some d ↔ IsDigit 10 c d := by
  have hdigit : IsDigit 10 c d ↔ d < 10 ∧ hexValue? c = some d := by
    rw [hexValue?_eq_some_iff]
    constructor
    · intro ⟨hd, hc⟩
      exact ⟨hd, Nat.lt_trans hd (by decide), hc⟩
    · intro ⟨hd, _, hc⟩
      exact ⟨hd, hc⟩
  rw [hdigit]
  unfold decimalValue? hexValue?
  split_ifs with hdecimal hlower hupper
  · have hle := toNat_le_of_le hdecimal.2
    rw [Option.some.injEq, iff_and_self]
    rintro rfl
    exact Nat.lt_of_le_of_lt (Nat.sub_le_sub_right hle _) (by decide)
  · rw [Option.some.injEq]
    exact iff_of_false nofun fun ⟨hd, he⟩ => by omega
  · rw [Option.some.injEq]
    exact iff_of_false nofun fun ⟨hd, he⟩ => by omega
  · exact iff_of_false nofun fun ⟨_, he⟩ => nomatch he

theorem isDigit_iff : c.isDigit ↔ ∃ d, IsDigit 10 c d := by
  have hsome : (∃ d, decimalValue? c = some d) ↔ '0' ≤ c ∧ c ≤ '9' := by
    unfold decimalValue?
    split
    · next h => exact iff_of_true ⟨_, rfl⟩ h
    · next h => exact iff_of_false (by simp) h
  simp only [← decimalValue?_eq_some_iff]
  rw [hsome, Char.isDigit, Bool.and_eq_true, decide_eq_true_eq, decide_eq_true_eq]
  exact Iff.rfl

/-- a digit is a letter or a digit, and so none of the marks -/
theorem IsDigit.isAlphanum {base : Nat} (h : IsDigit base c d) (hbase : base ≤ 16) :
    c.isAlphanum := by
  obtain ⟨hd, hc⟩ := h
  have hlt : d < 16 := Nat.lt_of_lt_of_le hd hbase
  clear hd
  interval_cases d <;> rcases hc with rfl | rfl <;> decide

/-! ## numbers -/

section
variable {base : Nat} {digit? : Char → Option Nat}
  (hdigit : ∀ c d, digit? c = some d ↔ IsDigit base c d)
include hdigit

theorem number?_eq_some_iff' {value n : Nat} {digits : List Char} :
    number? base digit? value digits = some n ↔
      ∃ values, List.Forall₂ (IsDigit base) digits values ∧
        value * base ^ values.length + Nat.ofDigits base values.reverse = n := by
  induction digits generalizing value with
  | nil =>
    rw [number?, Option.some.injEq]
    constructor
    · rintro rfl
      exact ⟨[], .nil, by simp⟩
    · rintro ⟨_, ⟨⟩, rfl⟩
      simp
  | cons c cs ih =>
    rw [number?, Option.bind_eq_some_iff]
    constructor
    · rintro ⟨d, hd, h⟩
      obtain ⟨values, hvalues, rfl⟩ := ih.1 h
      refine ⟨d :: values, .cons ((hdigit c d).1 hd) hvalues, ?_⟩
      rw [List.reverse_cons, Nat.ofDigits_append, Nat.ofDigits_singleton, List.length_reverse,
        List.length_cons]
      ring
    · rintro ⟨_, hall, rfl⟩
      cases hall with
      | cons hd hvalues =>
        refine ⟨_, (hdigit c _).2 hd, ih.2 ⟨_, hvalues, ?_⟩⟩
        rw [List.reverse_cons, Nat.ofDigits_append, Nat.ofDigits_singleton, List.length_reverse,
          List.length_cons]
        ring

/-- **The number that is read is the one that the digits write.** -/
theorem number?_eq_some_iff {n : Nat} {digits : List Char} :
    number? base digit? 0 digits = some n ↔ Writes base digits n := by
  rw [number?_eq_some_iff' hdigit]
  simp only [Nat.zero_mul, Nat.zero_add]
  rfl

end

end

/-! ## characters by their numbers -/

theorem character?_toNat (c : Char) : character? c.toNat = some c := by
  have hvalid : c.toNat.isValidChar := c.valid
  rw [character?, dif_pos hvalid]
  rfl

theorem character?_eq_some_iff {n : Nat} {c : Char} : character? n = some c ↔ c.toNat = n := by
  constructor
  · intro h
    by_cases hvalid : n.isValidChar
    · rw [character?, dif_pos hvalid] at h
      cases h
      rfl
    · rw [character?, dif_neg hvalid] at h
      cases h
  · rintro rfl
    exact character?_toNat c

end ResourceOrder
