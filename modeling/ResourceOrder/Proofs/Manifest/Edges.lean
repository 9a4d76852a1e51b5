import ResourceOrder.Proofs.Digits
import ResourceOrder.Proofs.Manifest.Extents
import ResourceOrder.Proofs.Manifest.Literals

/-!
# Texts that white space neither begins nor ends

* `Trimmed`        the text neither begins nor ends with white space;
* `isNumberPart`   the characters that numbers are written with.

A string ends with a quote or a bracket (`Piece.scanQuoted_whole`, `Piece.scanBracket_whole`), and
every other token has no white space in it at all, so tokens are trimmed (`Spells.trimmed`).  **So
is a text that begins and ends with a token** (`Framed.trimmed`).
-/

namespace ResourceOrder

/-! ## trimmed texts -/

/-- the text neither begins nor ends with white space -/
def Trimmed (text : List Char) : Prop :=
  (∀ c ∈ text.head?, isBlank c = false) ∧ ∀ c ∈ text.getLast?, isBlank c = false

theorem dropWhile_isBlank_eq_self {text : List Char}
    (h : ∀ c ∈ text.head?, isBlank c = false) : text.dropWhile isBlank = text := by
  cases text with
  | nil => rfl
  | cons c cs => exact List.dropWhile_cons_of_neg (by rw [h c rfl]; exact Bool.false_ne_true)

theorem Trimmed.trimText_eq {text : List Char} (h : Trimmed text) : trimText text = text := by
  have hlast : ∀ c ∈ text.reverse.head?, isBlank c = false := by
    rw [List.head?_reverse]
    exact h.2
  rw [trimText, dropWhile_isBlank_eq_self h.1, dropWhile_isBlank_eq_self hlast,
    List.reverse_reverse]

theorem trimmed_of_forall {text : List Char} (h : ∀ c ∈ text, isBlank c = false) :
    Trimmed text :=
  ⟨fun c hc => h c (List.mem_of_head? hc), fun c hc => h c (List.mem_of_getLast? hc)⟩

namespace Manifest

/-! ## numbers -/

/-- the characters that numbers are written with: digits and letters, the point and the signs -/
def isNumberPart (c : Char) : Bool := isNamePart c || c == '.' || c == '+' || c == '-'

theorem isBlank_of_isNamePart {c : Char} (h : isNamePart c) : isBlank c = false := by
  rw [isNamePart, Bool.or_eq_true, beq_iff_eq, isAlphanum_iff] at h
  have hrange : 97 ≤ c.toNat ∧ c.toNat ≤ 122 ∨ 65 ≤ c.toNat ∧ c.toNat ≤ 90 ∨
      48 ≤ c.toNat ∧ c.toNat ≤ 57 ∨ c.toNat = 95 := by
    rcases h with (⟨hle, hge⟩ | ⟨hle, hge⟩ | ⟨hle, hge⟩) | rfl
    · exact .inl ⟨toNat_le_of_le hle, toNat_le_of_le hge⟩
    · exact .inr (.inl ⟨toNat_le_of_le hle, toNat_le_of_le hge⟩)
    · exact .inr (.inr (.inl ⟨toNat_le_of_le hle, toNat_le_of_le hge⟩))
    · exact .inr (.inr (.inr rfl))
  simp only [isBlank, Bool.or_eq_false_iff, Bool.and_eq_false_iff, decide_eq_false_iff_not,
    beq_eq_false_iff_ne]
  omega

theorem isBlank_of_isNumberPart {c : Char} (h : isNumberPart c) : isBlank c = false := by
  simp only [isNumberPart, Bool.or_eq_true, beq_iff_eq] at h
  rcases h with ((h | rfl) | rfl) | rfl
  · exact isBlank_of_isNamePart h
  · rfl
  · rfl
  · rfl

theorem isNumberPart_of_isDigit {c : Char} (h : c.isDigit) : isNumberPart c := by
  simp [isNumberPart, isNamePart, Char.isAlphanum, h]

theorem isNumberPart_of_isHexDigit {c : Char} (h : isHexDigit c) : isNumberPart c := by
  obtain ⟨d, hd⟩ := Option.isSome_iff_exists.1 h
  have halnum := (hexValue?_eq_some_iff.1 hd).isAlphanum (Nat.le_refl _)
  simp [isNumberPart, isNamePart, halnum]

section
variable (text : List Char)

theorem isNumberPart_digits {c : Char} (h : c ∈ text.take (digitsLength text)) :
    isNumberPart c := by
  rw [digitsLength, take_takeWhile_length] at h
  exact isNumberPart_of_isDigit (List.mem_takeWhile_imp h)

theorem isNumberPart_fraction {c : Char} (h : c ∈ text.take (fractionLength text)) :
    isNumberPart c := by
  cases text with
  | nil => cases h
  | cons d cs =>
    by_cases hd : d = '.'
    · subst hd
      have hlen : fractionLength ('.' :: cs) = digitsLength cs + 1 := Nat.add_comm ..
      rw [hlen, List.take_succ_cons] at h
      rcases List.mem_cons.1 h with rfl | h
      · rfl
      · exact isNumberPart_digits cs h
    · rw [fractionLength_of_ne hd] at h
      cases h

theorem isNumberPart_exponent {c : Char} (h : c ∈ text.take (exponentLength text)) :
    isNumberPart c := by
  cases text with
  | nil => cases h
  | cons e cs =>
    unfold exponentLength at h
    dsimp only at h
    by_cases hsign : cs.head? = some '+' ∨ cs.head? = some '-'
    · rw [if_pos hsign] at h
      split at h
      · next hexponent =>
        obtain ⟨d, ds, rfl, hd⟩ : ∃ d ds, cs = d :: ds ∧ isNumberPart d := by
          rcases hsign with hsign | hsign
          · obtain ⟨ds, rfl⟩ := List.head?_eq_some_iff.1 hsign
            exact ⟨_, ds, rfl, rfl⟩
          · obtain ⟨ds, rfl⟩ := List.head?_eq_some_iff.1 hsign
            exact ⟨_, ds, rfl, rfl⟩
        rw [Nat.add_comm (1 + 1), List.take_succ_cons, List.take_succ_cons] at h
        rcases List.mem_cons.1 h with rfl | h
        · rcases hexponent.1 with rfl | rfl <;> rfl
        rcases List.mem_cons.1 h with rfl | h
        · exact hd
        · exact isNumberPart_digits ds h
      · cases h
    · rw [if_neg hsign, List.drop_zero] at h
      split at h
      · next hexponent =>
        rw [Nat.add_comm (1 + 0), List.take_succ_cons] at h
        rcases List.mem_cons.1 h with rfl | h
        · rcases hexponent.1 with rfl | rfl <;> rfl
        · exact isNumberPart_digits cs h
      · cases h

theorem isNumberPart_hex {c : Char} (h : c ∈ text.take (hexLength text)) : isNumberPart c := by
  unfold hexLength at h
  split at h
  · next x cs =>
    dsimp only at h
    split at h
    · next hhex =>
      rw [Nat.add_comm 2, List.take_succ_cons, List.take_succ_cons, take_takeWhile_length] at h
      rcases List.mem_cons.1 h with rfl | h
      · rfl
      rcases List.mem_cons.1 h with rfl | h
      · rcases hhex.1 with rfl | rfl <;> rfl
      · exact isNumberPart_of_isHexDigit (List.mem_takeWhile_imp h)
    · cases h
  · cases h

theorem isNumberPart_decimal {c : Char} (h : c ∈ text.take (decimalLength text)) :
    isNumberPart c := by
  unfold decimalLength at h
  dsimp only at h
  rw [Nat.add_assoc, List.take_add, List.take_add, List.drop_drop] at h
  rcases List.mem_append.1 h with h | h
  · exact isNumberPart_digits _ h
  rcases List.mem_append.1 h with h | h
  · exact isNumberPart_fraction _ h
  · exact isNumberPart_exponent _ h

theorem isNumberPart_number {c : Char} (h : c ∈ text.take (numberLength text)) :
    isNumberPart c := by
  unfold numberLength at h
  split at h
  · exact isNumberPart_hex text h
  · exact isNumberPart_decimal text h

end

/-! ## strings -/

namespace Piece

section
variable {t : Token} {c : Char} {cs : List Char}

theorem scanQuoted_whole (hc : isQuote c) (h : scanQuoted c cs = (.token t, (c :: cs).length)) :
    cs.getLast? = some c := by
  obtain ⟨body, rest, rfl, hbody, hstops⟩ := exists_run c cs
  by_cases hclosed : rest.head? = some c
  · obtain ⟨after, rfl⟩ := List.head?_eq_some_iff.1 hclosed
    rw [scanQuoted_closed hc hbody] at h
    have hlen := (Prod.mk.inj h).2
    rw [List.length_cons, List.length_append, List.length_cons] at hlen
    obtain rfl : after = [] := List.length_eq_zero_iff.1 (by omega)
    exact List.getLast?_concat
  · rw [scanQuoted_open hc hbody hstops hclosed] at h
    cases h

theorem scanBracket_whole (h : scanBracket ('[' :: cs) = (.token t, ('[' :: cs).length)) :
    cs = [] ∨ ('[' :: cs).getLast? = some ']' := by
  cases hl : level? ('[' :: cs) with
  | none =>
    rcases scanBracket_cases h with ⟨value, hvalue⟩ | ⟨-, hlen⟩ | ⟨f, hf⟩
    · unfold scanBracket at h
      rw [hl] at h
      dsimp only at h
      split at h
      · cases hvalue
        cases h
      · cases h
    · exact .inl (List.length_eq_zero_iff.1 (Nat.succ.inj hlen))
    · cases hf
  | some level =>
    obtain ⟨body, hbody⟩ := level?_eq_some_iff.1 hl
    rw [← hbody, scanBracket_opener] at h
    cases hi : indexOf? (closer level) body with
    | none =>
      rw [hi] at h
      cases h
    | some n =>
      rw [hi] at h
      obtain ⟨front, rest, rfl, rfl⟩ := exists_of_indexOf? hi
      have hlen := (Prod.mk.inj h).2
      simp only [List.length_append, opener_length, closer_length] at hlen
      obtain rfl : rest = [] := List.length_eq_zero_iff.1 (by omega)
      have hends : opener level ++ (front ++ (closer level ++ [])) =
          (opener level ++ (front ++ (']' :: List.replicate level '='))) ++ [']'] := by
        simp only [closer, List.append_nil, List.append_assoc, List.cons_append]
      rw [← hbody, hends]
      exact .inr List.getLast?_concat

end

end Piece

/-! ## tokens -/

theorem isBlank_of_mem_mark {m : Mark} : ∀ c ∈ m.text.toList, isBlank c = false := by
  have hall : m.text.toList.all (fun c => !isBlank c) := by
    cases m <;> decide
  intro c hc
  simpa using List.all_eq_true.1 hall c hc

/-- white space is neither at the beginning nor at the end of a token -/
theorem Spells.trimmed {t : Token} {word : List Char} (h : Spells t word) : Trimmed word := by
  obtain ⟨c, cs, rfl, hs⟩ := h
  have hfound := Piece.scan_found c cs
  generalize Piece.scan c cs = found at hs hfound
  cases hfound with
  | gap _ => cases hs
  | word _ =>
    have hlen := (Prod.mk.inj hs).2
    refine trimmed_of_forall fun d hd => ?_
    rw [← List.take_length (l := c :: cs), ← hlen, take_takeWhile_length] at hd
    exact isBlank_of_isNamePart (List.mem_takeWhile_imp hd)
  | number _ =>
    have hlen := (Prod.mk.inj hs).2
    refine trimmed_of_forall fun d hd => ?_
    rw [← List.take_length (l := c :: cs), ← hlen] at hd
    exact isBlank_of_isNumberPart (isNumberPart_number _ hd)
  | quoted hc =>
    have hblank : isBlank c = false := by
      rcases eq_of_isQuote hc with rfl | rfl <;> rfl
    have hlast := Piece.scanQuoted_whole hc hs
    refine ⟨fun d hd => ?_, fun d hd => ?_⟩
    · cases hd
      exact hblank
    · rw [List.getLast?_cons, hlast] at hd
      cases hd
      exact hblank
  | comment _ _ => exact absurd (congrArg Prod.fst hs) (Piece.scanComment_ne_token _ t)
  | bracket hc =>
    subst hc
    rcases Piece.scanBracket_whole hs with rfl | hlast
    · exact trimmed_of_forall (List.forall_mem_singleton.2 rfl)
    · refine ⟨fun d hd => ?_, fun d hd => ?_⟩
      · cases hd
        rfl
      · rw [hlast] at hd
        cases hd
        rfl
  | @mark m _ _ _ hm =>
    have hlen := (Prod.mk.inj hs).2
    have hword := Mark.text_of_longest? hm
    rw [hlen, List.take_length] at hword
    rw [← hword]
    exact trimmed_of_forall isBlank_of_mem_mark
  | nothing _ _ _ _ _ _ => cases hs

/-- white space is neither at the beginning nor at the end of a text that tokens begin and end -/
theorem Framed.trimmed {text : List Char} (h : Framed text) : Trimmed text := by
  obtain ⟨t, u, hhead, hlast⟩ := h
  obtain ⟨s, hhead, hs⟩ := Option.map_eq_some_iff.1 hhead
  obtain ⟨s', hlast, hs'⟩ := Option.map_eq_some_iff.1 hlast
  have hfirst := (spells_of_mem_pieces (List.mem_of_head? hhead) hs).trimmed.1
  have hend := (spells_of_mem_pieces (List.mem_of_getLast? hlast) hs').trimmed.2
  have hne := ne_nil_of_mem_pieces (List.mem_of_head? hhead)
  have hne' := ne_nil_of_mem_pieces (List.mem_of_getLast? hlast)
  obtain ⟨rest, hrest⟩ := List.head?_eq_some_iff.1 hhead
  obtain ⟨front, hfront⟩ := List.getLast?_eq_some_iff.1 hlast
  constructor
  · have htext := text_pieces text
    rw [hrest, List.flatMap_cons] at htext
    rw [← htext, List.head?_append_of_ne_nil _ hne]
    exact hfirst
  · have htext := text_pieces text
    rw [hfront, List.flatMap_append, List.flatMap_singleton] at htext
    rw [← htext, List.getLast?_append_of_ne_nil _ hne']
    exact hend

end Manifest

end ResourceOrder
