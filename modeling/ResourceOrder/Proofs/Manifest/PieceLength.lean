import ResourceOrder.Manifest.Piece

/-!
# How long a piece is

What is found at the head of a text lies in the text: the functions that measure numbers, strings,
long brackets and marks are taken one after the other.  **So no piece is longer than the text that
it begins** (`Piece.scan_le`).
-/

namespace ResourceOrder.Manifest

section
variable (text : List Char)

/-! ## numbers -/

theorem digitsLength_le : digitsLength text ≤ text.length :=
  (List.takeWhile_prefix _).length_le

theorem fractionLength_le : fractionLength text ≤ text.length := by
  unfold fractionLength
  split
  · next cs =>
    have := digitsLength_le cs
    rw [List.length_cons]
    omega
  · exact Nat.zero_le _

theorem exponentLength_le : exponentLength text ≤ text.length := by
  cases text with
  | nil => exact Nat.le_refl 0
  | cons e cs =>
    unfold exponentLength
    dsimp only
    generalize (if cs.head? = some '+' ∨ cs.head? = some '-' then 1 else 0) = sign
    have hdigits := digitsLength_le (cs.drop sign)
    rw [List.length_drop] at hdigits
    rw [List.length_cons]
    split
    · next h =>
      have := h.2
      omega
    · exact Nat.zero_le _

theorem hexLength_le : hexLength text ≤ text.length := by
  unfold hexLength
  split
  · next c cs =>
    have := (List.takeWhile_prefix (p := isHexDigit) (l := cs)).length_le
    rw [List.length_cons, List.length_cons]
    dsimp only
    split
    · omega
    · exact Nat.zero_le _
  · exact Nat.zero_le _

theorem decimalLength_le : decimalLength text ≤ text.length := by
  have hwhole := digitsLength_le text
  have hpoint := fractionLength_le (text.drop (digitsLength text))
  have hexponent := exponentLength_le
    (text.drop (digitsLength text + fractionLength (text.drop (digitsLength text))))
  rw [List.length_drop] at hpoint hexponent
  unfold decimalLength
  dsimp only
  omega

theorem numberLength_le : numberLength text ≤ text.length := by
  unfold numberLength
  split
  · exact hexLength_le text
  · exact decimalLength_le text

end

section
variable {text : List Char}

/-! ## strings and long brackets -/

theorem lt_of_head?_drop {n : Nat} {c : Char} (h : (text.drop n).head? = some c) :
    n < text.length := by
  rw [List.head?_drop] at h
  exact (List.getElem?_eq_some_iff.1 h).1

theorem runLength_le (quote : Char) (text : List Char) : runLength quote text ≤ text.length := by
  fun_induction runLength quote text with
  | case1 => exact Nat.le_refl 0
  | case2 c h => exact Nat.zero_le _
  | case3 c h => exact Nat.le_refl 1
  | case4 d cs ih =>
    rw [List.length_cons, List.length_cons]
    omega
  | case5 c d cs hc h => exact Nat.zero_le _
  | case6 c d cs hc h ih =>
    rw [List.length_cons]
    omega

theorem le_of_indexOf? {mark : List Char} {n : Nat} (h : indexOf? mark text = some n) :
    n + mark.length ≤ text.length := by
  induction text generalizing n with
  | nil =>
    rw [indexOf?] at h
    split at h
    · next hm =>
      cases h
      rw [hm]
      exact Nat.le_refl 0
    · cases h
  | cons c cs ih =>
    rw [indexOf?] at h
    split at h
    · next hp =>
      cases h
      rw [Nat.zero_add]
      exact (List.isPrefixOf_iff_prefix.1 hp).length_le
    · obtain ⟨m, hm, rfl⟩ := Option.map_eq_some_iff.1 h
      have hle := ih hm
      rw [List.length_cons]
      omega

theorem closer_length (level : Nat) : (closer level).length = level + 2 := by
  simp [closer]

theorem le_of_level? {level : Nat} (h : level? text = some level) : level + 2 ≤ text.length := by
  unfold level? at h
  split at h
  · next cs =>
    dsimp only at h
    split at h
    · next hhead =>
      cases h
      have hlt := lt_of_head?_drop hhead
      rw [List.length_cons]
      omega
    · cases h
  · cases h

/-- a long bracket that is closed lies in the text with both its ends -/
theorem longBracket_le {level n : Nat} (hl : level? text = some level)
    (hi : indexOf? (closer level) (text.drop (level + 2)) = some n) :
    level + 2 + n + (level + 2) ≤ text.length := by
  have hlevel := le_of_level? hl
  have hle := le_of_indexOf? hi
  rw [List.length_drop, closer_length] at hle
  omega

theorem Mark.longest?_le {m : Mark} (h : Mark.longest? text = some m) :
    m.text.length ≤ text.length := by
  have hprefix : m.text.toList.isPrefixOf text :=
    List.find?_some (p := fun m : Mark => m.text.toList.isPrefixOf text) h
  rw [← String.length_toList]
  exact (List.isPrefixOf_iff_prefix.1 hprefix).length_le

/-! ## pieces -/

namespace Piece

theorem scanComment_le (text : List Char) : (scanComment text).2 ≤ text.length + 2 := by
  unfold scanComment
  split
  · next level hl =>
    split
    · next n hi =>
      have hle := longBracket_le hl hi
      dsimp only
      omega
    · exact Nat.le_add_left ..
  · have hle := (List.takeWhile_prefix (p := fun c => c != '\n') (l := text)).length_le
    dsimp only
    omega

theorem scanBracket_le (hc : text ≠ []) : (scanBracket text).2 ≤ text.length := by
  have hpos := List.length_pos_iff.2 hc
  unfold scanBracket
  split
  · next level hl =>
    dsimp only
    split
    · next n hi => exact longBracket_le hl hi
    · exact le_of_level? hl
  · have hle := (List.takeWhile_prefix (p := fun c => c == '=') (l := text.tail)).length_le
    rw [List.length_tail] at hle
    dsimp only
    split
    · exact hpos
    · dsimp only
      omega

theorem scanQuoted_le (quote : Char) (text : List Char) :
    (scanQuoted quote text).2 ≤ text.length + 1 := by
  have hrun := runLength_le quote text
  unfold scanQuoted
  dsimp only
  split
  · next hquote =>
    have hlt := lt_of_head?_drop hquote
    split <;> dsimp only <;> omega
  · split <;> dsimp only <;> omega

/-- **No piece is longer than the text that it begins.** -/
theorem scan_le (c : Char) (cs : List Char) : (scan c cs).2 ≤ (c :: cs).length := by
  unfold scan
  dsimp only
  split
  · exact (List.takeWhile_prefix isGap).length_le
  split
  · exact (List.takeWhile_prefix isNamePart).length_le
  split
  · exact numberLength_le (c :: cs)
  split
  · exact scanQuoted_le c cs
  split
  · next hcomment =>
    obtain ⟨ds, rfl⟩ := List.head?_eq_some_iff.1 hcomment.2
    exact scanComment_le ds
  split
  · exact scanBracket_le (List.cons_ne_nil c cs)
  split
  · next hm => exact Mark.longest?_le hm
  · exact Nat.le_add_left ..

end Piece

end

end ResourceOrder.Manifest
