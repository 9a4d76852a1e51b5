import ResourceOrder.Proofs.Manifest.PieceLength

/-!
# What follows a piece

How far a token reaches is seen from the text up to the next gap: whatever stands behind the first
character of a gap, the token in front of it is the same.  A comment may reach on, but not beyond
a newline.

* `Piece.EndsAt`   the piece in front of the character `x` does not change with what follows `x`.

The functions that measure a token are taken one after the other; each has the same value for a
text and for the text with a gap and anything else behind it.  **So has `scan`**
(`Piece.scan_append`).
-/

namespace ResourceOrder.Manifest

/-! ## the characters of a gap -/

section
variable {x : Char}

theorem eq_of_isGap (h : isGap x) :
    x = ' ' ∨ x = '\t' ∨ x = '\r' ∨ x = '\n' ∨ x = '\x0c' ∨ x = '\ufeff' := by
  simpa only [isGap, Bool.or_eq_true, beq_iff_eq, or_assoc] using h

theorem ne_of_isGap (h : isGap x) {c : Char} (hc : isGap c = false) : x ≠ c := by
  rintro rfl
  rw [h] at hc
  cases hc

theorem isNamePart_of_isGap (h : isGap x) : isNamePart x = false := by
  rcases eq_of_isGap h with rfl | rfl | rfl | rfl | rfl | rfl <;> decide

theorem isDigit_of_isGap (h : isGap x) : x.isDigit = false := by
  rcases eq_of_isGap h with rfl | rfl | rfl | rfl | rfl | rfl <;> decide

theorem isHexDigit_of_isGap (h : isGap x) : isHexDigit x = false := by
  rcases eq_of_isGap h with rfl | rfl | rfl | rfl | rfl | rfl <;> decide

end

/-! ## stretches of a text -/

section
variable {α : Type}

theorem takeWhile_append_stop {p : α → Bool} {x : α} (hx : p x = false) (text rest : List α) :
    (text ++ x :: rest).takeWhile p = text.takeWhile p := by
  induction text with
  | nil => exact List.takeWhile_cons_of_neg (by rw [hx]; exact Bool.false_ne_true)
  | cons c cs ih =>
    rw [List.cons_append, List.takeWhile_cons, List.takeWhile_cons, ih]

theorem head?_append_of_ne {x c : α} (hx : x ≠ c) (text rest : List α) :
    (text ++ x :: rest).head? = some c ↔ text.head? = some c := by
  cases text with
  | nil => exact iff_of_false (fun h => hx (Option.some.inj h)) nofun
  | cons d ds => exact Iff.rfl

end

/-! ## texts that begin with another character -/

section
variable {c : Char}

theorem fractionLength_of_ne (hc : c ≠ '.') (cs : List Char) : fractionLength (c :: cs) = 0 := by
  unfold fractionLength
  split
  · next heq => exact absurd (List.head_eq_of_cons_eq heq) hc
  · rfl

theorem hexLength_of_ne (hc : c ≠ '0') (cs : List Char) : hexLength (c :: cs) = 0 := by
  unfold hexLength
  split
  · next heq => exact absurd (List.head_eq_of_cons_eq heq) hc
  · rfl

theorem hexLength_singleton (c : Char) : hexLength [c] = 0 := by
  unfold hexLength
  split
  · next heq => cases heq
  · rfl

theorem level?_of_ne (hc : c ≠ '[') (cs : List Char) : level? (c :: cs) = none := by
  unfold level?
  split
  · next heq => exact absurd (List.head_eq_of_cons_eq heq) hc
  · rfl

end

section
variable {x : Char} (hx : isGap x) (text rest : List Char)
include hx

/-! ## numbers -/

theorem digitsLength_append : digitsLength (text ++ x :: rest) = digitsLength text := by
  rw [digitsLength, takeWhile_append_stop (isDigit_of_isGap hx), digitsLength]

theorem fractionLength_append : fractionLength (text ++ x :: rest) = fractionLength text := by
  cases text with
  | nil => exact fractionLength_of_ne (ne_of_isGap hx (by decide)) rest
  | cons c cs =>
    rw [List.cons_append]
    by_cases hc : c = '.'
    · subst hc
      show 1 + digitsLength (cs ++ x :: rest) = 1 + digitsLength cs
      rw [digitsLength_append hx]
    · rw [fractionLength_of_ne hc, fractionLength_of_ne hc]

theorem exponentLength_append : exponentLength (text ++ x :: rest) = exponentLength text := by
  cases text with
  | nil =>
    refine if_neg fun h => ?_
    rcases h.1 with he | he
    · exact ne_of_isGap hx (by decide) he
    · exact ne_of_isGap hx (by decide) he
  | cons e cs =>
    have hplus := head?_append_of_ne (ne_of_isGap hx (c := '+') (by decide)) cs rest
    have hminus := head?_append_of_ne (ne_of_isGap hx (c := '-') (by decide)) cs rest
    have hdrop : ∀ sign, sign ≤ cs.length →
        digitsLength ((cs ++ x :: rest).drop sign) = digitsLength (cs.drop sign) := by
      intro sign hle
      rw [List.drop_append_of_le_length hle, digitsLength_append hx]
    simp only [List.cons_append, exponentLength, hplus, hminus]
    rw [hdrop]
    -- there is a sign only where there is a character
    cases cs with
    | nil => exact Nat.le_refl 0
    | cons d ds =>
      rw [List.length_cons]
      split <;> omega

theorem hexLength_append : hexLength (text ++ x :: rest) = hexLength text := by
  match text with
  | [] => exact hexLength_of_ne (ne_of_isGap hx (by decide)) rest
  | [c] =>
    rw [List.singleton_append, hexLength_singleton]
    by_cases hc : c = '0'
    · subst hc
      refine if_neg fun h => ?_
      rcases h.1 with h | h
      · exact ne_of_isGap hx (by decide) h
      · exact ne_of_isGap hx (by decide) h
    · exact hexLength_of_ne hc _
  | c :: d :: cs =>
    rw [List.cons_append]
    by_cases hc : c = '0'
    · subst hc
      simp only [List.cons_append, hexLength, takeWhile_append_stop (isHexDigit_of_isGap hx)]
    · rw [hexLength_of_ne hc, hexLength_of_ne hc]

theorem decimalLength_append : decimalLength (text ++ x :: rest) = decimalLength text := by
  have hwhole := digitsLength_le text
  have hpoint := fractionLength_le (text.drop (digitsLength text))
  rw [List.length_drop] at hpoint
  unfold decimalLength
  dsimp only
  rw [digitsLength_append hx, List.drop_append_of_le_length hwhole, fractionLength_append hx,
    List.drop_append_of_le_length (by omega), exponentLength_append hx]

theorem numberLength_append : numberLength (text ++ x :: rest) = numberLength text := by
  rw [numberLength, hexLength_append hx, decimalLength_append hx, numberLength]

theorem startsNumber_append (c : Char) :
    startsNumber (c :: (text ++ x :: rest)) = startsNumber (c :: text) := by
  rw [startsNumber, digitsLength_append hx, startsNumber]

/-! ## long brackets -/

theorem level?_append : level? (text ++ x :: rest) = level? text := by
  cases text with
  | nil => exact level?_of_ne (ne_of_isGap hx (by decide)) rest
  | cons c cs =>
    rw [List.cons_append]
    by_cases hc : c = '['
    · subst hc
      have hequal : (x == '=') = false := beq_eq_false_iff_ne.2 (ne_of_isGap hx (by decide))
      have htake := takeWhile_append_stop (p := fun c => c == '=') hequal cs rest
      have hlen : (cs.takeWhile (· == '=')).length ≤ cs.length :=
        (List.takeWhile_prefix _).length_le
      have hbracket := fun l => head?_append_of_ne (ne_of_isGap hx (c := '[') (by decide)) l rest
      simp only [level?, htake, List.drop_append_of_le_length hlen, hbracket]
    · rw [level?_of_ne hc, level?_of_ne hc]

/-! ## marks -/

omit hx in
theorem isPrefixOf_append {mark : List Char} (hm : x ∉ mark) :
    mark.isPrefixOf (text ++ x :: rest) = mark.isPrefixOf text := by
  induction mark generalizing text with
  | nil => cases text <;> rfl
  | cons c cs ih =>
    cases text with
    | nil =>
      have hne : (c == x) = false := beq_eq_false_iff_ne.2 fun he => hm (he ▸ List.mem_cons_self ..)
      show (c == x && cs.isPrefixOf rest) = false
      rw [hne, Bool.false_and]
    | cons d ds =>
      show (c == d && cs.isPrefixOf (ds ++ x :: rest)) = (c == d && cs.isPrefixOf ds)
      rw [ih ds fun h => hm (List.mem_cons_of_mem _ h)]

omit text rest in
theorem notMem_text_of_isGap (m : Mark) : x ∉ m.text.toList := by
  have hnone : m.text.toList.any isGap = false := by
    cases m <;> decide
  intro hmem
  rw [List.any_eq_true.2 ⟨x, hmem, hx⟩] at hnone
  cases hnone

theorem longest?_append : Mark.longest? (text ++ x :: rest) = Mark.longest? text := by
  unfold Mark.longest?
  simp only [isPrefixOf_append text rest (notMem_text_of_isGap hx _)]

end

/-! ## what is found in a text -/

section
variable {text : List Char} (rest : List Char)

theorem isPrefixOf_append_of_le {mark : List Char} (h : mark.length ≤ text.length) :
    mark.isPrefixOf (text ++ rest) = mark.isPrefixOf text := by
  rw [Bool.eq_iff_iff, List.isPrefixOf_iff_prefix, List.isPrefixOf_iff_prefix]
  constructor
  · intro hp
    exact List.prefix_of_prefix_length_le hp (List.prefix_append text rest) h
  · intro hp
    exact hp.trans (List.prefix_append text rest)

/-- what is found stays the first thing of its kind when more text follows -/
theorem indexOf?_append {mark : List Char} (hne : mark ≠ []) {n : Nat}
    (h : indexOf? mark text = some n) : indexOf? mark (text ++ rest) = some n := by
  induction text generalizing n with
  | nil =>
    rw [indexOf?, if_neg hne] at h
    cases h
  | cons c cs ih =>
    have hle := le_of_indexOf? h
    rw [List.cons_append, indexOf?, ← List.cons_append, isPrefixOf_append_of_le rest (by omega)]
    rw [indexOf?] at h
    split
    · next hp =>
      rw [if_pos hp] at h
      exact h
    · next hp =>
      rw [if_neg hp] at h
      obtain ⟨m, hm, rfl⟩ := Option.map_eq_some_iff.1 h
      rw [ih hm]
      rfl

theorem longBracket_append {level n : Nat} (hl : level? text = some level)
    (hi : indexOf? (closer level) (text.drop (level + 2)) = some n) :
    indexOf? (closer level) ((text ++ rest).drop (level + 2)) = some n := by
  rw [List.drop_append_of_le_length (le_of_level? hl)]
  exact indexOf?_append rest (List.cons_ne_nil _ _) hi

/-! ## strings -/

theorem runLength_escape (quote d : Char) (cs : List Char) :
    runLength quote ('\\' :: d :: cs) = 2 + runLength quote cs := by
  rw [runLength, if_pos rfl]

theorem runLength_plain {quote c : Char} (hb : c ≠ '\\') (hq : c ≠ quote) (hn : c ≠ '\n')
    (cs : List Char) : runLength quote (c :: cs) = 1 + runLength quote cs := by
  cases cs with
  | nil => exact if_neg (by simp [hb, hq, hn])
  | cons d ds => rw [runLength, if_neg hb, if_neg (by simp [hq, hn])]

theorem runLength_stop {quote c : Char} (hb : c ≠ '\\') (h : c = quote ∨ c = '\n')
    (cs : List Char) : runLength quote (c :: cs) = 0 := by
  cases cs with
  | nil => exact if_pos (h.imp_right Or.inr)
  | cons d ds => rw [runLength, if_neg hb, if_pos h]

/-- a run that ends in front of a quote ends there whatever follows the quote -/
theorem runLength_append {quote : Char} (hq : quote ≠ '\\')
    (h : (text.drop (runLength quote text)).head? = some quote) :
    runLength quote (text ++ rest) = runLength quote text := by
  fun_induction runLength quote text with
  | case1 => cases h
  | case2 c _ =>
    obtain rfl : c = quote := Option.some.inj h
    exact runLength_stop hq (.inl rfl) rest
  | case3 c _ => cases h
  | case4 d cs ih =>
    rw [Nat.add_comm] at h
    rw [List.cons_append, List.cons_append, runLength_escape, ih h]
  | case5 c d cs hc hstop => exact runLength_stop hc hstop _
  | case6 c d cs hc hstop ih =>
    rw [Nat.add_comm] at h
    rw [List.cons_append, runLength_plain hc (fun he => hstop (.inl he))
      (fun he => hstop (.inr he)), ih h]

end

/-! ## pieces -/

namespace Piece

/-- the piece stays the same whatever follows `x` -/
def EndsAt (x : Char) : Piece → Prop
  | .gap => False
  | .comment => x = '\n'
  | .token _ => isGap x
  | .fault _ => False

section
variable {x : Char} {c : Char} {cs text : List Char} (rest : List Char)

theorem EndsAt.isGap {p : Piece} (h : p.EndsAt x) : isGap x := by
  cases p with
  | gap => exact h.elim
  | comment =>
    rw [show x = '\n' from h]
    decide
  | token t => exact h
  | fault f => exact h.elim

theorem scanComment_append (h : (scanComment text).1.EndsAt x) :
    scanComment (text ++ x :: rest) = scanComment text := by
  have hx := h.isGap
  unfold scanComment at h ⊢
  rw [level?_append hx]
  cases hl : level? text with
  | none =>
    rw [hl] at h
    have hn : (x != '\n') = false := bne_eq_false_iff_eq.2 h
    dsimp only
    rw [takeWhile_append_stop (p := fun c => c != '\n') hn]
  | some level =>
    rw [hl] at h
    dsimp only at h ⊢
    cases hi : indexOf? (closer level) (text.drop (level + 2)) with
    | none =>
      rw [hi] at h
      exact h.elim
    | some n => rw [longBracket_append _ hl hi]

theorem scanBracket_append_of_none (hx : Manifest.isGap x) (hl : level? text = none)
    (hc : text ≠ []) : scanBracket (text ++ x :: rest) = scanBracket text := by
  have hequal : (x == '=') = false := beq_eq_false_iff_ne.2 (ne_of_isGap hx (by decide))
  unfold scanBracket
  rw [level?_append hx, hl]
  dsimp only
  rw [List.tail_append_of_ne_nil hc, takeWhile_append_stop (p := fun c => c == '=') hequal]

theorem scanBracket_append (h : (scanBracket text).1.EndsAt x) (hc : text ≠ []) :
    scanBracket (text ++ x :: rest) = scanBracket text := by
  cases hl : level? text with
  | none => exact scanBracket_append_of_none rest h.isGap hl hc
  | some level =>
    unfold scanBracket at h ⊢
    rw [level?_append h.isGap]
    rw [hl] at h ⊢
    dsimp only at h ⊢
    cases hi : indexOf? (closer level) (text.drop (level + 2)) with
    | none =>
      rw [hi] at h
      exact h.elim
    | some n =>
      have hle := longBracket_le hl hi
      rw [longBracket_append _ hl hi]
      dsimp only
      rw [List.drop_append_of_le_length (le_of_level? hl),
        List.take_append_of_le_length (by rw [List.length_drop]; omega)]

/-- a string between quotes is told by its text up to the quote that closes it -/
theorem scanQuoted_append_of_closed {quote : Char} (hq : quote ≠ '\\')
    (hclosed : (text.drop (runLength quote text)).head? = some quote) :
    scanQuoted quote (text ++ rest) = scanQuoted quote text := by
  have hrun := runLength_append rest hq hclosed
  have hle := Nat.le_of_lt (lt_of_head?_drop hclosed)
  have hclosed' : ((text ++ rest).drop (runLength quote text)).head? = some quote := by
    rw [List.drop_append_of_le_length hle, List.head?_append, hclosed, Option.some_or]
  unfold scanQuoted
  dsimp only
  rw [hrun, if_pos hclosed, if_pos hclosed', List.take_append_of_le_length hle]

theorem scanQuoted_append {quote : Char} (hq : quote ≠ '\\')
    (h : (scanQuoted quote text).1.EndsAt x) :
    scanQuoted quote (text ++ rest) = scanQuoted quote text := by
  refine scanQuoted_append_of_closed rest hq ?_
  unfold scanQuoted at h
  dsimp only at h
  split at h
  · next hclosed => exact hclosed
  · split at h
    · exact h.elim
    · exact h.elim

/-! ## what stands at the head of a text -/

theorem scan_of_isGap (h : Manifest.isGap c) (cs : List Char) :
    scan c cs = (.gap, ((c :: cs).takeWhile Manifest.isGap).length) := if_pos h

theorem ne_of_isQuote (h : isQuote c) {d : Char} (hd : isQuote d = false) : c ≠ d := by
  rintro rfl
  rw [h] at hd
  cases hd

theorem not_isGap_of_isQuote (h : isQuote c) : ¬ Manifest.isGap c := by
  intro hgap
  rcases eq_of_isGap hgap with rfl | rfl | rfl | rfl | rfl | rfl <;> cases h

theorem scan_of_isQuote (h : isQuote c) (cs : List Char) : scan c cs = scanQuoted c cs := by
  have hc : c = '"' ∨ c = '\'' := by
    simpa only [isQuote, Bool.or_eq_true, beq_iff_eq] using h
  rcases hc with rfl | rfl <;> rfl

theorem scan_dashes (cs : List Char) : scan '-' ('-' :: cs) = scanComment cs := rfl

theorem scan_bracket (cs : List Char) : scan '[' cs = scanBracket ('[' :: cs) := rfl

/-- what is no gap, string or comment is told by its text up to the next gap, fault or not -/
theorem scan_append_of_plain (hx : Manifest.isGap x) (hgap : ¬ Manifest.isGap c)
    (hquote : ¬ isQuote c) (hcomment : ¬ (c = '-' ∧ cs.head? = some '-'))
    (hlevel : level? (c :: cs) = none) : scan c (cs ++ x :: rest) = scan c cs := by
  have hdash : (cs ++ x :: rest).head? = some '-' ↔ cs.head? = some '-' :=
    head?_append_of_ne (ne_of_isGap hx (by decide)) cs rest
  unfold scan
  dsimp only
  -- each test of the scanner has the same outcome with more text
  rw [if_neg hgap, if_neg hgap]
  by_cases hname : isNameStart c
  · rw [if_pos hname, if_pos hname, ← List.cons_append,
      takeWhile_append_stop (isNamePart_of_isGap hx)]
  rw [if_neg hname, if_neg hname, startsNumber_append hx]
  by_cases hnumber : startsNumber (c :: cs)
  · rw [if_pos hnumber, if_pos hnumber, ← List.cons_append, numberLength_append hx,
      List.take_append_of_le_length (numberLength_le (c :: cs))]
  rw [if_neg hnumber, if_neg hnumber, if_neg hquote, if_neg hquote]
  simp only [hdash]
  rw [if_neg hcomment, if_neg hcomment]
  by_cases hbracket : c = '['
  · rw [if_pos hbracket, if_pos hbracket]
    exact scanBracket_append_of_none rest hx hlevel (List.cons_ne_nil c cs)
  · rw [if_neg hbracket, if_neg hbracket, ← List.cons_append, longest?_append hx]

/-- **What follows a piece and a gap does not change the piece.** -/
theorem scan_append (h : (scan c cs).1.EndsAt x) : scan c (cs ++ x :: rest) = scan c cs := by
  by_cases hgap : Manifest.isGap c
  · rw [scan_of_isGap hgap] at h
    exact h.elim
  by_cases hquote : isQuote c
  · rw [scan_of_isQuote hquote] at h
    rw [scan_of_isQuote hquote, scan_of_isQuote hquote]
    exact scanQuoted_append _ (ne_of_isQuote hquote (by decide)) h
  by_cases hcomment : c = '-' ∧ cs.head? = some '-'
  · obtain ⟨rfl, hhead⟩ := hcomment
    obtain ⟨ds, rfl⟩ := List.head?_eq_some_iff.1 hhead
    exact scanComment_append _ h
  by_cases hbracket : c = '['
  · subst hbracket
    exact scanBracket_append _ h (List.cons_ne_nil _ cs)
  · exact scan_append_of_plain rest h.isGap hgap hquote hcomment (level?_of_ne hbracket cs)

end

end Piece

end ResourceOrder.Manifest
