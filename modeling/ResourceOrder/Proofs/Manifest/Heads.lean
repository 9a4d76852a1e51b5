import ResourceOrder.Proofs.Manifest.LineBreaks
import ResourceOrder.Proofs.Manifest.Respacing

/-!
# What a text begins with

* `Piece.Found`   what the scanner finds at the head of a text, one case for each of its branches.

The scanner gives nothing else (`Piece.scan_found`), so what holds of its outcome is shown by cases
on `Found`: which pieces are comments (`Piece.isComment_of_scan`), and how a token reads
(`Spells.text_eq`).
-/

namespace ResourceOrder.Manifest

/-! ## what is found in a text -/

section
variable {mark text : List Char}

/-- what stands somewhere in a text is found there, or in front of that place -/
theorem indexOf?_le (mark front back : List Char) :
    ∃ k ≤ front.length, indexOf? mark (front ++ (mark ++ back)) = some k := by
  induction front with
  | nil =>
    refine ⟨0, Nat.le_refl 0, ?_⟩
    have hp : mark.isPrefixOf (mark ++ back) :=
      List.isPrefixOf_iff_prefix.2 (List.prefix_append mark back)
    rw [List.nil_append]
    cases htext : mark ++ back with
    | nil => exact if_pos (List.append_eq_nil_iff.1 htext).1
    | cons d ds =>
      rw [htext] at hp
      exact if_pos hp
  | cons d ds ih =>
    obtain ⟨k, hk, hindex⟩ := ih
    rw [List.cons_append, indexOf?]
    split
    · exact ⟨0, Nat.zero_le _, rfl⟩
    · exact ⟨k + 1, Nat.succ_le_succ hk, by rw [hindex, Option.map_some]⟩

/-- nothing is found exactly if it does not occur -/
theorem indexOf?_eq_none_iff : indexOf? mark text = none ↔ ¬ mark <:+: text := by
  constructor
  · intro h ⟨front, back, htext⟩
    obtain ⟨k, _, hk⟩ := indexOf?_le mark front back
    rw [← htext, List.append_assoc, hk] at h
    cases h
  · intro h
    rw [Option.eq_none_iff_forall_ne_some]
    intro k hk
    obtain ⟨front, back, rfl, _⟩ := exists_of_indexOf? hk
    exact h ⟨front, back, List.append_assoc ..⟩

/-- in front of the place where it is found it does not end -/
theorem first_of_indexOf? {body rest : List Char}
    (h : indexOf? mark (body ++ (mark ++ rest)) = some body.length) {front back : List Char}
    (hsplit : body ++ mark = front ++ mark ++ back) : back = [] := by
  obtain ⟨k, hk, hindex⟩ := indexOf?_le mark front (back ++ rest)
  have htext : body ++ (mark ++ rest) = front ++ (mark ++ (back ++ rest)) := by
    rw [← List.append_assoc, hsplit, List.append_assoc, List.append_assoc]
  rw [htext, hindex] at h
  have hlen := congrArg List.length hsplit
  simp only [List.length_append] at hlen
  have hle : body.length ≤ front.length := Option.some.inj h ▸ hk
  exact List.length_eq_zero_iff.1 (by omega)

end

namespace Piece

/-! ## the branches of the scanner -/

/-- what is found at the head of the text, and how many characters it takes up -/
inductive Found (c : Char) (cs : List Char) : Piece × Nat → Prop
  | gap : isGap c → Found c cs (.gap, ((c :: cs).takeWhile isGap).length)
  | word : isNameStart c →
      Found c cs (.token (.ofWord (String.ofList ((c :: cs).takeWhile isNamePart))),
        ((c :: cs).takeWhile isNamePart).length)
  | number : startsNumber (c :: cs) →
      Found c cs (.token (.number (String.ofList ((c :: cs).take (numberLength (c :: cs))))),
        numberLength (c :: cs))
  | quoted : isQuote c → Found c cs (scanQuoted c cs)
  | comment {ds} : c = '-' → cs = '-' :: ds → Found c cs (scanComment ds)
  | bracket : c = '[' → Found c cs (scanBracket (c :: cs))
  | mark {m} : ¬ isQuote c → ¬ (c = '-' ∧ cs.head? = some '-') → c ≠ '[' →
      Mark.longest? (c :: cs) = some m → Found c cs (.token (.mark m), m.text.length)
  | nothing : ¬ isGap c → ¬ isNameStart c → ¬ startsNumber (c :: cs) → ¬ isQuote c → c ≠ '[' →
      Mark.longest? (c :: cs) = none → Found c cs (.fault (.unexpectedCharacter c), 1)

theorem scan_found (c : Char) (cs : List Char) : Found c cs (scan c cs) := by
  unfold scan
  dsimp only
  by_cases hgap : isGap c
  · rw [if_pos hgap]
    exact .gap hgap
  by_cases hword : isNameStart c
  · rw [if_neg hgap, if_pos hword]
    exact .word hword
  by_cases hnumber : startsNumber (c :: cs)
  · rw [if_neg hgap, if_neg hword, if_pos hnumber]
    exact .number hnumber
  by_cases hquote : isQuote c
  · rw [if_neg hgap, if_neg hword, if_neg hnumber, if_pos hquote]
    exact .quoted hquote
  rw [if_neg hgap, if_neg hword, if_neg hnumber, if_neg hquote]
  by_cases hdashes : c = '-' ∧ cs.head? = some '-'
  · obtain ⟨ds, hds⟩ := List.head?_eq_some_iff.1 hdashes.2
    rw [if_pos hdashes, hds]
    exact .comment hdashes.1 rfl
  by_cases hbracket : c = '['
  · rw [if_neg hdashes, if_pos hbracket]
    exact .bracket hbracket
  rw [if_neg hdashes, if_neg hbracket]
  split
  · next m hm => exact .mark hquote hdashes hbracket hm
  · next hm => exact .nothing hgap hword hnumber hquote hbracket hm

/-! ## strings, brackets and comments -/

section
variable {c quote : Char} {cs text : List Char} {n : Nat} {piece : Piece}

theorem scanQuoted_cases (h : scanQuoted quote text = (piece, n)) :
    (∃ value, piece = .token (.string value)) ∨ ∃ f, piece = .fault f := by
  unfold scanQuoted at h
  dsimp only at h
  split at h
  · split at h
    · exact .inl ⟨_, (congrArg Prod.fst h).symm⟩
    · exact .inr ⟨_, (congrArg Prod.fst h).symm⟩
  · split at h
    · exact .inr ⟨_, (congrArg Prod.fst h).symm⟩
    · exact .inr ⟨_, (congrArg Prod.fst h).symm⟩

theorem scanBracket_cases (h : scanBracket text = (piece, n)) :
    (∃ value, piece = .token (.string value)) ∨
      (piece = .token (.mark .leftBracket) ∧ n = 1) ∨ ∃ f, piece = .fault f := by
  unfold scanBracket at h
  dsimp only at h
  split at h
  · split at h
    · exact .inl ⟨_, (congrArg Prod.fst h).symm⟩
    · exact .inr (.inr ⟨_, (congrArg Prod.fst h).symm⟩)
  · split at h
    · cases h
      exact .inr (.inl ⟨rfl, rfl⟩)
    · exact .inr (.inr ⟨_, (congrArg Prod.fst h).symm⟩)

/-- a comment begins with two dashes -/
theorem dashes_of_scan (h : scan c cs = (.comment, n)) :
    ∃ ds, c = '-' ∧ cs = '-' :: ds ∧ scanComment ds = (.comment, n) := by
  have hfound := scan_found c cs
  generalize scan c cs = found at h hfound
  cases hfound with
  | comment hc hcs => exact ⟨_, hc, hcs, h⟩
  | quoted _ =>
    rcases scanQuoted_cases h with ⟨value, hvalue⟩ | ⟨f, hf⟩
    · cases hvalue
    · cases hf
  | bracket _ =>
    rcases scanBracket_cases h with ⟨value, hvalue⟩ | ⟨hmark, _⟩ | ⟨f, hf⟩
    · cases hvalue
    · cases hmark
    · cases hf
  | gap _ => cases h
  | word _ => cases h
  | number _ => cases h
  | mark _ _ _ _ => cases h
  | nothing _ _ _ _ _ _ => cases h

/-- a comment is complete where it ends: behind the bracket that closes it, or at the end of its
line -/
theorem isComment_of_scan (h : scan c cs = (.comment, n)) :
    IsBlockComment ((c :: cs).take n) ∨
      IsLineComment ((c :: cs).take n) ∧
        ((c :: cs).drop n = [] ∨ ∃ rest, (c :: cs).drop n = '\n' :: rest) := by
  obtain ⟨ds, rfl, rfl, hs⟩ := dashes_of_scan h
  cases hl : level? ds with
  | some level =>
    obtain ⟨body, rfl⟩ := level?_eq_some_iff.1 hl
    rw [scanComment_opener] at hs
    cases hi : indexOf? (closer level) body with
    | none =>
      rw [hi] at hs
      cases hs
    | some k =>
      rw [hi] at hs
      obtain ⟨inner, rest, rfl, rfl⟩ := exists_of_indexOf? hi
      have hn : n = ('-' :: '-' :: (opener level ++ inner ++ closer level)).length := by
        rw [← (Prod.mk.inj hs).2]
        simp only [List.length_cons, List.length_append, opener_length, closer_length]
        omega
      have htext : '-' :: '-' :: (opener level ++ (inner ++ (closer level ++ rest))) =
          '-' :: '-' :: (opener level ++ inner ++ closer level) ++ rest := by
        simp only [List.cons_append, List.append_assoc]
      rw [htext, hn, List.take_left]
      exact .inl ⟨level, inner, rfl, fun front back => first_of_indexOf? hi⟩
  | none =>
    unfold scanComment at hs
    rw [hl] at hs
    have hn : n = (ds.takeWhile (· != '\n')).length + 2 := by
      rw [← (Prod.mk.inj hs).2, Nat.add_comm]
    have hopener : ∀ level, ¬ opener level <+: ds.takeWhile (· != '\n') := by
      intro level hlevel
      rw [level?_eq_some_iff.2 (hlevel.trans (List.takeWhile_prefix _))] at hl
      cases hl
    have hnewline : '\n' ∉ ds.takeWhile (· != '\n') := fun hmem =>
      Bool.false_ne_true (List.mem_takeWhile_imp hmem)
    rw [hn, List.take_succ_cons, List.take_succ_cons, List.drop_succ_cons, List.drop_succ_cons,
      take_takeWhile_length, drop_takeWhile_length]
    refine .inr ⟨⟨_, rfl, hopener, hnewline⟩, ?_⟩
    cases hrest : ds.dropWhile (· != '\n') with
    | nil => exact .inl rfl
    | cons d rest =>
      have hd := List.head?_dropWhile_not (· != '\n') ds
      rw [hrest] at hd
      obtain rfl : d = '\n' := bne_eq_false_iff_eq.1 hd
      exact .inr ⟨rest, rfl⟩

end

end Piece

/-! ## how tokens read -/

theorem Token.text_ofWord (word : String) : (Token.ofWord word).text = word := by
  unfold Token.ofWord
  split
  · next k hk =>
    have heq := List.find?_some (p := fun k : Keyword => k.text == word) hk
    exact beq_iff_eq.1 heq
  · split
    · rfl
    · rfl

theorem Mark.text_of_longest? {text : List Char} {m : Mark} (h : Mark.longest? text = some m) :
    m.text.toList = text.take m.text.length := by
  have hfront : m.text.toList.isPrefixOf text :=
    List.find?_some (p := fun m : Mark => m.text.toList.isPrefixOf text) h
  rw [← String.length_toList]
  exact List.prefix_iff_eq_take.1 (List.isPrefixOf_iff_prefix.1 hfront)

theorem Token.text_of_scan {c : Char} {cs : List Char} {t : Token} {n : Nat}
    (h : Piece.scan c cs = (.token t, n)) (hstring : ∀ value, t ≠ .string value) :
    t.text.toList = (c :: cs).take n := by
  have hfound := Piece.scan_found c cs
  generalize Piece.scan c cs = found at h hfound
  cases hfound with
  | gap _ => cases h
  | word _ =>
    cases h
    rw [text_ofWord, String.toList_ofList, take_takeWhile_length]
  | number _ =>
    cases h
    exact String.toList_ofList
  | quoted _ =>
    rcases Piece.scanQuoted_cases h with ⟨value, hvalue⟩ | ⟨f, hf⟩
    · cases hvalue
      exact absurd rfl (hstring value)
    · cases hf
  | comment _ _ => exact absurd (congrArg Prod.fst h) (Piece.scanComment_ne_token _ t)
  | bracket hc =>
    rcases Piece.scanBracket_cases h with ⟨value, hvalue⟩ | ⟨hmark, rfl⟩ | ⟨f, hf⟩
    · cases hvalue
      exact absurd rfl (hstring value)
    · cases hmark
      rw [hc]
      rfl
    · cases hf
  | mark _ _ _ hm =>
    cases h
    exact Mark.text_of_longest? hm
  | nothing _ _ _ _ _ _ => cases h

/-- a token that is no string shows the characters that it was read from -/
theorem Spells.text_eq {t : Token} {text : List Char} (h : Spells t text)
    (hstring : ∀ value, t ≠ .string value) : t.text.toList = text := by
  obtain ⟨c, cs, rfl, hs⟩ := h
  have htext := Token.text_of_scan hs hstring
  rwa [List.take_length] at htext

end ResourceOrder.Manifest
