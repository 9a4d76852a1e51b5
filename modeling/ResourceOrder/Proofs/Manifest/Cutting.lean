import Mathlib.Data.List.TakeWhile
import ResourceOrder.Proofs.Manifest.Tokens

/-!
# Texts that are cut off

How far a token reaches is seen from its own characters, too: the functions that measure a token
have the same value for any part of the text that the measured stretch fits into.

* `opener`   the long bracket that opens a given level.

They are taken one after the other, as with more text behind the token.  **So a piece is read again
from any part of the text that holds it** (`Piece.scan_take`), from its own characters alone, too.
What an opener opens is read up to the first closer of its level (`Piece.scanBracket_opener`,
`Piece.scanComment_opener`), and a comment without one up to the end of its line
(`Piece.scanComment_line`).
-/

namespace ResourceOrder.Manifest

/-- the long bracket that opens the given level -/
def opener (level : Nat) : List Char := '[' :: (List.replicate level '=' ++ ['['])

section
variable {text : List Char} {n : Nat}

/-! ## numbers -/

theorem length_takeWhile_take {α : Type} (p : α → Bool) (l : List α) (n : Nat) :
    ((l.take n).takeWhile p).length = min n (l.takeWhile p).length := by
  rw [← List.take_takeWhile, List.length_take]

theorem digitsLength_take (text : List Char) (n : Nat) :
    digitsLength (text.take n) = min n (digitsLength text) :=
  length_takeWhile_take Char.isDigit text n

theorem fractionLength_take (h : fractionLength text ≤ n) :
    fractionLength (text.take n) = fractionLength text := by
  cases text with
  | nil => rw [List.take_nil]
  | cons c cs =>
    cases n with
    | zero => exact (Nat.le_zero.1 h).symm
    | succ n =>
      rw [List.take_succ_cons]
      by_cases hc : c = '.'
      · subst hc
        have hle : 1 + digitsLength cs ≤ n + 1 := h
        show 1 + digitsLength (cs.take n) = 1 + digitsLength cs
        rw [digitsLength_take]
        omega
      · rw [fractionLength_of_ne hc, fractionLength_of_ne hc]

/-- digits behind `k` other characters, where these count for nothing without digits -/
theorem if_digits_take {p : Prop} [Decidable p] {k digits : Nat}
    (h : (if p ∧ digits ≠ 0 then k + digits else 0) ≤ n) :
    (if p ∧ min (n - k) digits ≠ 0 then k + min (n - k) digits else 0) =
      if p ∧ digits ≠ 0 then k + digits else 0 := by
  split at h
  · next hdigits =>
    have hmin : min (n - k) digits = digits := by omega
    rw [hmin]
  · next hdigits =>
    rw [if_neg hdigits]
    refine if_neg fun hfewer => hdigits ⟨hfewer.1, ?_⟩
    have := hfewer.2
    omega

theorem exponentLength_take (h : exponentLength text ≤ n) :
    exponentLength (text.take n) = exponentLength text := by
  match text, n with
  | [], n => rw [List.take_nil]
  | e :: cs, 0 => exact (Nat.le_zero.1 h).symm
  | e :: cs, 1 =>
    -- the cut leaves no digit, and so no exponent
    have hcut := if_digits_take h
    rw [Nat.sub_eq_zero_of_le (Nat.le_add_right 1 _), Nat.zero_min] at hcut
    rw [if_neg fun hdigits => hdigits.2 rfl] at hcut
    exact Eq.trans (if_neg fun hdigits => hdigits.2 rfl) hcut
  | e :: cs, n + 2 =>
    have hhead : (cs.take (n + 1)).head? = cs.head? := by
      rw [List.head?_take, if_neg (Nat.succ_ne_zero n)]
    rw [Nat.add_comm n 2, Nat.add_assoc 1 1 n] at h
    have hcut := if_digits_take h
    rw [Nat.add_sub_add_left] at hcut
    rw [List.take_succ_cons]
    unfold exponentLength
    dsimp only
    rw [hhead, List.drop_take, digitsLength_take, Nat.add_comm n 1]
    exact hcut

theorem hexLength_take (h : hexLength text ≤ n) : hexLength (text.take n) = hexLength text := by
  match text, n with
  | [], n => rw [List.take_nil]
  | c :: cs, 0 => exact (Nat.le_zero.1 h).symm
  | [c], n + 1 => rw [List.take_succ_cons, List.take_nil]
  | c :: x :: cs, 1 =>
    show hexLength [c] = hexLength (c :: x :: cs)
    rw [hexLength_singleton]
    by_cases hc : c = '0'
    · subst hc
      have hcut := if_digits_take h
      rw [Nat.zero_min, if_neg fun hdigits => hdigits.2 rfl] at hcut
      exact hcut
    · rw [hexLength_of_ne hc]
  | c :: x :: cs, n + 2 =>
    rw [List.take_succ_cons, List.take_succ_cons]
    by_cases hc : c = '0'
    · subst hc
      have hcut := if_digits_take h
      rw [Nat.add_sub_cancel, ← length_takeWhile_take] at hcut
      exact hcut
    · rw [hexLength_of_ne hc, hexLength_of_ne hc]

theorem decimalLength_take (h : decimalLength text ≤ n) :
    decimalLength (text.take n) = decimalLength text := by
  unfold decimalLength at h ⊢
  dsimp only at h ⊢
  have hwhole : min n (digitsLength text) = digitsLength text := by omega
  rw [digitsLength_take, hwhole, List.drop_take, fractionLength_take (by omega), List.drop_take,
    exponentLength_take (by omega)]

theorem numberLength_take (h : numberLength text ≤ n) :
    numberLength (text.take n) = numberLength text := by
  unfold numberLength at h ⊢
  split at h
  · next hhex => rw [hexLength_take h, if_pos hhex, if_pos hhex]
  · next hhex =>
    rw [hexLength_take (by omega), if_neg hhex, if_neg hhex, decimalLength_take h]

theorem startsNumber_iff {c : Char} {cs : List Char} :
    startsNumber (c :: cs) ↔ c.isDigit ∨ c = '.' ∧ digitsLength cs ≠ 0 := by
  rw [startsNumber, Bool.or_eq_true, Bool.and_eq_true, beq_iff_eq, bne_iff_ne]

theorem le_numberLength_point (cs : List Char) :
    1 + digitsLength cs ≤ numberLength ('.' :: cs) := by
  have hhex : hexLength ('.' :: cs) = 0 := hexLength_of_ne (by decide) cs
  have hwhole : digitsLength ('.' :: cs) = 0 := by
    rw [digitsLength, List.takeWhile_cons_of_neg (by decide), List.length_nil]
  have hpoint : fractionLength ('.' :: cs) = 1 + digitsLength cs := rfl
  unfold numberLength decimalLength
  dsimp only
  rw [if_neg (not_not_intro hhex), hwhole, List.drop_zero, hpoint]
  omega

/-- whether a number begins a text is seen as far as the number reaches -/
theorem startsNumber_take {c : Char} {cs : List Char}
    (hn : startsNumber (c :: cs) → numberLength (c :: cs) ≤ n + 1) :
    startsNumber (c :: cs.take n) = startsNumber (c :: cs) := by
  rw [Bool.eq_iff_iff]
  constructor
  · intro h
    rcases startsNumber_iff.1 h with hdigit | ⟨hpoint, hdigits⟩
    · exact startsNumber_iff.2 (.inl hdigit)
    · rw [digitsLength_take] at hdigits
      exact startsNumber_iff.2 (.inr ⟨hpoint, by omega⟩)
  · intro h
    have hle := hn h
    rcases startsNumber_iff.1 h with hdigit | ⟨rfl, hdigits⟩
    · exact startsNumber_iff.2 (.inl hdigit)
    · have hpoint := le_numberLength_point cs
      refine startsNumber_iff.2 (.inr ⟨rfl, ?_⟩)
      rw [digitsLength_take]
      omega

/-! ## strings and long brackets -/

theorem runLength_take {quote : Char} (h : runLength quote text < n) :
    runLength quote (text.take n) = runLength quote text := by
  fun_induction runLength quote text generalizing n with
  | case1 => rw [List.take_nil, runLength]
  | case2 c hc =>
    obtain ⟨n, rfl⟩ := Nat.exists_eq_add_one_of_ne_zero (Nat.ne_of_gt h)
    rw [List.take_succ_cons, List.take_nil]
    exact if_pos hc
  | case3 c hc =>
    obtain ⟨n, rfl⟩ := Nat.exists_eq_add_one_of_ne_zero (n := n) (by omega)
    rw [List.take_succ_cons, List.take_nil]
    exact if_neg hc
  | case4 d cs ih =>
    obtain ⟨n, rfl⟩ : ∃ m, n = m + 2 := ⟨n - 2, by omega⟩
    rw [List.take_succ_cons, List.take_succ_cons, runLength_escape, ih (by omega)]
  | case5 c d cs hc hstop =>
    obtain ⟨n, rfl⟩ := Nat.exists_eq_add_one_of_ne_zero (Nat.ne_of_gt h)
    rw [List.take_succ_cons]
    exact runLength_stop hc hstop _
  | case6 c d cs hc hstop ih =>
    obtain ⟨n, rfl⟩ := Nat.exists_eq_add_one_of_ne_zero (n := n) (by omega)
    rw [List.take_succ_cons, runLength_plain hc (fun he => hstop (.inl he))
      (fun he => hstop (.inr he)), ih (by omega)]

theorem opener_length (level : Nat) : (opener level).length = level + 2 := by
  simp [opener]

theorem takeWhile_replicate_stop {c d : Char} (h : d ≠ c) (level : Nat) (rest : List Char) :
    (List.replicate level c ++ d :: rest).takeWhile (· == c) = List.replicate level c := by
  have hall : ∀ x ∈ List.replicate level c, (x == c) = true := by
    intro x hx
    exact beq_iff_eq.2 (List.eq_of_mem_replicate hx)
  rw [List.takeWhile_append_of_pos hall, List.takeWhile_cons_of_neg (by simp [h]), List.append_nil]

/-- a text begins a long bracket of a level exactly if the opener of that level is at its head -/
theorem level?_eq_some_iff {level : Nat} : level? text = some level ↔ opener level <+: text := by
  constructor
  · intro h
    unfold level? at h
    split at h
    · next cs =>
      dsimp only at h
      split at h
      · next hhead =>
        obtain ⟨rest, hrest⟩ := List.head?_eq_some_iff.1 hhead
        have hequals : cs.takeWhile (· == '=') = List.replicate level '=' := by
          rw [List.eq_replicate_iff]
          refine ⟨Option.some.inj h, fun c hc => ?_⟩
          exact beq_iff_eq.1 (List.all_eq_true.1 List.all_takeWhile c hc)
        have hsplit := List.take_append_drop (cs.takeWhile (· == '=')).length cs
        rw [take_takeWhile_length, hrest, hequals] at hsplit
        refine ⟨rest, ?_⟩
        rw [← hsplit, opener, List.cons_append, List.append_assoc]
        rfl
      · cases h
    · cases h
  · intro h
    obtain ⟨rest, rfl⟩ := h
    have hsplit : opener level ++ rest = '[' :: (List.replicate level '=' ++ '[' :: rest) := by
      rw [opener, List.cons_append, List.append_assoc]
      rfl
    have hequals := takeWhile_replicate_stop (c := '=') (d := '[') (by decide) level rest
    have hhead : (List.drop level (List.replicate level '=' ++ '[' :: rest)).head? = some '[' := by
      rw [List.drop_left' List.length_replicate, List.head?_cons]
    rw [hsplit]
    simp only [level?, hequals, List.length_replicate, hhead, if_true]

theorem level?_opener (level : Nat) (body : List Char) :
    level? (opener level ++ body) = some level :=
  level?_eq_some_iff.2 (List.prefix_append ..)

theorem level?_take {level : Nat} (hl : level? text = some level) (hn : level + 2 ≤ n) :
    level? (text.take n) = some level := by
  rw [level?_eq_some_iff] at hl ⊢
  rw [List.prefix_take_iff, opener_length]
  exact ⟨hl, hn⟩

theorem level?_take_eq_none (hl : level? text = none) : level? (text.take n) = none := by
  rw [Option.eq_none_iff_forall_ne_some] at hl ⊢
  intro level hlevel
  have hopener := level?_eq_some_iff.1 hlevel
  exact hl level (level?_eq_some_iff.2 (hopener.trans (List.take_prefix n text)))

theorem indexOf?_take {mark : List Char} (hne : mark ≠ []) {i : Nat}
    (hi : indexOf? mark text = some i) (hn : i + mark.length ≤ n) :
    indexOf? mark (text.take n) = some i := by
  have hpos := List.length_pos_iff.2 hne
  induction text generalizing i n with
  | nil => rw [List.take_nil, hi]
  | cons c cs ih =>
    obtain ⟨n, rfl⟩ := Nat.exists_eq_add_one_of_ne_zero (n := n) (by omega)
    have hcut : mark.isPrefixOf ((c :: cs).take (n + 1)) = mark.isPrefixOf (c :: cs) := by
      rw [Bool.eq_iff_iff, List.isPrefixOf_iff_prefix, List.isPrefixOf_iff_prefix,
        List.prefix_take_iff]
      exact and_iff_left (by omega)
    rw [List.take_succ_cons] at hcut ⊢
    rw [indexOf?] at hi ⊢
    rw [hcut]
    split at hi
    · next hp =>
      rw [if_pos hp]
      exact hi
    · next hp =>
      obtain ⟨m, hm, rfl⟩ := Option.map_eq_some_iff.1 hi
      rw [if_neg hp, ih hm (by omega), Option.map_some]

theorem longBracket_take {level i : Nat}
    (hi : indexOf? (closer level) (text.drop (level + 2)) = some i)
    (hn : level + 2 + i + (level + 2) ≤ n) :
    indexOf? (closer level) ((text.take n).drop (level + 2)) = some i := by
  have hne : closer level ≠ [] := List.cons_ne_nil _ _
  have hlen := closer_length level
  rw [List.drop_take]
  exact indexOf?_take hne hi (by omega)

end

/-! ## marks -/

/-- the longest mark is the longest one in any part of the text that holds it -/
theorem longest?_take {text : List Char} {m : Mark} {n : Nat} (h : Mark.longest? text = some m)
    (hn : m.text.length ≤ n) : Mark.longest? (text.take n) = some m := by
  unfold Mark.longest? at h ⊢
  rw [List.find?_eq_some_iff_append] at h ⊢
  obtain ⟨hbegins, front, back, hall, hfront⟩ := h
  rw [List.isPrefixOf_iff_prefix] at hbegins ⊢
  refine ⟨List.prefix_take_iff.2 ⟨hbegins, hn⟩, front, back, hall, fun m' hm' => ?_⟩
  have hlonger := hfront m' hm'
  rw [Bool.not_eq_true', Bool.eq_false_iff, Ne, List.isPrefixOf_iff_prefix] at hlonger ⊢
  exact fun hcut => hlonger (hcut.trans (List.take_prefix n text))

/-! ## tokens -/

namespace Piece

section
variable {text : List Char}

theorem scanComment_opener (level : Nat) (body : List Char) :
    scanComment (opener level ++ body) =
      match indexOf? (closer level) body with
      | some n => (.comment, 2 + (level + 2) + n + (level + 2))
      | none => (.fault .unterminatedComment, 2) := by
  unfold scanComment
  rw [level?_opener]
  dsimp only
  cases hi : indexOf? (closer level) body <;>
    simp only [List.drop_left' (opener_length level), hi]

theorem scanComment_line (hl : level? text = none) (hn : '\n' ∉ text) :
    scanComment text = (.comment, 2 + text.length) := by
  have hline : text.takeWhile (· != '\n') = text :=
    List.takeWhile_eq_self_iff.2 fun d hd => bne_iff_ne.2 (ne_of_mem_of_not_mem hd hn)
  unfold scanComment
  rw [hl]
  dsimp only
  rw [hline]

theorem scanBracket_opener (level : Nat) (body : List Char) :
    scanBracket (opener level ++ body) =
      match indexOf? (closer level) body with
      | some n => (.token (.string (String.ofList (longText (body.take n)))),
          level + 2 + n + (level + 2))
      | none => (.fault .unterminatedString, level + 2) := by
  unfold scanBracket
  rw [level?_opener]
  dsimp only
  cases hi : indexOf? (closer level) body <;>
    simp only [List.drop_left' (opener_length level), hi]

theorem scanComment_ne_token (text : List Char) (t : Token) :
    (scanComment text).1 ≠ .token t := by
  unfold scanComment
  split
  · split
    · exact nofun
    · exact nofun
  · exact nofun

theorem two_le_scanComment (text : List Char) : 2 ≤ (scanComment text).2 := by
  unfold scanComment
  split
  · split
    · show 2 ≤ 2 + (_ + 2) + _ + (_ + 2)
      omega
    · exact Nat.le_refl 2
  · exact Nat.le_add_right 2 _

end

/-! ## a text that is cut off behind a piece -/

section
variable {c : Char} {cs text : List Char} {piece : Piece} {n m : Nat}
  (hfault : ∀ f, piece ≠ .fault f)
include hfault

theorem scanComment_take (h : scanComment text = (piece, n)) (hm : n ≤ m + 2) :
    scanComment (text.take m) = (piece, n) := by
  unfold scanComment at h ⊢
  cases hl : level? text with
  | none =>
    rw [hl] at h
    obtain ⟨hpiece, hlen⟩ := Prod.mk.inj h
    rw [level?_take_eq_none hl]
    dsimp only
    rw [length_takeWhile_take, Nat.min_eq_right (by omega), hpiece, hlen]
  | some level =>
    rw [hl] at h
    dsimp only at h
    cases hi : indexOf? (closer level) (text.drop (level + 2)) with
    | none =>
      rw [hi] at h
      exact absurd (congrArg Prod.fst h).symm (hfault _)
    | some i =>
      rw [hi] at h
      have hlen := (Prod.mk.inj h).2
      rw [level?_take hl (by omega)]
      dsimp only
      rw [longBracket_take hi (by omega)]
      exact h

theorem scanQuoted_take {quote : Char} (h : scanQuoted quote text = (piece, n))
    (hm : n ≤ m + 1) : scanQuoted quote (text.take m) = (piece, n) := by
  unfold scanQuoted at h
  dsimp only at h
  split at h
  · next hquote =>
    cases hd : Escape.decode (text.take (runLength quote text)) with
    | none =>
      rw [hd] at h
      exact absurd (congrArg Prod.fst h).symm (hfault _)
    | some value =>
      rw [hd] at h
      have hlen := (Prod.mk.inj h).2
      have hrun : runLength quote (text.take m) = runLength quote text :=
        runLength_take (by omega)
      have hbody : (text.take m).take (runLength quote text) =
          text.take (runLength quote text) := by
        rw [List.take_take, Nat.min_eq_left (by omega)]
      have hquote' : ((text.take m).drop (runLength quote text)).head? = some quote := by
        rw [List.drop_take, List.head?_take, if_neg (by omega), hquote]
      unfold scanQuoted
      dsimp only
      rw [hrun, if_pos hquote', hbody, hd]
      exact h
  · split at h
    · exact absurd (congrArg Prod.fst h).symm (hfault _)
    · exact absurd (congrArg Prod.fst h).symm (hfault _)

theorem scanBracket_take (h : scanBracket text = (piece, n)) (hm : n ≤ m) :
    scanBracket (text.take m) = (piece, n) := by
  unfold scanBracket at h ⊢
  dsimp only at h ⊢
  cases hl : level? text with
  | none =>
    rw [hl] at h
    dsimp only at h
    split at h
    · next hequals =>
      have hequals' : ((text.take m).tail.takeWhile (· == '=')).length = 0 := by
        rw [← List.drop_one, List.drop_take, List.drop_one, length_takeWhile_take]
        exact (congrArg (min _) hequals).trans (Nat.min_zero _)
      rw [level?_take_eq_none hl]
      exact (if_pos hequals').trans h
    · exact absurd (congrArg Prod.fst h).symm (hfault _)
  | some level =>
    rw [hl] at h
    dsimp only at h
    cases hi : indexOf? (closer level) (text.drop (level + 2)) with
    | none =>
      rw [hi] at h
      exact absurd (congrArg Prod.fst h).symm (hfault _)
    | some i =>
      rw [hi] at h
      have hlen := (Prod.mk.inj h).2
      rw [level?_take hl (by omega)]
      dsimp only
      rw [longBracket_take hi (by omega), List.drop_take]
      dsimp only
      rw [List.take_take, Nat.min_eq_left (by omega)]
      exact h

/-- **A piece without a fault is read again from any part of the text that holds it.** -/
theorem scan_take (h : scan c cs = (piece, n)) (hm : n ≤ m + 1) :
    scan c (cs.take m) = (piece, n) := by
  have hcons : c :: cs.take m = (c :: cs).take (m + 1) := List.take_succ_cons.symm
  unfold scan at h ⊢
  dsimp only at h ⊢
  by_cases hgap : isGap c
  · rw [if_pos hgap] at h ⊢
    obtain ⟨hpiece, hlen⟩ := Prod.mk.inj h
    rw [hcons, length_takeWhile_take, Nat.min_eq_right (by omega), hpiece, hlen]
  rw [if_neg hgap] at h ⊢
  by_cases hname : isNameStart c
  · rw [if_pos hname] at h ⊢
    have hlen := (Prod.mk.inj h).2
    have hword : (c :: cs.take m).takeWhile isNamePart = (c :: cs).takeWhile isNamePart := by
      rw [hcons, ← List.take_takeWhile, List.take_of_length_le (by omega)]
    rw [hword]
    exact h
  rw [if_neg hname] at h ⊢
  have hstarts : startsNumber (c :: cs.take m) = startsNumber (c :: cs) := by
    refine startsNumber_take fun hnumber => ?_
    rw [if_pos hnumber] at h
    have hlen := (Prod.mk.inj h).2
    omega
  rw [hstarts]
  by_cases hnumber : startsNumber (c :: cs)
  · rw [if_pos hnumber] at h ⊢
    have hlen := (Prod.mk.inj h).2
    rw [hcons, numberLength_take (by omega), List.take_take, Nat.min_eq_left (by omega)]
    exact h
  rw [if_neg hnumber] at h ⊢
  by_cases hquote : isQuote c
  · rw [if_pos hquote] at h ⊢
    exact scanQuoted_take hfault h hm
  rw [if_neg hquote] at h ⊢
  by_cases hcomment : c = '-' ∧ cs.head? = some '-'
  · obtain ⟨ds, rfl⟩ := List.head?_eq_some_iff.1 hcomment.2
    rw [if_pos hcomment] at h
    have hdashes := two_le_scanComment ds
    have hlen : (scanComment ds).2 = n := congrArg Prod.snd h
    obtain ⟨k, rfl⟩ := Nat.exists_eq_add_one_of_ne_zero (n := m) (by omega)
    rw [List.take_succ_cons, if_pos ⟨hcomment.1, rfl⟩]
    exact scanComment_take hfault h (by omega)
  have hcomment' : ¬ (c = '-' ∧ (cs.take m).head? = some '-') := by
    intro hdash
    refine hcomment ⟨hdash.1, ?_⟩
    have hhead := hdash.2
    rw [List.head?_take] at hhead
    split at hhead
    · cases hhead
    · exact hhead
  rw [if_neg hcomment] at h
  rw [if_neg hcomment']
  by_cases hbracket : c = '['
  · rw [if_pos hbracket] at h ⊢
    rw [hcons]
    exact scanBracket_take hfault h hm
  rw [if_neg hbracket] at h ⊢
  cases hlongest : Mark.longest? (c :: cs) with
  | none =>
    rw [hlongest] at h
    exact absurd (congrArg Prod.fst h).symm (hfault _)
  | some mark =>
    rw [hlongest] at h
    have hlen : mark.text.length = n := (Prod.mk.inj h).2
    rw [hcons, longest?_take hlongest (by omega)]
    exact h

end

end Piece

end ResourceOrder.Manifest
