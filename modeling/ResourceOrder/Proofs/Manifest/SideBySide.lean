import ResourceOrder.Proofs.Manifest.LineBreaks
import ResourceOrder.Proofs.Manifest.Retelling

/-!
# A text and its other line breaks, piece by piece

* `Piece.Alike`  comments, or the same token up to the line breaks of a string;
* `SideBySide`   the text can be walked through together with the one that has carriage returns in
                 front of its newlines, up to a fault.

A text without carriage returns can always be walked through in this way (`sideBySide`); what the
two have in common is then shown by induction on `SideBySide`, without a look at the scanner.
-/

namespace ResourceOrder.Manifest

/-! ## two texts side by side -/

/-- tokens that are equal up to the line breaks of a string, or comments -/
def Piece.Alike : Piece → Piece → Prop
  | .token t, .token t' => t'.mapText withNewlines = t.mapText withNewlines
  | .comment, .comment => True
  | _, _ => False

/-- one step for each piece of the text; a line comment takes the carriage return of its line with
it, and the walk ends at a fault of the other text, which the text has too unless a string between
quotes holds a newline there -/
inductive SideBySide : List Char → Prop
  | nil : SideBySide []
  | gap {c cs} : isGap c → SideBySide cs → SideBySide (c :: cs)
  | same {c cs rest piece piece'} : ¬ isGap c → piece.Alike piece' →
      Piece.scan c (cs ++ rest) = (piece, (c :: cs).length) →
      Piece.scan c (crlf cs ++ crlf rest) = (piece', (c :: crlf cs).length) →
      (isQuote c → '\n' ∉ cs) → SideBySide rest → SideBySide (c :: (cs ++ rest))
  | comment {c cs rest} : ¬ isGap c → '\n' ∉ cs →
      Piece.scan c (cs ++ '\n' :: rest) = (.comment, (c :: cs).length) →
      Piece.scan c (cs ++ ['\r'] ++ '\n' :: crlf rest) = (.comment, (c :: (cs ++ ['\r'])).length) →
      SideBySide rest → SideBySide (c :: (cs ++ '\n' :: rest))
  | fault {c cs f} : ¬ isGap c → (Piece.scan c (crlf cs)).1 = .fault f →
      (∃ f, (Piece.scan c cs).1 = .fault f) ∨
        isQuote c ∧ '\n' ∈ (c :: cs).take (Piece.scan c cs).2 → SideBySide (c :: cs)

theorem ne_newline {c : Char} (hgap : ¬ isGap c) : c ≠ '\n' := by
  rintro rfl
  exact hgap rfl

section
variable {c : Char} {front tail rest : List Char}

/-- what is told by the first line alone -/
theorem SideBySide.of_line (hgap : ¬ isGap c) (hn : '\n' ∉ front)
    (h : Piece.scan c (front ++ tail) = Piece.scan c front)
    (h' : Piece.scan c (front ++ crlf tail) = Piece.scan c front)
    (ih : ∀ rest, rest <:+ front ++ tail → SideBySide rest) :
    SideBySide (c :: (front ++ tail)) := by
  have hpos := Piece.scan_pos c front
  have hle := Piece.scan_le c front
  have hne := Piece.scan_ne_gap (Bool.eq_false_iff.2 hgap) front
  generalize Piece.scan c front = found at h h' hpos hle hne
  obtain ⟨piece, n⟩ := found
  dsimp only at hpos hle hne
  obtain ⟨n, rfl⟩ := Nat.exists_eq_add_one_of_ne_zero (Nat.ne_of_gt hpos)
  have hsame : piece.Alike piece → SideBySide (c :: (front ++ tail)) := by
    intro halike
    have hsplit : front ++ tail = front.take n ++ (front.drop n ++ tail) := by
      rw [← List.append_assoc, List.take_append_drop]
    have htake : '\n' ∉ front.take n := fun hmem => hn (List.mem_of_mem_take hmem)
    have hlen : (c :: front.take n).length = n + 1 := List.length_take_of_le (l := c :: front) hle
    have hcrlf : crlf (front.take n) ++ crlf (front.drop n ++ tail) = front ++ crlf tail := by
      rw [← crlf_append, ← hsplit, crlf_line hn]
    have hrest : SideBySide (front.drop n ++ tail) := by
      apply ih
      rw [hsplit]
      exact List.suffix_append ..
    rw [hsplit, ← hlen] at h
    rw [← hcrlf, ← hlen] at h'
    rw [hsplit]
    refine .same hgap halike h ?_ (fun _ => htake) hrest
    rw [h', crlf_of_notMem htake]
  cases piece with
  | gap => exact absurd rfl hne
  | comment => exact hsame trivial
  | token t => exact hsame rfl
  | fault f =>
    rw [← crlf_line hn] at h'
    exact .fault hgap (congrArg Prod.fst h') (.inl ⟨f, congrArg Prod.fst h⟩)

theorem scanQuoted_fault {quote : Char} {text : List Char}
    (h : (text.drop (runLength quote text)).head? ≠ some quote) :
    ∃ f, (Piece.scanQuoted quote text).1 = .fault f := by
  unfold Piece.scanQuoted
  dsimp only
  rw [if_neg h]
  split
  · exact ⟨_, rfl⟩
  · exact ⟨_, rfl⟩

omit c in
theorem newline_mem_take (c : Char) (rest : List Char) {n : Nat} (h : front.length + 1 < n) :
    '\n' ∈ (c :: (front ++ '\n' :: rest)).take n := by
  have hprefix : c :: (front ++ ['\n']) <+: (c :: (front ++ '\n' :: rest)).take n := by
    rw [List.prefix_take_iff]
    refine ⟨⟨rest, ?_⟩, ?_⟩
    · rw [List.cons_append, List.append_assoc, List.singleton_append]
    · rw [List.length_cons, List.length_append, List.length_singleton]
      exact h
  exact hprefix.subset (by simp)

theorem SideBySide.quoted (hq : isQuote c) (hn : '\n' ∉ front)
    (ih : ∀ r, r <:+ front ++ '\n' :: rest → SideBySide r) :
    SideBySide (c :: (front ++ '\n' :: rest)) := by
  have hgap := Piece.not_isGap_of_isQuote hq
  have hback := Piece.ne_of_isQuote hq (d := '\\') (by decide)
  have hnewline := Piece.ne_of_isQuote hq (d := '\n') (by decide)
  rcases runLength_line hq hn rest (crlf rest) with hclosed | ⟨hle, hline⟩
  · refine .of_line hgap hn ?_ ?_ ih
    · rw [Piece.scan_of_isQuote hq, Piece.scan_of_isQuote hq]
      exact Piece.scanQuoted_append_of_closed _ hback hclosed
    · rw [Piece.scan_of_isQuote hq, Piece.scan_of_isQuote hq]
      exact Piece.scanQuoted_append_of_closed _ hback hclosed
  · -- with a carriage return the string ends in front of the newline, where no quote closes it
    obtain ⟨f', hf'⟩ : ∃ f, (Piece.scanQuoted c (crlf (front ++ '\n' :: rest))).1 = .fault f := by
      refine scanQuoted_fault ?_
      have hdrop : (front ++ '\r' :: '\n' :: crlf rest).drop (front.length + 1) =
          '\n' :: crlf rest := by
        rw [← List.drop_drop, List.drop_left, List.drop_one, List.tail_cons]
      rw [crlf_line hn, crlf_newline, hline, hdrop]
      exact fun he => hnewline (Option.some.inj he).symm
    rw [← Piece.scan_of_isQuote hq] at hf'
    refine .fault hgap hf' ?_
    rw [Piece.scan_of_isQuote hq]
    by_cases hclosed : ((front ++ '\n' :: rest).drop
        (runLength c (front ++ '\n' :: rest))).head? = some c
    · have hlt : front.length < runLength c (front ++ '\n' :: rest) := by
        refine Nat.lt_of_le_of_ne hle fun he => ?_
        rw [← he, List.drop_left] at hclosed
        exact hnewline (Option.some.inj hclosed).symm
      unfold Piece.scanQuoted
      dsimp only
      rw [if_pos hclosed]
      split
      · exact .inr ⟨hq, newline_mem_take c rest (by omega)⟩
      · exact .inl ⟨_, rfl⟩
    · exact .inl (scanQuoted_fault hclosed)

/-! ## comments and long strings -/

/-- a long bracket is closed behind the same text in both -/
theorem closed_or_open (level : Nat) (body : List Char) :
    (indexOf? (closer level) body = none ∧ indexOf? (closer level) (crlf body) = none) ∨
      ∃ inner rest, body = inner ++ (closer level ++ rest) ∧
        indexOf? (closer level) body = some inner.length ∧
        indexOf? (closer level) (crlf body) = some (crlf inner).length := by
  have hcrlf := indexOf?_closer_crlf level body
  cases h : indexOf? (closer level) body with
  | none =>
    rw [h] at hcrlf
    exact .inl ⟨rfl, hcrlf⟩
  | some n =>
    obtain ⟨inner, rest, rfl, rfl⟩ := exists_of_indexOf? h
    rw [h, Option.map_some, List.take_left] at hcrlf
    exact .inr ⟨inner, rest, rfl, rfl, hcrlf⟩

/-- what a long bracket opens, where `read` tells the piece by what the bracket holds -/
theorem SideBySide.bracket {lead body : List Char} (level : Nat) (read : List Char → Piece)
    (hgap : ¬ isGap c) (hquote : ¬ isQuote c) (hlead : '\n' ∉ lead) (hr : '\r' ∉ body)
    (hopen : ∀ {body}, indexOf? (closer level) body = none →
      ∃ f, (Piece.scan c (lead ++ body)).1 = .fault f)
    (hclosed : ∀ {body n}, indexOf? (closer level) body = some n →
      Piece.scan c (lead ++ body) = (read (body.take n), (c :: lead).length + n + (level + 2)))
    (halike : ∀ {inner}, '\r' ∉ inner → (read inner).Alike (read (crlf inner)))
    (ih : ∀ r, r <:+ body → SideBySide r) : SideBySide (c :: (lead ++ body)) := by
  rcases closed_or_open level body with ⟨h, h'⟩ | ⟨inner, rest, rfl, h, h'⟩
  · obtain ⟨f, hf⟩ := hopen h'
    rw [← crlf_line hlead] at hf
    exact .fault hgap hf (.inl (hopen h))
  · have hs := hclosed h
    have hs' := hclosed h'
    rw [List.take_left] at hs
    rw [crlf_append, List.take_left] at hs'
    have hsplit : lead ++ (inner ++ (closer level ++ rest)) =
        lead ++ (inner ++ closer level) ++ rest := by
      rw [List.append_assoc, List.append_assoc]
    have hinner : '\r' ∉ inner := fun hmem => hr (List.mem_append_left _ hmem)
    have hrest : SideBySide rest := by
      apply ih
      rw [← List.append_assoc]
      exact List.suffix_append ..
    rw [hsplit]
    refine .same hgap (halike hinner) ?_ ?_ (fun hq => absurd hq hquote) hrest
    · rw [← hsplit, hs]
      refine congrArg (Prod.mk _) ?_
      simp only [List.length_cons, List.length_append, closer_length]
      omega
    · rw [← crlf_append, ← hsplit, crlf_line hlead, crlf_append, hs', crlf_line hlead, crlf_append,
        crlf_closer]
      refine congrArg (Prod.mk _) ?_
      simp only [List.length_cons, List.length_append, closer_length]
      omega

theorem SideBySide.blockComment {level : Nat} {body : List Char} (hr : '\r' ∉ body)
    (ih : ∀ r, r <:+ body → SideBySide r) : SideBySide ('-' :: ('-' :: opener level ++ body)) := by
  have hlead : '\n' ∉ '-' :: opener level :=
    List.not_mem_cons_of_ne_of_not_mem (by decide) (notMem_opener (by decide) (by decide) level)
  apply bracket level (fun _ => .comment) (by decide) (by decide) hlead hr
  · intro body h
    refine ⟨.unterminatedComment, ?_⟩
    rw [List.cons_append, Piece.scan_dashes, Piece.scanComment_opener, h]
  · intro body n h
    rw [List.cons_append, Piece.scan_dashes, Piece.scanComment_opener, h]
    refine congrArg (Prod.mk _) ?_
    simp only [List.length_cons, opener_length]
    omega
  · exact fun _ => trivial
  · exact ih

theorem withNewlines_longText {inner : List Char} (hr : '\r' ∉ inner) :
    withNewlines (.ofList (longText (crlf inner))) = withNewlines (.ofList (longText inner)) := by
  unfold withNewlines
  rw [String.toList_ofList, String.toList_ofList, longText_crlf hr,
    readBreaks_crlf (notMem_longText hr), readBreaks_of_notMem (notMem_longText hr)]

theorem SideBySide.longString {level : Nat} {body : List Char} (hr : '\r' ∉ body)
    (ih : ∀ r, r <:+ body → SideBySide r) :
    SideBySide ('[' :: ((opener level).tail ++ body)) := by
  have hlead : '\n' ∉ (opener level).tail := fun hmem =>
    notMem_opener (by decide) (by decide) level (List.mem_of_mem_tail hmem)
  have hopener : ∀ text, '[' :: ((opener level).tail ++ text) = opener level ++ text :=
    fun _ => rfl
  apply bracket level (fun inner => .token (.string (.ofList (longText inner)))) (by decide)
    (by decide) hlead hr
  · intro body h
    refine ⟨.unterminatedString, ?_⟩
    rw [Piece.scan_bracket, hopener, Piece.scanBracket_opener, h]
  · intro body n h
    rw [Piece.scan_bracket, hopener, Piece.scanBracket_opener, h]
    refine congrArg (Prod.mk _) ?_
    show level + 2 + n + (level + 2) = (opener level).length + n + (level + 2)
    rw [opener_length]
  · exact fun hinner => congrArg Token.string (withNewlines_longText hinner)
  · exact ih

/-- the carriage return belongs to the comment, and the newline stands behind it in both texts -/
theorem SideBySide.lineComment {line : List Char} (hn : '\n' ∉ line) (hl : level? line = none)
    (ih : SideBySide rest) : SideBySide ('-' :: ('-' :: line ++ '\n' :: rest)) := by
  have hscan : ∀ {text : List Char}, level? text = none → '\n' ∉ text → ∀ rest,
      Piece.scan '-' ('-' :: text ++ '\n' :: rest) = (.comment, ('-' :: '-' :: text).length) := by
    intro text hl hn rest
    have hcomment := Piece.scanComment_line hl hn
    have hends : (Piece.scanComment text).1.EndsAt '\n' := by
      rw [hcomment]
      rfl
    rw [Piece.scan_append rest hends, Piece.scan_dashes, hcomment, Nat.add_comm]
    rfl
  have hlevel : level? (line ++ ['\r']) = none := by
    rw [level?_append rfl, hl]
  have hreturn : '\n' ∉ line ++ ['\r'] := by simp [hn]
  exact .comment (by decide) (List.not_mem_cons_of_ne_of_not_mem (by decide) hn)
    (hscan hl hn rest) (hscan hlevel hreturn (crlf rest)) ih

/-! ## all texts -/

theorem sideBySide_cons {cs : List Char} (hgap : ¬ isGap c) (hr : '\r' ∉ c :: cs)
    (ih : ∀ r, r <:+ cs → SideBySide r) : SideBySide (c :: cs) := by
  obtain ⟨front, tail, rfl, hn, htail⟩ := exists_line cs
  rcases htail with rfl | ⟨rest, rfl⟩
  · refine .of_line hgap hn ?_ ?_ ih
    · rw [List.append_nil]
    · rw [crlf_nil, List.append_nil]
  by_cases hquote : isQuote c
  · exact .quoted hquote hn ih
  by_cases hcomment : c = '-' ∧ front.head? = some '-'
  · obtain ⟨rfl, hhead⟩ := hcomment
    obtain ⟨line, rfl⟩ := List.head?_eq_some_iff.1 hhead
    have hline : '\n' ∉ line := fun hmem => hn (List.mem_cons_of_mem _ hmem)
    cases hl : level? line with
    | none =>
      refine .lineComment hline hl (ih rest ?_)
      exact (List.suffix_cons _ rest).trans (List.suffix_append ..)
    | some level =>
      obtain ⟨body, rfl⟩ := level?_eq_some_iff.1 hl
      have hsplit : '-' :: (opener level ++ body) ++ '\n' :: rest =
          '-' :: opener level ++ (body ++ '\n' :: rest) := by
        rw [List.cons_append, List.append_assoc, List.cons_append]
      rw [hsplit] at ih hr ⊢
      have hbody : '\r' ∉ body ++ '\n' :: rest := fun hmem =>
        hr (List.mem_cons_of_mem _ (List.mem_append_right _ hmem))
      exact .blockComment hbody fun r hsuffix => ih r (hsuffix.trans (List.suffix_append ..))
  cases hl : level? (c :: front) with
  | none =>
    refine .of_line hgap hn ?_ ?_ ih
    · exact Piece.scan_append_of_plain rest rfl hgap hquote hcomment hl
    · exact Piece.scan_append_of_plain _ rfl hgap hquote hcomment hl
  | some level =>
    obtain ⟨body, hbody⟩ := level?_eq_some_iff.1 hl
    obtain ⟨hc, hfront⟩ := List.cons.inj hbody
    obtain rfl : c = '[' := hc.symm
    obtain rfl : front = (opener level).tail ++ body := hfront.symm
    rw [List.append_assoc] at ih hr ⊢
    have hbody' : '\r' ∉ body ++ '\n' :: rest := fun hmem =>
      hr (List.mem_cons_of_mem _ (List.mem_append_right _ hmem))
    exact .longString hbody' fun r hsuffix => ih r (hsuffix.trans (List.suffix_append ..))

end

theorem sideBySide {text : List Char} (h : '\r' ∉ text) : SideBySide text := by
  induction hn : text.length using Nat.strongRecOn generalizing text with
  | ind n ih =>
    cases text with
    | nil => exact .nil
    | cons c cs =>
      have hrest : ∀ r, r <:+ cs → SideBySide r := by
        intro r hsuffix
        have hlen := hsuffix.length_le
        rw [List.length_cons] at hn
        exact ih r.length (by omega)
          (fun hmem => h (List.mem_cons_of_mem _ (hsuffix.subset hmem))) rfl
      by_cases hgap : isGap c
      · exact .gap hgap (hrest cs List.suffix_rfl)
      · exact sideBySide_cons hgap h hrest

end ResourceOrder.Manifest
