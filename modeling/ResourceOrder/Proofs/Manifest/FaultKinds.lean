import ResourceOrder.Proofs.Manifest.Literals

/-!
# What each fault is about

* `Quoted`         a complete string between quotes, with this body, stands at the head of the text;
* `EndsEscaped`    the text begins with a quote and this body, which ends with an escaped quote, and
                   no quote closes it;
* `Begins`         white space, a comment or a token begins with the head of the text;
* `Fits`           the fault that the head of the text shows, one case for each cause.

The scanner reports a fault at the head of a text exactly if it fits (`Piece.scan_eq_fault_iff`).
**So every fault of a source is the only one that fits the text where it stands**
(`fault_fits`).

Two of the cases are told by what the scanner has read and not by what is missing.  A body that
ends with an escaped quote looks closed, and the string is reported for its escapes.  A bracket
with equality signs behind it is read on as the opener of a long string, and if no second bracket
follows the first one is no mark either.
-/

namespace ResourceOrder.Manifest

/-! ## the causes -/

/-- the text begins with two quotes and this body between them -/
def Quoted (quote : Char) (body text : List Char) : Prop :=
  isQuote quote ∧ IsBody quote body ∧ ∃ rest, text = quote :: (body ++ quote :: rest)

/-- the text begins with a quote and this body, whose last character is an escaped quote; then it
ends, if need be behind a lone backslash, or its line does -/
def EndsEscaped (quote : Char) (body text : List Char) : Prop :=
  isQuote quote ∧ IsBody quote body ∧ body.getLast? = some quote ∧
    ∃ rest, text = quote :: (body ++ rest) ∧
      (rest = [] ∨ rest = ['\\'] ∨ rest.head? = some '\n')

/-- white space, a name, a number, a string or a mark begins with the head of the text; comments
and long strings begin with marks -/
def Begins (text : List Char) : Prop :=
  (∃ c ∈ text.head?, isGap c ∨ isNameStart c ∨ c.isDigit ∨ isQuote c) ∨
    ∃ m : Mark, m.text.toList <+: text

/-- what is wrong at the head of the text -/
inductive Fits : List Char → Fault → Prop
  | comment {level : Nat} {body : List Char} : ¬ closer level <:+: body →
      Fits ('-' :: '-' :: (opener level ++ body)) .unterminatedComment
  | escape {quote : Char} {body text : List Char} : Quoted quote body text →
      Escape.decode body = none →
      Fits text (.invalidEscape (String.ofList (quote :: (body ++ [quote]))))
  | escapedQuote {quote : Char} {body text : List Char} : EndsEscaped quote body text →
      Fits text (.invalidEscape (String.ofList (quote :: body)))
  | string {quote : Char} {cs : List Char} : isQuote quote →
      (∀ body, ¬ Quoted quote body (quote :: cs)) →
      (∀ body, ¬ EndsEscaped quote body (quote :: cs)) →
      Fits (quote :: cs) .unterminatedString
  | longString {level : Nat} {body : List Char} : ¬ closer level <:+: body →
      Fits (opener level ++ body) .unterminatedString
  | character {c : Char} {cs : List Char} : ¬ Begins (c :: cs) →
      Fits (c :: cs) (.unexpectedCharacter c)
  | equalitySigns {cs : List Char} : (∀ level, ¬ opener level <+: '[' :: '=' :: cs) →
      Fits ('[' :: '=' :: cs) (.unexpectedCharacter '[')

section
variable {quote : Char} {body body' rest text : List Char}

/-- a text that stops, but not at a quote -/
theorem breaks_iff (hq : isQuote quote) :
    rest = [] ∨ rest = ['\\'] ∨ rest.head? = some '\n' ↔
      Stops quote rest ∧ rest.head? ≠ some quote := by
  constructor
  · rintro (rfl | rfl | hline)
    · exact ⟨.inl rfl, nofun⟩
    · exact ⟨.inr (.inl rfl), fun he => ne_backslash_of_isQuote hq (Option.some.inj he).symm⟩
    · refine ⟨.inr (.inr (.inr hline)), fun he => ?_⟩
      rw [he] at hline
      exact Piece.ne_of_isQuote hq rfl (Option.some.inj hline)
  · intro ⟨hstops, hclosed⟩
    exact hstops.imp_right (Or.imp_right (Or.resolve_left · hclosed))

/-- what closes a string leaves nothing open -/
theorem Quoted.not_endsEscaped (h : Quoted quote body text) : ¬ EndsEscaped quote body' text := by
  obtain ⟨hq, hbody, rest, rfl⟩ := h
  rintro ⟨-, hbody', -, rest', hsplit, hbreaks⟩
  obtain ⟨hstops, hclosed⟩ := (breaks_iff hq).1 hbreaks
  obtain ⟨-, rfl⟩ := run_unique (ne_backslash_of_isQuote hq) hbody (.inr (.inr (.inl rfl))) hbody'
    hstops (List.cons.inj hsplit).2
  exact hclosed rfl

end

/-! ## what begins a text -/

section
variable {c : Char} {cs : List Char}

theorem Mark.longest?_eq_none_iff {text : List Char} :
    Mark.longest? text = none ↔ ∀ m : Mark, ¬ m.text.toList <+: text := by
  unfold Mark.longest?
  rw [List.find?_eq_none]
  constructor
  · intro h m hm
    exact h m (Mark.mem_all m) (List.isPrefixOf_iff_prefix.2 hm)
  · intro h m _ hm
    exact h m (List.isPrefixOf_iff_prefix.1 hm)

/-- one character is enough for the mark that it is -/
theorem begins_of_mark (m : Mark) (hm : m.text.toList = [c]) : Begins (c :: cs) :=
  .inr ⟨m, hm ▸ ⟨cs, rfl⟩⟩

theorem begins_of_startsNumber (h : startsNumber (c :: cs)) : Begins (c :: cs) := by
  rcases startsNumber_iff.1 h with hdigit | ⟨rfl, -⟩
  · exact .inl ⟨c, rfl, .inr (.inr (.inl hdigit))⟩
  · exact begins_of_mark .dot rfl

end

namespace Piece

section
variable {c : Char} {cs ds : List Char} {f : Fault}

/-! ## from the scanner to the cause -/

theorem fits_of_scanQuoted (hq : isQuote c) (h : (scanQuoted c cs).1 = .fault f) :
    Fits (c :: cs) f := by
  obtain ⟨body, rest, rfl, hbody, hstops⟩ := exists_run c cs
  by_cases hclosed : rest.head? = some c
  · obtain ⟨after, rfl⟩ := List.head?_eq_some_iff.1 hclosed
    rw [scanQuoted_closed hq hbody] at h
    cases hdecode : Escape.decode body with
    | some value =>
      rw [ofBody_of_some hdecode] at h
      cases h
    | none =>
      rw [ofBody_of_none hdecode] at h
      cases h
      exact .escape ⟨hq, hbody, after, rfl⟩ hdecode
  · rw [scanQuoted_open hq hbody hstops hclosed] at h
    by_cases hlast : body.getLast? = some c
    · rw [if_pos hlast] at h
      cases h
      exact .escapedQuote ⟨hq, hbody, hlast, rest, rfl, (breaks_iff hq).2 ⟨hstops, hclosed⟩⟩
    · rw [if_neg hlast] at h
      cases h
      have hunique : ∀ {body' rest' : List Char}, IsBody c body' → Stops c rest' →
          c :: (body ++ rest) = c :: (body' ++ rest') → body = body' ∧ rest = rest' :=
        fun hbody' hstops' hsplit => run_unique (ne_backslash_of_isQuote hq) hbody hstops hbody'
          hstops' (List.cons.inj hsplit).2
      refine .string hq (fun body' hquoted => ?_) (fun body' hescaped => ?_)
      · obtain ⟨-, hbody', rest', hsplit⟩ := hquoted
        obtain ⟨-, rfl⟩ := hunique hbody' (.inr (.inr (.inl rfl))) hsplit
        exact hclosed rfl
      · obtain ⟨-, hbody', hlast', rest', hsplit, hbreaks⟩ := hescaped
        obtain ⟨rfl, -⟩ := hunique hbody' ((breaks_iff hq).1 hbreaks).1 hsplit
        exact hlast hlast'

theorem fits_of_scanComment (h : (scanComment ds).1 = .fault f) : Fits ('-' :: '-' :: ds) f := by
  cases hl : level? ds with
  | none =>
    unfold scanComment at h
    rw [hl] at h
    cases h
  | some level =>
    obtain ⟨body, rfl⟩ := level?_eq_some_iff.1 hl
    rw [scanComment_opener] at h
    cases hi : indexOf? (closer level) body with
    | some n =>
      rw [hi] at h
      cases h
    | none =>
      rw [hi] at h
      cases h
      exact .comment (indexOf?_eq_none_iff.1 hi)

theorem scanBracket_of_none (hl : level? ('[' :: cs) = none) :
    (scanBracket ('[' :: cs)).1 =
      if cs.head? = some '=' then .fault (.unexpectedCharacter '[')
      else .token (.mark .leftBracket) := by
  unfold scanBracket
  rw [hl]
  cases cs with
  | nil => rfl
  | cons d ds =>
    rw [List.head?_cons, List.tail_cons]
    by_cases hd : d = '='
    · subst hd
      rw [List.takeWhile_cons_of_pos (by decide), List.length_cons]
      rfl
    · rw [List.takeWhile_cons_of_neg (by rwa [beq_iff_eq]),
        if_neg fun he => hd (Option.some.inj he)]
      rfl

theorem fits_of_scanBracket (h : (scanBracket ('[' :: cs)).1 = .fault f) : Fits ('[' :: cs) f := by
  cases hl : level? ('[' :: cs) with
  | none =>
    rw [scanBracket_of_none hl] at h
    split_ifs at h with hequals
    cases h
    obtain ⟨ds, rfl⟩ := List.head?_eq_some_iff.1 hequals
    refine .equalitySigns fun level hopener => ?_
    rw [level?_eq_some_iff.2 hopener] at hl
    cases hl
  | some level =>
    obtain ⟨body, hbody⟩ := level?_eq_some_iff.1 hl
    rw [← hbody, scanBracket_opener] at h
    rw [← hbody]
    cases hi : indexOf? (closer level) body with
    | some n =>
      rw [hi] at h
      cases h
    | none =>
      rw [hi] at h
      cases h
      exact .longString (indexOf?_eq_none_iff.1 hi)

theorem fits_of_scan (h : (scan c cs).1 = .fault f) : Fits (c :: cs) f := by
  have hfound := scan_found c cs
  generalize scan c cs = found at h hfound
  cases hfound with
  | quoted hq => exact fits_of_scanQuoted hq h
  | comment hc hcs =>
    subst hc hcs
    exact fits_of_scanComment h
  | bracket hc =>
    subst hc
    exact fits_of_scanBracket h
  | nothing hgap hword hnumber hquote _ hmark =>
    cases h
    refine .character fun hbegins => ?_
    rcases hbegins with ⟨d, hd, hclass⟩ | ⟨m, hm⟩
    · obtain rfl := Option.some.inj hd
      rcases hclass with hgap' | hword' | hdigit | hquote'
      · exact hgap hgap'
      · exact hword hword'
      · exact hnumber (startsNumber_iff.2 (.inl hdigit))
      · exact hquote hquote'
    · exact Mark.longest?_eq_none_iff.1 hmark m hm
  | gap _ => cases h
  | word _ => cases h
  | number _ => cases h
  | mark _ _ _ _ => cases h

/-! ## from the cause to the scanner -/

theorem scan_of_not_begins (h : ¬ Begins (c :: cs)) :
    (scan c cs).1 = .fault (.unexpectedCharacter c) := by
  have hfound := scan_found c cs
  generalize scan c cs = found at hfound
  cases hfound with
  | gap hgap => exact absurd (.inl ⟨c, rfl, .inl hgap⟩) h
  | word hword => exact absurd (.inl ⟨c, rfl, .inr (.inl hword)⟩) h
  | number hnumber => exact absurd (begins_of_startsNumber hnumber) h
  | quoted hq => exact absurd (.inl ⟨c, rfl, .inr (.inr (.inr hq))⟩) h
  | comment hc _ => exact absurd (begins_of_mark .minus (hc ▸ rfl)) h
  | bracket hc => exact absurd (begins_of_mark .leftBracket (hc ▸ rfl)) h
  | @mark m _ _ _ hmark =>
    refine absurd (.inr ⟨m, ?_⟩) h
    rw [Mark.text_of_longest? hmark]
    exact List.take_prefix _ _
  | nothing _ _ _ _ _ _ => rfl

theorem scan_of_fits (h : Fits (c :: cs) f) : (scan c cs).1 = .fault f := by
  generalize htext : c :: cs = text at h
  cases h with
  | comment hnone =>
    obtain ⟨rfl, rfl⟩ := List.cons.inj htext
    rw [scan_dashes, scanComment_opener, indexOf?_eq_none_iff.2 hnone]
  | escape hquoted hdecode =>
    obtain ⟨hq, hbody, rest, rfl⟩ := hquoted
    obtain ⟨rfl, rfl⟩ := List.cons.inj htext
    rw [scan_of_isQuote hq, scanQuoted_closed hq hbody, ofBody_of_none hdecode]
  | escapedQuote hescaped =>
    obtain ⟨hq, hbody, hlast, rest, rfl, hbreaks⟩ := hescaped
    obtain ⟨rfl, rfl⟩ := List.cons.inj htext
    obtain ⟨hstops, hclosed⟩ := (breaks_iff hq).1 hbreaks
    rw [scan_of_isQuote hq, scanQuoted_open hq hbody hstops hclosed, if_pos hlast]
  | string hq hquoted hescaped =>
    obtain ⟨rfl, rfl⟩ := List.cons.inj htext
    obtain ⟨body, rest, rfl, hbody, hstops⟩ := exists_run c cs
    have hclosed : rest.head? ≠ some c := by
      intro hclosed
      obtain ⟨after, rfl⟩ := List.head?_eq_some_iff.1 hclosed
      exact hquoted body ⟨hq, hbody, after, rfl⟩
    have hlast : body.getLast? ≠ some c := fun hlast =>
      hescaped body ⟨hq, hbody, hlast, rest, rfl, (breaks_iff hq).2 ⟨hstops, hclosed⟩⟩
    rw [scan_of_isQuote hq, scanQuoted_open hq hbody hstops hclosed, if_neg hlast]
  | longString hnone =>
    obtain rfl : c = '[' := Option.some.inj (congrArg List.head? htext)
    rw [scan_bracket, htext, scanBracket_opener, indexOf?_eq_none_iff.2 hnone]
  | character hbegins =>
    obtain ⟨rfl, rfl⟩ := List.cons.inj htext
    exact scan_of_not_begins hbegins
  | equalitySigns hopener =>
    obtain ⟨rfl, rfl⟩ := List.cons.inj htext
    have hl : ∀ level, level? _ ≠ some level := fun level hl =>
      hopener level (level?_eq_some_iff.1 hl)
    rw [scan_bracket, scanBracket_of_none (Option.eq_none_iff_forall_ne_some.2 hl)]
    rfl

/-- **The scanner reports a fault at the head of a text exactly if it fits.** -/
theorem scan_eq_fault_iff : (scan c cs).1 = .fault f ↔ Fits (c :: cs) f :=
  ⟨fits_of_scan, scan_of_fits⟩

end

end Piece

/-! ## sources -/

theorem piece_of_lexError? {x : Piece × Span} {e : LexError} (h : lexError? x = some e) :
    x.1 = .fault e.fault := by
  obtain ⟨piece, span⟩ := x
  cases piece with
  | fault f =>
    cases h
    rfl
  | gap => cases h
  | comment => cases h
  | token t => cases h

/-- **Every fault of a source covers what the scanner takes up there, and it is the one that fits
the text where it stands.** -/
theorem fault_fits {source : List Char} {faults : Faults} (h : tokenize source = .error faults) :
    ∀ e ∈ faults.toList, ∃ before c cs, source = before ++ c :: cs ∧
      e.span = .between (Position.start.advance before)
        ((Position.start.advance before).advance ((c :: cs).take (Piece.scan c cs).2)) ∧
      ∀ f, e.fault = f ↔ Fits (c :: cs) f := by
  intro e he
  rw [toList_of_tokenize h] at he
  obtain ⟨x, hx, he⟩ := List.mem_filterMap.1 he
  obtain ⟨before, c, cs, hsplit, hpiece, hspan⟩ := exists_of_mem_place_pieces hx
  refine ⟨before, c, cs, hsplit, (span_of_lexError? he).trans hspan, fun f => ?_⟩
  rw [← Piece.scan_eq_fault_iff, ← hpiece, piece_of_lexError? he, Piece.fault.injEq]

/-- a character that begins nothing, an unknown escape and an open comment, and behind its dashes
the bracket, which opens a string then -/
theorem fault_fits_mixed :
    ∃ faults, tokenize "~ 'a\\q' --[[".toList = .error faults ∧
      faults.toList.map LexError.fault =
        [.unexpectedCharacter '~', .invalidEscape "'a\\q'", .unterminatedComment,
          .unterminatedString] ∧
      ∀ e ∈ faults.toList, ∃ before text, "~ 'a\\q' --[[".toList = before ++ text ∧
        e.span.start = byteCount before ∧ Fits text e.fault := by
  have h : tokenize "~ 'a\\q' --[[".toList =
      .error ⟨⟨.unexpectedCharacter '~', ⟨0, 1, 1, 1⟩⟩,
        [⟨.invalidEscape "'a\\q'", ⟨2, 7, 1, 3⟩⟩, ⟨.unterminatedComment, ⟨8, 10, 1, 9⟩⟩,
          ⟨.unterminatedString, ⟨10, 12, 1, 11⟩⟩]⟩ := by
    decide +kernel
  refine ⟨_, h, rfl, fun e he => ?_⟩
  obtain ⟨before, c, cs, hsplit, hspan, hfits⟩ := fault_fits h e he
  refine ⟨before, c :: cs, hsplit, ?_, (hfits _).1 rfl⟩
  rw [hspan]
  exact Position.start_advance_offset before

/-- **An escaped quote at the end is taken for a quote that closes the string**: the fault names
the escapes, although no complete string stands there. -/
theorem invalidEscape_unclosed :
    tokenize "'\\'".toList = .error ⟨⟨.invalidEscape "'\\'", ⟨0, 3, 1, 1⟩⟩, []⟩ ∧
      ∀ quote body, ¬ Quoted quote body "'\\'".toList := by
  refine ⟨by decide +kernel, fun quote body hquoted => ?_⟩
  obtain ⟨rest, hsplit⟩ := hquoted.2.2
  obtain rfl : '\'' = quote := (List.cons.inj hsplit).1
  exact hquoted.not_endsEscaped ⟨rfl, .escape .nil, rfl, [], rfl, .inl rfl⟩

end ResourceOrder.Manifest
