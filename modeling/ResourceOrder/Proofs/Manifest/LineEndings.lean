import ResourceOrder.Proofs.Manifest.Likeness
import ResourceOrder.Proofs.Manifest.SideBySide

/-!
# Files with other line endings

* `Scrap.OnOneLine`   the piece is not a string between quotes, or it holds no newline;
* `QuotesOnOneLine`   so it is with all pieces of a text.

A string between quotes can hold a newline only behind a backslash, and in front of a carriage
return and a newline the backslash escapes the wrong one.  So the text with a carriage return in
front of each newline is faultless exactly if the text is and its quotes stay on one line
(`SideBySide.faultless_crlf`), and then its lexemes look the same (`SideBySide.seen_crlf`).  **With
the other line endings a manifest says the same, unless a string between quotes goes on behind the
end of a line; then it is no manifest any more** (`interpret_crlf`).
-/

namespace ResourceOrder.Manifest

/-! ## strings on one line -/

/-- if the piece begins with a quote, no newline is in it -/
def Scrap.OnOneLine (s : Scrap) : Prop := ∀ q cs, s.text = q :: cs → isQuote q → '\n' ∉ cs

def QuotesOnOneLine (text : List Char) : Prop := ∀ s ∈ pieces text, s.OnOneLine

theorem onOneLine_gap (c : Char) (cs : List Char) (h : isGap c) :
    Scrap.OnOneLine ⟨.gap, c :: cs⟩ := by
  intro q ds htext hq
  obtain rfl : c = q := List.head_eq_of_cons_eq htext
  exact absurd h (Piece.not_isGap_of_isQuote hq)

/-- a string that holds a newline is not on one line -/
theorem not_quotesOnOneLine {c : Char} {cs : List Char} (hq : isQuote c)
    (hmem : '\n' ∈ (c :: cs).take (Piece.scan c cs).2) : ¬ QuotesOnOneLine (c :: cs) := by
  intro h
  have hfirst := (forall_pieces_cons.1 h).1
  obtain ⟨n, hn⟩ := Nat.exists_eq_add_one_of_ne_zero (Nat.ne_of_gt (Piece.scan_pos c cs))
  rw [hn, List.take_succ_cons] at hfirst hmem
  refine hfirst c _ rfl hq (List.mem_of_ne_of_mem ?_ hmem)
  exact (ne_newline (Piece.not_isGap_of_isQuote hq)).symm

/-! ## faults -/

theorem Piece.Alike.ne_fault {piece piece' : Piece} (h : piece.Alike piece') (f : Fault) :
    piece ≠ .fault f ∧ piece' ≠ .fault f := by
  cases piece <;> cases piece' <;> first | exact h.elim | exact ⟨nofun, nofun⟩

theorem faultless_crlf_gap {c : Char} (h : isGap c) (cs : List Char) :
    Faultless (crlf (c :: cs)) ↔ Faultless (crlf cs) := by
  by_cases hc : c = '\n'
  · subst hc
    rw [crlf_newline, faultless_gap (by decide), faultless_gap (by decide)]
  · rw [crlf_cons hc, faultless_gap h]

theorem crlf_comment {c : Char} {cs : List Char} (hgap : ¬ isGap c) (hn : '\n' ∉ cs)
    (rest : List Char) :
    crlf (c :: (cs ++ '\n' :: rest)) = c :: (cs ++ ['\r'] ++ '\n' :: crlf rest) := by
  rw [crlf_cons (ne_newline hgap), crlf_line hn, crlf_newline, List.append_assoc]
  rfl

theorem SideBySide.faultless_crlf {text : List Char} (h : SideBySide text) :
    Faultless (crlf text) ↔ Faultless text ∧ QuotesOnOneLine text := by
  induction h with
  | nil => exact iff_of_true faultless_nil ⟨faultless_nil, by simp [QuotesOnOneLine, pieces_nil]⟩
  | @gap c cs hc _ ih =>
    have hquotes : QuotesOnOneLine (c :: cs) ↔ QuotesOnOneLine cs :=
      forall_pieces_gap hc onOneLine_gap cs
    rw [faultless_crlf_gap hc, faultless_gap hc, hquotes, ih]
  | @same c cs rest piece piece' hgap halike hs hs' hquote _ ih =>
    have hfault : Faultless (c :: (cs ++ rest)) ↔ Faultless rest :=
      (forall_pieces_of_scan hs).trans (and_iff_right fun f => (halike.ne_fault f).1)
    have hfault' : Faultless (c :: (crlf cs ++ crlf rest)) ↔ Faultless (crlf rest) :=
      (forall_pieces_of_scan hs').trans (and_iff_right fun f => (halike.ne_fault f).2)
    have honeLine : QuotesOnOneLine (c :: (cs ++ rest)) ↔ QuotesOnOneLine rest := by
      refine (forall_pieces_of_scan hs).trans (and_iff_right ?_)
      intro q ds htext hq
      obtain ⟨rfl, rfl⟩ := List.cons.inj htext
      exact hquote hq
    rw [crlf_cons (ne_newline hgap), crlf_append, hfault', hfault, honeLine, ih]
  | @comment c cs rest hgap hn hs hs' _ ih =>
    have hfault : Faultless (c :: (cs ++ '\n' :: rest)) ↔ Faultless rest :=
      (forall_pieces_of_scan hs).trans
        ((and_iff_right fun _ => nofun).trans (faultless_gap (by decide) rest))
    have hfault' : Faultless (c :: (cs ++ ['\r'] ++ '\n' :: crlf rest)) ↔ Faultless (crlf rest) :=
      (forall_pieces_of_scan hs').trans
        ((and_iff_right fun _ => nofun).trans (faultless_gap (by decide) (crlf rest)))
    have honeLine : QuotesOnOneLine (c :: (cs ++ '\n' :: rest)) ↔ QuotesOnOneLine rest := by
      refine (forall_pieces_of_scan hs).trans ((and_iff_right ?_).trans
        (forall_pieces_gap (by decide) onOneLine_gap rest))
      intro q ds htext _
      rw [← (List.cons.inj htext).2]
      exact hn
    rw [crlf_comment hgap hn, hfault', hfault, honeLine, ih]
  | @fault c cs f hgap hf' hf =>
    refine iff_of_false (fun h => ?_) fun h => ?_
    · rw [crlf_cons (ne_newline hgap)] at h
      exact (faultless_cons.1 h).1 f hf'
    · rcases hf with ⟨f, hf⟩ | ⟨hquote, hmem⟩
      · exact (faultless_cons.1 h.1).1 f hf
      · exact not_quotesOnOneLine hquote hmem h.2

/-! ## lexemes -/

theorem lexemesAt_crlf_gap {c : Char} (h : isGap c) (cs : List Char) {p q : Position}
    (hpq : p.SameSpot q) :
    ∃ q', (p.step c).SameSpot q' ∧ lexemesAt q (crlf (c :: cs)) = lexemesAt q' (crlf cs) := by
  have hstep : (p.step c).SameSpot (q.advance (crlf [c])) := hpq.advance [c]
  refine ⟨_, hstep, ?_⟩
  by_cases hc : c = '\n'
  · subst hc
    rw [crlf_newline, lexemesAt_gap (by decide), lexemesAt_gap (by decide)]
    rfl
  · rw [crlf_cons hc, lexemesAt_gap h, crlf_cons hc]
    rfl

theorem Piece.Alike.seen {piece piece' : Piece} (h : piece.Alike piece') (s s' : Span)
    (hline : s'.line = s.line) (hcolumn : s'.column = s.column) :
    (lexeme? (piece', s')).toList.map (Lexeme.seen withNewlines) =
      (lexeme? (piece, s)).toList.map (Lexeme.seen withNewlines) := by
  match piece, piece', h with
  | .token t, .token t', h =>
    show [(t'.mapText withNewlines, s'.line, s'.column)] =
      [(t.mapText withNewlines, s.line, s.column)]
    rw [hline, hcolumn, show t'.mapText withNewlines = t.mapText withNewlines from h]
  | .comment, .comment, _ => rfl

/-- the lexemes of both texts look the same where both stand in the same spot -/
theorem SideBySide.seen_crlf {text : List Char} (h : SideBySide text)
    (hf : Faultless (crlf text)) {p q : Position} (hpq : p.SameSpot q) :
    (lexemesAt q (crlf text)).map (Lexeme.seen withNewlines) =
      (lexemesAt p text).map (Lexeme.seen withNewlines) := by
  induction h generalizing p q with
  | nil => rw [crlf_nil, lexemesAt_nil, lexemesAt_nil]
  | @gap c cs hc _ ih =>
    rw [faultless_crlf_gap hc] at hf
    obtain ⟨q', hstep, hlexemes⟩ := lexemesAt_crlf_gap hc cs hpq
    rw [hlexemes, lexemesAt_gap hc, ih hf hstep]
  | @same c cs rest piece piece' hgap halike hs hs' _ _ ih =>
    have hadvance := hpq.advance (c :: cs)
    rw [crlf_cons (ne_newline hgap), crlf_append] at hf
    rw [crlf_cons (ne_newline hgap)] at hadvance
    rw [crlf_cons (ne_newline hgap), crlf_append, lexemesAt_of_scan hs, lexemesAt_of_scan hs',
      List.map_append, List.map_append, ih ((forall_pieces_of_scan hs').1 hf).2 hadvance,
      halike.seen (.between p _) (.between q _) hpq.1 hpq.2]
  | @comment c cs rest hgap hn hs hs' _ ih =>
    have hadvance := hpq.advance (c :: cs ++ ['\n'])
    have hcrlf : crlf (c :: cs ++ ['\n']) = c :: (cs ++ ['\r']) ++ ['\n'] := by
      rw [List.cons_append, crlf_comment hgap hn, crlf_nil]
      rfl
    rw [hcrlf, Position.advance_append, Position.advance_append] at hadvance
    rw [crlf_comment hgap hn] at hf
    have hf' := ((forall_pieces_of_scan hs').1 hf).2
    rw [crlf_comment hgap hn, lexemesAt_of_scan hs, lexemesAt_of_scan hs',
      lexemesAt_gap (by decide), lexemesAt_gap (by decide)]
    exact ih ((faultless_gap (by decide) _).1 hf') hadvance
  | @fault c cs f hgap hf' _ =>
    rw [crlf_cons (ne_newline hgap)] at hf
    exact absurd hf' ((faultless_cons.1 hf).1 f)

/-! ## sources -/

/-- **With the other line endings a manifest says the same, and it is one exactly if no string
between quotes goes on behind the end of a line.** -/
theorem interpret_crlf {source : String} (h : '\r' ∉ source.toList) :
    ((∃ i', interpret (withCrlf source) = .ok i') ↔
      (∃ i, interpret source = .ok i) ∧ QuotesOnOneLine source.toList) ∧
    ∀ i i', interpret source = .ok i → interpret (withCrlf source) = .ok i' →
      i.Like withNewlines i' := by
  have hside := sideBySide h
  have htext : (withCrlf source).toList = crlf source.toList := String.toList_ofList
  have hfault : Faultless (withCrlf source).toList ↔
      Faultless source.toList ∧ QuotesOnOneLine source.toList := by
    rw [htext, hside.faultless_crlf]
  have hmain : Faultless (withCrlf source).toList →
      ((∃ i', interpret (withCrlf source) = .ok i') ↔ ∃ i, interpret source = .ok i) ∧
      ∀ i i', interpret source = .ok i → interpret (withCrlf source) = .ok i' →
        i.Like withNewlines i' := by
    intro hf
    apply interpret_of_seen (hfault.1 hf).1 hf
    rw [htext] at hf ⊢
    exact hside.seen_crlf hf ⟨rfl, rfl⟩
  refine ⟨⟨?_, ?_⟩, ?_⟩
  · intro ⟨i', h'⟩
    have hf := (interpret_eq_ok_iff.1 h').1
    exact ⟨(hmain hf).1.1 ⟨i', h'⟩, (hfault.1 hf).2⟩
  · intro ⟨⟨i, hi⟩, hquotes⟩
    have hf := hfault.2 ⟨(interpret_eq_ok_iff.1 hi).1, hquotes⟩
    exact (hmain hf).1.2 ⟨i, hi⟩
  · intro i i' hi hi'
    exact (hmain (interpret_eq_ok_iff.1 hi').1).2 i i' hi hi'

/-- a long string keeps its carriage return, but for the one at its head -/
theorem interpret_crlf_long :
    '\r' ∉ "name [[\na\nb]] -- c\nx = 1\n".toList ∧
      ∃ i i', interpret "name [[\na\nb]] -- c\nx = 1\n" = .ok i ∧
        interpret (withCrlf "name [[\na\nb]] -- c\nx = 1\n") = .ok i' ∧
        i.properties = .ofList [("name", .scalar "a\nb")] ∧
        i'.properties = .ofList [("name", .scalar "a\r\nb")] ∧
        i.Like withNewlines i' := by
  have h : '\r' ∉ "name [[\na\nb]] -- c\nx = 1\n".toList := by decide +kernel
  have hread : (interpret "name [[\na\nb]] -- c\nx = 1\n").toOption.map (·.properties) =
      some (.ofList [("name", .scalar "a\nb")]) := by
    decide +kernel
  have hread' : (interpret (withCrlf "name [[\na\nb]] -- c\nx = 1\n")).toOption.map
      (·.properties) = some (.ofList [("name", .scalar "a\r\nb")]) := by
    decide +kernel
  obtain ⟨i, hi, hp⟩ := toOption_map_eq_some_iff.1 hread
  obtain ⟨i', hi', hp'⟩ := toOption_map_eq_some_iff.1 hread'
  exact ⟨h, i, i', hi, hi', hp, hp', (interpret_crlf h).2 i i' hi hi'⟩

/-- an escaped newline is one character of a string, but with a carriage return in front of it the
string ends there -/
theorem interpret_crlf_escaped :
    '\r' ∉ "x 'a\\\nb'".toList ∧
      interpret "x 'a\\\nb'" = .ok ⟨.ofList [("x", .scalar "a\nb")], []⟩ ∧
      withCrlf "x 'a\\\nb'" = "x 'a\\\r\nb'" ∧
      interpret "x 'a\\\r\nb'" =
        .error ⟨.lexical .unterminatedString, 1, 3, "x 'a\\\r\nb'"⟩ := by
  decide +kernel

end ResourceOrder.Manifest
