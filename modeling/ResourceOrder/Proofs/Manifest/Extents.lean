import ResourceOrder.Proofs.Manifest.Covering

/-!
# Statements by themselves

A statement depends on nothing but its own text.

* `Framed`       the text begins with a token and ends with one;
* `Apart`        lexemes that are not empty and lie one behind the other.

The pieces of a part of a text that is cut between pieces are those that the text has there
(`pieces_front`, `pieces_back`), so lexemes that follow each other are the lexemes of a framed part
of the text (`exists_excerpt`).  **The statements of a source take up such parts, one behind the
other, with only semicolons outside them, and each part alone is a source with this one statement**
(`parse_excerpts`).
-/

namespace ResourceOrder.Manifest

/-! ## parts of a text -/

section
variable {text : List Char} {front back : List Scrap} (h : pieces text = front ++ back)
include h

theorem pieces_back : pieces (back.flatMap Scrap.text) = back := by
  induction front generalizing text with
  | nil =>
    rw [← List.nil_append back, ← h, text_pieces]
  | cons s front ih =>
    cases text with
    | nil =>
      rw [pieces_nil] at h
      cases h
    | cons c cs =>
      rw [pieces_cons] at h
      exact ih (List.cons.inj h).2

/-- a part at the head of a text has the pieces that it has there -/
theorem pieces_front (hfault : ∀ s ∈ front, ∀ f, s.piece ≠ .fault f) :
    pieces (front.flatMap Scrap.text) = front := by
  induction front generalizing text with
  | nil => exact pieces_nil
  | cons s front ih =>
    obtain ⟨hs, hfront⟩ := List.forall_mem_cons.1 hfault
    have hsplit := text_pieces text
    rw [h, List.flatMap_append, List.flatMap_cons] at hsplit
    cases text with
    | nil =>
      rw [pieces_nil] at h
      cases h
    | cons c cs =>
      rw [pieces_cons] at h
      obtain ⟨rfl, hrest⟩ := List.cons.inj h
      have hpos := Piece.scan_pos c cs
      have hle := Piece.scan_le c cs
      generalize hscan : Piece.scan c cs = found at *
      obtain ⟨piece, k⟩ := found
      obtain ⟨k, rfl⟩ := Nat.exists_eq_add_one_of_ne_zero (Nat.ne_of_gt hpos)
      dsimp only at *
      rw [List.take_succ_cons] at hsplit ⊢
      rw [List.flatMap_cons, List.cons_append]
      have hlen : (cs.take k).length = k := List.length_take_of_le (Nat.le_of_succ_le_succ hle)
      have hprefix : cs.take k ++ front.flatMap Scrap.text <+: cs :=
        ⟨back.flatMap Scrap.text, (List.cons.inj hsplit).2⟩
      have hcut := List.prefix_iff_eq_take.1 hprefix
      rw [List.length_append, hlen] at hcut
      -- the part in front is cut off behind the piece, or further on
      have hscan' := Piece.scan_take hs hscan
        (Nat.succ_le_succ (Nat.le_add_right k (front.flatMap Scrap.text).length))
      rw [← hcut] at hscan'
      rw [pieces_of_scan (hscan'.trans (by rw [List.length_cons, hlen])), ih hrest hfront]

end

/-! ## lexemes that follow each other -/

/-- the text begins with a token and ends with one -/
def Framed (text : List Char) : Prop :=
  ∃ t u, (pieces text).head?.map Scrap.piece = some (.token t) ∧
    (pieces text).getLast?.map Scrap.piece = some (.token u)

/-- the piece of one of the lexemes, with those in front of it and those behind it -/
theorem exists_of_lexemes {p : Position} {scraps : List Scrap} {front rest : List Lexeme}
    {x : Lexeme} (h : (place p scraps).filterMap lexeme? = front ++ x :: rest) :
    ∃ before word behind, scraps = before ++ ⟨.token x.token, word⟩ :: behind ∧
      (place p before).filterMap lexeme? = front ∧
      (place p (before ++ [⟨.token x.token, word⟩])).filterMap lexeme? = front ++ [x] := by
  induction scraps generalizing p front with
  | nil => exact absurd h.symm (List.append_ne_nil_of_right_ne_nil front (List.cons_ne_nil x rest))
  | cons s scraps ih =>
    obtain ⟨piece, word⟩ := s
    rw [place_cons] at h
    cases piece with
    | token t =>
      cases front with
      | nil =>
        obtain ⟨rfl, -⟩ := List.cons.inj h
        exact ⟨[], word, scraps, rfl, rfl, rfl⟩
      | cons y front =>
        obtain ⟨hy, hrest⟩ := List.cons.inj h
        obtain ⟨before, word', behind, rfl, hbefore, hupto⟩ := ih hrest
        subst hy
        exact ⟨⟨.token t, word⟩ :: before, word', behind, rfl, congrArg (List.cons _) hbefore,
          congrArg (List.cons _) hupto⟩
    | gap =>
      obtain ⟨before, word', behind, rfl, hbefore, hupto⟩ := ih h
      exact ⟨⟨.gap, word⟩ :: before, word', behind, rfl, hbefore, hupto⟩
    | comment =>
      obtain ⟨before, word', behind, rfl, hbefore, hupto⟩ := ih h
      exact ⟨⟨.comment, word⟩ :: before, word', behind, rfl, hbefore, hupto⟩
    | fault f =>
      obtain ⟨before, word', behind, rfl, hbefore, hupto⟩ := ih h
      exact ⟨⟨.fault f, word⟩ :: before, word', behind, rfl, hbefore, hupto⟩

/-- **Lexemes that follow each other are those of a framed part of the text.** -/
theorem exists_excerpt {text : List Char} (hfaultless : Faultless text) {p : Position}
    {front us back : List Lexeme} (h : lexemesAt p text = front ++ (us ++ back)) (hne : us ≠ []) :
    ∃ a mid b, text = a ++ (mid ++ b) ∧ Faultless mid ∧ Framed mid ∧
      lexemesAt (p.advance a) mid = us := by
  -- the pieces up to the last lexeme, and of these the ones from the first lexeme on
  have hlast : lexemesAt p text = (front ++ us.dropLast) ++ us.getLast hne :: back := by
    rw [h, List.append_assoc, ← List.singleton_append, ← List.append_assoc us.dropLast,
      List.dropLast_concat_getLast]
  obtain ⟨before, word, behind, hpieces, -, hupto⟩ := exists_of_lexemes hlast
  rw [List.append_assoc, List.dropLast_concat_getLast] at hupto
  obtain ⟨first, rest, rfl⟩ := List.exists_cons_of_ne_nil hne
  obtain ⟨outside, word', inside, hinside, hfront, -⟩ := exists_of_lexemes hupto
  have hsplit : pieces text = outside ++ (⟨.token first.token, word'⟩ :: inside ++ behind) := by
    rw [hpieces, List.append_cons, hinside, List.append_assoc]
  have hback := pieces_back hsplit
  have hfault : ∀ s ∈ (⟨.token first.token, word'⟩ :: inside : List Scrap),
      ∀ f, s.piece ≠ .fault f := by
    intro s hs
    refine hfaultless s ?_
    rw [hsplit]
    exact List.mem_append_right _ (List.mem_append_left _ hs)
  have hmid := pieces_front hback hfault
  refine ⟨outside.flatMap Scrap.text, (⟨.token first.token, word'⟩ :: inside).flatMap Scrap.text,
    behind.flatMap Scrap.text, ?_, ?_,
    ⟨first.token, ((first :: rest).getLast hne).token, ?_, ?_⟩, ?_⟩
  · rw [← List.flatMap_append, ← List.flatMap_append, ← hsplit, text_pieces]
  · rw [Faultless, hmid]
    exact hfault
  · rw [hmid]
    rfl
  · rw [hmid]
    have hend := congrArg List.getLast? hinside
    rw [List.getLast?_concat, List.getLast?_append_of_ne_nil _ (List.cons_ne_nil _ _)] at hend
    rw [← hend]
    rfl
  · rw [hinside, place_append, List.filterMap_append, hfront] at hupto
    rw [lexemesAt, hmid]
    exact List.append_cancel_left hupto

/-! ## places -/

/-- what a token of a text is does not depend on where the text stands -/
theorem map_token_lexemesAt (p q : Position) (text : List Char) :
    (lexemesAt p text).map Lexeme.token = (lexemesAt q text).map Lexeme.token := by
  have hplace : ∀ scraps p q, ((place p scraps).filterMap lexeme?).map Lexeme.token =
      ((place q scraps).filterMap lexeme?).map Lexeme.token := by
    intro scraps
    induction scraps with
    | nil => exact fun _ _ => rfl
    | cons s scraps ih =>
      intro p q
      obtain ⟨piece, word⟩ := s
      have hrest := ih (p.advance word) (q.advance word)
      cases piece with
      | token t => exact congrArg (List.cons t) hrest
      | gap => exact hrest
      | comment => exact hrest
      | fault f => exact hrest
  exact hplace (pieces text) p q

/-- the lexemes are not empty and lie one behind the other -/
structure Apart (ts : List Lexeme) : Prop where
  nonempty : ∀ t ∈ ts, t.span.start < t.span.stop
  ordered : ts.Pairwise fun t u => t.span.stop ≤ u.span.start

theorem apart_lexemesAt {text : List Char} (h : Faultless text) (p : Position) :
    Apart (lexemesAt p text) := by
  have hcovered := covered_lexemesAt h p
  constructor
  · intro t ht
    obtain ⟨front, word, back, -, ⟨c, cs, rfl, -⟩, hspan⟩ := hcovered.exists_of_mem ht
    have hpos := byteCount_pos (List.cons_ne_nil c cs)
    rw [hspan]
    show (p.advance front).offset < ((p.advance front).advance (c :: cs)).offset
    rw [Position.advance_offset _ (c :: cs)]
    omega
  · exact List.pairwise_map.1 (List.pairwise_append.1 hcovered.pairwise).1

section
variable {ts us : List Lexeme} {first last : Lexeme}

theorem Apart.append (h : Apart (ts ++ us)) : Apart ts ∧ Apart us ∧
    ∀ t ∈ ts, ∀ u ∈ us, t.span.stop ≤ u.span.start := by
  obtain ⟨hts, hus, hcross⟩ := List.pairwise_append.1 h.ordered
  exact ⟨⟨fun t ht => h.nonempty t (List.mem_append_left _ ht), hts⟩,
    ⟨fun t ht => h.nonempty t (List.mem_append_right _ ht), hus⟩, hcross⟩

theorem Apart.tail {t : Lexeme} (h : Apart (t :: ts)) : Apart ts :=
  (Apart.append (show Apart ([t] ++ ts) from h)).2.1

/-- the lexemes lie between the start of the first one and the stop of the last one -/
theorem Apart.within (h : Apart ts) (hf : ts.head? = some first) (hl : ts.getLast? = some last)
    {t : Lexeme} (ht : t ∈ ts) :
    first.span.start ≤ t.span.start ∧ t.span.stop ≤ last.span.stop := by
  constructor
  · obtain ⟨rest, rfl⟩ := List.head?_eq_some_iff.1 hf
    rcases List.mem_cons.1 ht with rfl | ht
    · exact Nat.le_refl _
    · have hlt := h.nonempty first (List.mem_cons_self ..)
      have hle := (List.pairwise_cons.1 h.ordered).1 t ht
      omega
  · obtain ⟨front, rfl⟩ := List.getLast?_eq_some_iff.1 hl
    rcases List.mem_append.1 ht with ht | ht
    · have hlt := h.nonempty last (List.mem_append_right _ (List.mem_singleton_self last))
      have hle := h.append.2.2 t ht last (List.mem_singleton_self last)
      omega
    · rw [List.mem_singleton.1 ht]

/-- together the first and the last of them start with the one and stop with the other -/
theorem Apart.merge (h : Apart ts) (hf : ts.head? = some first) (hl : ts.getLast? = some last) :
    first.span.merge last.span =
      ⟨first.span.start, last.span.stop, first.span.line, first.span.column⟩ := by
  have hstart := (h.within hf hl (List.mem_of_getLast? hl)).1
  have hstop := (h.within hf hl (List.mem_of_head? hf)).2
  unfold Span.merge
  dsimp only
  rw [if_pos hstart, Nat.min_eq_left hstart, Nat.max_eq_right hstop]

end

/-- the lexemes of a framed text reach from its start to its end -/
theorem Framed.extent {text : List Char} (h : Framed text) (hfaultless : Faultless text)
    (p : Position) :
    ∃ first last, (lexemesAt p text).head? = some first ∧
      (lexemesAt p text).getLast? = some last ∧
      first.span.merge last.span = .between p (p.advance text) := by
  obtain ⟨t, u, hhead, hlast⟩ := h
  obtain ⟨⟨piece, word⟩, hhead, rfl⟩ := Option.map_eq_some_iff.1 hhead
  obtain ⟨⟨piece, word'⟩, hlast, rfl⟩ := Option.map_eq_some_iff.1 hlast
  obtain ⟨rest, hrest⟩ := List.head?_eq_some_iff.1 hhead
  obtain ⟨front, hfront⟩ := List.getLast?_eq_some_iff.1 hlast
  have hfirst : (lexemesAt p text).head? = some ⟨t, .between p (p.advance word)⟩ := by
    rw [lexemesAt, hrest, place_cons]
    rfl
  have hend : (lexemesAt p text).getLast? =
      some ⟨u, .between (p.advance (front.flatMap Scrap.text)) (p.advance text)⟩ := by
    have htext := text_pieces text
    rw [hfront, List.flatMap_append, List.flatMap_singleton] at htext
    rw [lexemesAt, hfront, place_append, List.filterMap_append, place_cons,
      ← Position.advance_append, htext]
    exact List.getLast?_concat
  exact ⟨_, _, hfirst, hend, (apart_lexemesAt hfaultless p).merge hfirst hend⟩

/-! ## the statements of a manifest -/

namespace Grammar

section
variable {ts : List Lexeme} {ss : List Statement} (h : Chunk ts ss)
include h

/-- a statement takes up lexemes that follow each other -/
theorem Chunk.exists_of_mem {s : Statement} (hs : s ∈ ss) :
    ∃ front us back first last, ts = front ++ (us ++ back) ∧
      Stmt (back.head?.map Lexeme.token) (us.map Lexeme.token) s.kind ∧
      us.head? = some first ∧ us.getLast? = some last ∧
      s.span = first.span.merge last.span := by
  induction h with
  | nil => cases hs
  | @semicolon t ts ss _ _ ih =>
    obtain ⟨front, us, back, first, last, rfl, hstmt⟩ := ih hs
    exact ⟨t :: front, us, back, first, last, rfl, hstmt⟩
  | @statement first last us rest kind ss hstmt hf hl _ ih =>
    rcases List.mem_cons.1 hs with rfl | hs
    · exact ⟨[], us, rest, first, last, rfl, hstmt, hf, hl, rfl⟩
    · obtain ⟨front, vs, back, first', last', rfl, hstmt'⟩ := ih hs
      exact ⟨us ++ front, vs, back, first', last', (List.append_assoc ..).symm, hstmt'⟩

/-- statements start with the start of a lexeme and stop with the stop of one -/
theorem Chunk.ends_of_mem (ha : Apart ts) {s : Statement} (hs : s ∈ ss) :
    ∃ first ∈ ts, ∃ last ∈ ts, first.span.start < last.span.stop ∧
      s.span = ⟨first.span.start, last.span.stop, first.span.line, first.span.column⟩ := by
  obtain ⟨front, us, back, first, last, rfl, -, hf, hl, hspan⟩ := h.exists_of_mem hs
  have hus := ha.append.2.1.append.1
  have hlt := hus.nonempty first (List.mem_of_head? hf)
  have hle := (hus.within hf hl (List.mem_of_head? hf)).2
  have hmem : ∀ t ∈ us, t ∈ front ++ (us ++ back) := fun t ht =>
    List.mem_append_right _ (List.mem_append_left _ ht)
  exact ⟨first, hmem _ (List.mem_of_head? hf), last, hmem _ (List.mem_of_getLast? hl), by omega,
    hspan.trans (hus.merge hf hl)⟩

theorem Chunk.pairwise (ha : Apart ts) : ss.Pairwise fun s s' => s.span.stop ≤ s'.span.start := by
  induction h with
  | nil => exact .nil
  | semicolon _ _ ih => exact ih ha.tail
  | @statement first last us rest kind ss hstmt hf hl hrest ih =>
    obtain ⟨hus, harest, hcross⟩ := ha.append
    refine .cons (fun s hs => ?_) (ih harest)
    obtain ⟨first', hfirst', last', -, -, hspan⟩ := hrest.ends_of_mem harest hs
    rw [hus.merge hf hl, hspan]
    exact hcross last (List.mem_of_getLast? hl) first' hfirst'

/-- only semicolons stand outside the statements -/
theorem Chunk.exists_of_ne_semicolon (ha : Apart ts) {t : Lexeme} (ht : t ∈ ts)
    (hne : t.token ≠ .mark .semicolon) :
    ∃ s ∈ ss, s.span.start ≤ t.span.start ∧ t.span.stop ≤ s.span.stop := by
  induction h with
  | nil => cases ht
  | semicolon hsemicolon _ ih =>
    rcases List.mem_cons.1 ht with rfl | ht
    · exact absurd hsemicolon hne
    · exact ih ha.tail ht
  | @statement first last us rest kind ss hstmt hf hl _ ih =>
    obtain ⟨hus, harest, -⟩ := ha.append
    rcases List.mem_append.1 ht with ht | ht
    · refine ⟨_, List.mem_cons_self .., ?_⟩
      rw [hus.merge hf hl]
      exact hus.within hf hl ht
    · obtain ⟨s, hs, hwithin⟩ := ih harest ht
      exact ⟨s, List.mem_cons_of_mem _ hs, hwithin⟩

end

end Grammar

section
variable {source : String} {ss : List Statement} (h : parse source = .ok ss)
include h

/-- the text of a statement, and what the statement is by its tokens -/
theorem slice_of_mem {s : Statement} (hs : s ∈ ss) :
    Faultless (s.span.slice source.toList) ∧ Framed (s.span.slice source.toList) ∧
      Grammar.Stmt none ((lexemesAt .start (s.span.slice source.toList)).map Lexeme.token)
        s.kind := by
  obtain ⟨hfaultless, hchunk⟩ := parse_eq_ok.1 h
  obtain ⟨front, us, back, first, last, hsplit, hstmt, hf, hl, hspan⟩ := hchunk.exists_of_mem hs
  have hne : us ≠ [] := by
    rintro rfl
    cases hf
  obtain ⟨a, text, b, htext, hfaultless', hframed, rfl⟩ := exists_excerpt hfaultless hsplit hne
  obtain ⟨first', last', hf', hl', hmerge⟩ := hframed.extent hfaultless' (Position.start.advance a)
  rw [hf] at hf'
  rw [hl] at hl'
  cases hf'
  cases hl'
  have hslice : s.span.slice source.toList = text := by
    rw [hspan, hmerge, ← Position.advance_append, htext, ← List.append_assoc]
    exact Span.slice_between a text b
  rw [hslice, map_token_lexemesAt _ (Position.start.advance a)]
  exact ⟨hfaultless', hframed, hstmt.before Grammar.ends_none⟩

end

theorem parse_framed {text : List Char} {kind : StatementKind} (hfaultless : Faultless text)
    (hframed : Framed text)
    (hstmt : Grammar.Stmt none ((lexemesAt .start text).map Lexeme.token) kind) :
    parse (String.ofList text) = .ok [⟨kind, ⟨0, byteCount text, 1, 1⟩⟩] := by
  obtain ⟨first, last, hf, hl, hmerge⟩ := hframed.extent hfaultless .start
  have hspan : first.span.merge last.span = ⟨0, byteCount text, 1, 1⟩ := by
    rw [hmerge, Span.between, Position.start_advance_offset]
    rfl
  have hchunk : Grammar.Chunk (lexemesAt .start text ++ []) [⟨kind, first.span.merge last.span⟩] :=
    .statement hstmt hf hl .nil
  rw [List.append_nil, hspan] at hchunk
  rw [parse_eq_ok, String.toList_ofList]
  exact ⟨hfaultless, hchunk⟩

/-- **The statements of a source are not empty, lie one behind the other, start and stop with its
tokens and leave out only semicolons; and the text of each, alone, is a source that has the same
statement and nothing else.** -/
theorem parse_excerpts {source : String} {ss : List Statement} (h : parse source = .ok ss) :
    ∃ ts, tokenize source.toList = .ok ts ∧
      (∀ s ∈ ss, s.span.start < s.span.stop ∧
        (∃ t ∈ ts.list, t.span.position = s.span.position) ∧
        ∃ t ∈ ts.list, t.span.stop = s.span.stop) ∧
      ss.Pairwise (fun s s' => s.span.stop ≤ s'.span.start) ∧
      (∀ t ∈ ts.list, t.token ≠ .mark .semicolon →
        ∃ s ∈ ss, s.span.start ≤ t.span.start ∧ t.span.stop ≤ s.span.stop) ∧
      ∀ s ∈ ss, parse (String.ofList (s.span.slice source.toList)) =
        .ok [⟨s.kind, ⟨0, byteCount (s.span.slice source.toList), 1, 1⟩⟩] := by
  obtain ⟨hfaultless, hchunk⟩ := parse_eq_ok.1 h
  have hapart := apart_lexemesAt hfaultless .start
  refine ⟨_, tokenize_eq_ok_iff.2 ⟨hfaultless, rfl⟩, fun s hs => ?_, hchunk.pairwise hapart,
    fun t ht hne => hchunk.exists_of_ne_semicolon hapart ht hne, fun s hs => ?_⟩
  · obtain ⟨first, hfirst, last, hlast, hlt, hspan⟩ := hchunk.ends_of_mem hapart hs
    rw [hspan]
    exact ⟨hlt, ⟨first, hfirst, rfl⟩, last, hlast, rfl⟩
  · obtain ⟨hfaultless', hframed, hstmt⟩ := slice_of_mem h hs
    exact parse_framed hfaultless' hframed hstmt

/-- three statements without white space between them, the second one with a semicolon inside -/
theorem parse_excerpts_table :
    parse "name 'é';files\x7b1;2\x7dlocal a=b" = .ok
        [⟨.declaration "name" [.text "é"], ⟨0, 9, 1, 1⟩⟩,
          ⟨.declaration "files" [.table [.other, .other]], ⟨10, 20, 1, 10⟩⟩,
          ⟨.other, ⟨20, 29, 1, 20⟩⟩] ∧
      parse "files\x7b1;2\x7d" = .ok
        [⟨.declaration "files" [.table [.other, .other]], ⟨0, 10, 1, 1⟩⟩] := by
  have hparse : parse "name 'é';files\x7b1;2\x7dlocal a=b" = .ok
      [⟨.declaration "name" [.text "é"], ⟨0, 9, 1, 1⟩⟩,
        ⟨.declaration "files" [.table [.other, .other]], ⟨10, 20, 1, 10⟩⟩,
        ⟨.other, ⟨20, 29, 1, 20⟩⟩] := by
    decide +kernel
  obtain ⟨_, _, _, _, _, halone⟩ := parse_excerpts hparse
  have hfiles := halone ⟨.declaration "files" [.table [.other, .other]], ⟨10, 20, 1, 10⟩⟩
    (by simp)
  have hslice : Span.slice ⟨10, 20, 1, 10⟩ "name 'é';files\x7b1;2\x7dlocal a=b".toList =
      "files\x7b1;2\x7d".toList := by
    decide +kernel
  rw [hslice, String.ofList_toList] at hfiles
  exact ⟨hparse, hfiles⟩

end ResourceOrder.Manifest
