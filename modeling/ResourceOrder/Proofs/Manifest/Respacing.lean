import ResourceOrder.Proofs.Manifest.Cutting
import ResourceOrder.Proofs.Manifest.Shifting

/-!
# Sources with other gaps

What stands between the tokens of a source does not count, as long as it keeps them apart.

* `Trivia`     white space and comments, each line comment with the newline behind it;
* `Trailing`   trivia at the end of a source, where a comment may end without a newline;
* `Behind`     what stands behind a token: words in order, each with a gap in front of it;
* `Spaced`     a source that is made up of words in order with gaps between them;
* `Spells`     the text is that of the token, from its first character to its last one.

A lexeme covers a text that spells its token (`spells_of_mem_lexemesAt`), and texts that spell
tokens, with gaps between them, have these tokens (`Spaced.lexes`).  **A source that is made up of
the words of another one has its tokens, its statements, its properties and as many reports**
(`interpret_spaced`).
-/

namespace ResourceOrder.Manifest

/-! ## gaps -/

/-- two dashes and a long bracket that is closed at the end of the text and nowhere before -/
def IsBlockComment (text : List Char) : Prop :=
  ∃ level body, text = '-' :: '-' :: (opener level ++ body ++ closer level) ∧
    ∀ front back, body ++ closer level = front ++ closer level ++ back → back = []

/-- two dashes that no long bracket follows, and the rest of their line -/
def IsLineComment (text : List Char) : Prop :=
  ∃ body, text = '-' :: '-' :: body ∧ (∀ level, ¬ opener level <+: body) ∧ '\n' ∉ body

inductive Trivia : List Char → Prop
  | nil : Trivia []
  | gap {c text} : isGap c → Trivia text → Trivia (c :: text)
  | block {comment text} : IsBlockComment comment → Trivia text → Trivia (comment ++ text)
  | line {comment text} : IsLineComment comment → Trivia text → Trivia (comment ++ '\n' :: text)

/-- a gap at the end of a source -/
inductive Trailing : List Char → Prop
  | trivia {text} : Trivia text → Trailing text
  | line {text comment} : Trivia text → IsLineComment comment → Trailing (text ++ comment)

/-- words with gaps in front of them, behind another word; each gap begins with white space, and
only the last one may be empty -/
inductive Behind : List (List Char) → List Char → Prop
  | stop : Behind [] []
  | trailing {c gap} : isGap c → Trailing (c :: gap) → Behind [] (c :: gap)
  | word {c gap word words text} : isGap c → Trivia (c :: gap) → Behind words text →
      Behind (word :: words) (c :: gap ++ word ++ text)

/-- the words in order, with gaps around them -/
inductive Spaced : List (List Char) → List Char → Prop
  | gap {text} : Trailing text → Spaced [] text
  | word {gap word words text} : Trivia gap → Behind words text →
      Spaced (word :: words) (gap ++ word ++ text)

/-- the text is that of the token, from its first character to its last one -/
def Spells (t : Token) (text : List Char) : Prop :=
  ∃ c cs, text = c :: cs ∧ Piece.scan c cs = (.token t, text.length)

/-! ## comments -/

/-- a mark that is at the end of a text and nowhere before is found there -/
theorem indexOf?_of_first {mark body : List Char} (hne : mark ≠ [])
    (h : ∀ front back, body ++ mark = front ++ mark ++ back → back = []) (rest : List Char) :
    indexOf? mark (body ++ mark ++ rest) = some body.length := by
  induction body with
  | nil =>
    obtain ⟨c, cs, rfl⟩ := List.exists_cons_of_ne_nil hne
    refine if_pos (List.isPrefixOf_iff_prefix.2 ?_)
    exact List.prefix_append (c :: cs) rest
  | cons c cs ih =>
    have hlen : mark.length ≤ (c :: cs ++ mark).length := by
      rw [List.length_append]
      omega
    have hfirst : ¬ mark.isPrefixOf (c :: cs ++ mark ++ rest) := by
      rw [isPrefixOf_append_of_le rest hlen, List.isPrefixOf_iff_prefix]
      intro hprefix
      obtain ⟨back, hback⟩ := hprefix
      obtain rfl := h [] back hback.symm
      have hlen' := congrArg List.length hback
      rw [List.append_nil, List.length_append, List.length_cons] at hlen'
      omega
    have hrest := ih fun front back hsplit => h (c :: front) back (congrArg (c :: ·) hsplit)
    show indexOf? mark (c :: (cs ++ mark ++ rest)) = _
    rw [indexOf?]
    refine (if_neg hfirst).trans ?_
    rw [hrest]
    rfl

section
variable {text rest : List Char} {ts : List Token}

theorem scan_block (h : IsBlockComment text) (rest : List Char) :
    ∃ cs, text = '-' :: cs ∧ Piece.scan '-' (cs ++ rest) = (.comment, text.length) := by
  obtain ⟨level, body, rfl, hfirst⟩ := h
  have hne : closer level ≠ [] := List.cons_ne_nil _ _
  have hindex := indexOf?_of_first hne hfirst rest
  refine ⟨_, rfl, ?_⟩
  rw [List.cons_append, Piece.scan_dashes, List.append_assoc, List.append_assoc,
    Piece.scanComment_opener, ← List.append_assoc, hindex]
  refine congrArg (Prod.mk Piece.comment) ?_
  simp only [List.length_cons, List.length_append, opener_length, closer_length]
  omega

theorem scan_line (h : IsLineComment text) :
    ∃ cs, text = '-' :: cs ∧ Piece.scan '-' cs = (.comment, text.length) := by
  obtain ⟨body, rfl, hopener, hnewline⟩ := h
  have hlevel : level? body = none := by
    rw [Option.eq_none_iff_forall_ne_some]
    intro level hl
    exact hopener level (level?_eq_some_iff.1 hl)
  refine ⟨_, rfl, ?_⟩
  rw [Piece.scan_dashes, Piece.scanComment_line hlevel hnewline, Nat.add_comm]
  rfl

theorem Lexes.blockComment (hc : IsBlockComment text) (h : Lexes rest ts) :
    Lexes (text ++ rest) ts := by
  obtain ⟨cs, rfl, hs⟩ := scan_block hc rest
  exact .comment hs h

theorem Lexes.lineComment (hc : IsLineComment text) (h : Lexes rest ts) :
    Lexes (text ++ '\n' :: rest) ts := by
  obtain ⟨cs, rfl, hs⟩ := scan_line hc
  have hends : (Piece.scan '-' cs).1.EndsAt '\n' := by
    rw [hs]
    rfl
  have hs' := Piece.scan_append rest hends
  rw [hs] at hs'
  exact .comment hs' (h.gap (by decide))

theorem Lexes.lastComment (hc : IsLineComment text) : Lexes text [] := by
  obtain ⟨cs, rfl, hs⟩ := scan_line hc
  have hs' : Piece.scan '-' (cs ++ []) = (.comment, ('-' :: cs).length) := by
    rw [List.append_nil, hs]
  have hlexes := Lexes.comment hs' lexes_nil
  rw [List.append_nil] at hlexes
  exact hlexes

theorem Trivia.lexes (hc : Trivia text) (h : Lexes rest ts) : Lexes (text ++ rest) ts := by
  induction hc with
  | nil => exact h
  | gap hc _ ih => exact ih.gap hc
  | block hc _ ih =>
    rw [List.append_assoc]
    exact ih.blockComment hc
  | line hc _ ih =>
    rw [List.append_assoc]
    exact ih.lineComment hc

theorem Trailing.lexes (h : Trailing text) : Lexes text [] := by
  cases h with
  | trivia h =>
    have hlexes := h.lexes lexes_nil
    rw [List.append_nil] at hlexes
    exact hlexes
  | line h hc => exact h.lexes (.lastComment hc)

/-! ## words -/

theorem Lexes.word {t : Token} {word : List Char} (ht : Spells t word)
    (hgap : ∀ x, text.head? = some x → isGap x) (h : Lexes text ts) :
    Lexes (word ++ text) (t :: ts) := by
  obtain ⟨c, cs, rfl, hs⟩ := ht
  have hs' : Piece.scan c (cs ++ text) = (.token t, (c :: cs).length) := by
    cases text with
    | nil => rw [List.append_nil, hs]
    | cons x rest =>
      have hends : (Piece.scan c cs).1.EndsAt x := by
        rw [hs]
        exact hgap x rfl
      rw [Piece.scan_append rest hends, hs]
  refine .token hs' ?_
  show Lexes ((c :: cs ++ text).drop (c :: cs).length) ts
  rw [List.drop_left]
  exact h

theorem Behind.head {words : List (List Char)} (h : Behind words text) {x : Char}
    (hx : text.head? = some x) : isGap x := by
  cases h with
  | stop => cases hx
  | trailing hc _ =>
    cases hx
    exact hc
  | word hc _ _ =>
    cases hx
    exact hc

theorem Behind.lexes {words : List (List Char)} (hw : List.Forall₂ Spells ts words)
    (h : Behind words text) : Lexes text ts := by
  induction h generalizing ts with
  | stop =>
    cases hw
    exact lexes_nil
  | trailing _ hgap =>
    cases hw
    exact hgap.lexes
  | word hc hgap hrest ih =>
    cases hw with
    | cons ht hw =>
      rw [List.append_assoc]
      exact hgap.lexes ((ih hw).word ht fun x hx => hrest.head hx)

theorem Spaced.lexes {words : List (List Char)} (hw : List.Forall₂ Spells ts words)
    (h : Spaced words text) : Lexes text ts := by
  cases h with
  | gap hgap =>
    cases hw
    exact hgap.lexes
  | word hgap hrest =>
    cases hw with
    | cons ht hw =>
      rw [List.append_assoc]
      exact hgap.lexes ((hrest.lexes hw).word ht fun x hx => hrest.head hx)

end

/-! ## the words of a source -/

theorem spells_of_scan {c : Char} {cs : List Char} {t : Token} {n : Nat}
    (h : Piece.scan c cs = (.token t, n)) : Spells t ((c :: cs).take n) := by
  have hpos := Piece.scan_pos c cs
  have hle := Piece.scan_le c cs
  rw [h] at hpos hle
  obtain ⟨n, rfl⟩ := Nat.exists_eq_add_one_of_ne_zero (Nat.ne_of_gt hpos)
  have hlen : ((c :: cs).take (n + 1)).length = n + 1 := List.length_take_of_le hle
  refine ⟨c, cs.take n, rfl, ?_⟩
  rw [hlen]
  exact Piece.scan_take nofun h (Nat.le_refl _)

theorem spells_of_mem_pieces {text : List Char} {s : Scrap} {t : Token} (h : s ∈ pieces text)
    (ht : s.piece = .token t) : Spells t s.text := by
  fun_induction pieces text with
  | case1 => cases h
  | case2 c cs head ih =>
    rcases List.mem_cons.1 h with rfl | h
    · exact spells_of_scan (Prod.ext ht rfl)
    · exact ih h

theorem slice_of_mem_place (before : List Char) {scraps : List Scrap} {x : Piece × Span}
    (h : x ∈ place (Position.start.advance before) scraps) :
    ∃ s ∈ scraps, x.1 = s.piece ∧ x.2.slice (before ++ scraps.flatMap Scrap.text) = s.text := by
  induction scraps generalizing before with
  | nil => cases h
  | cons s rest ih =>
    rw [place_cons] at h
    rw [List.flatMap_cons, ← List.append_assoc]
    rcases List.mem_cons.1 h with rfl | h
    · refine ⟨s, List.mem_cons_self .., rfl, ?_⟩
      rw [← Position.advance_append]
      exact Span.slice_between before s.text _
    · rw [← Position.advance_append] at h
      obtain ⟨s', hs', hx⟩ := ih _ h
      exact ⟨s', List.mem_cons_of_mem _ hs', hx⟩

/-- what a lexeme covers spells its token -/
theorem spells_of_mem_lexemesAt {source : List Char} {l : Lexeme}
    (h : l ∈ lexemesAt .start source) : Spells l.token (l.span.slice source) := by
  obtain ⟨x, hx, hl⟩ := List.mem_filterMap.1 h
  obtain ⟨s, hs, hpiece, hslice⟩ := slice_of_mem_place [] hx
  rw [text_pieces, List.nil_append] at hslice
  obtain ⟨piece, span⟩ := x
  cases piece with
  | token t =>
    cases hl
    show Spells t (span.slice source)
    rw [hslice]
    exact spells_of_mem_pieces hs hpiece.symm
  | gap => cases hl
  | comment => cases hl
  | fault f => cases hl

/-! ## statements -/

/-- the statements depend on the tokens, and of their places only the statements' own -/
theorem Grammar.Chunk.exists_of_tokens {ts : List Lexeme} {ss : List Statement}
    (h : Chunk ts ss) {us : List Lexeme} (htokens : us.map Lexeme.token = ts.map Lexeme.token) :
    ∃ vs, Chunk us vs ∧ vs.map Statement.kind = ss.map Statement.kind := by
  induction h generalizing us with
  | nil =>
    rw [List.map_eq_nil_iff.1 htokens]
    exact ⟨[], .nil, rfl⟩
  | semicolon ht _ ih =>
    obtain ⟨u, us, rfl, hu, hus⟩ := List.map_eq_cons_iff.1 htokens
    obtain ⟨vs, hvs, hkinds⟩ := ih hus
    exact ⟨vs, .semicolon (hu.trans ht) hvs, hkinds⟩
  | @statement first last front rest kind ss hs hf hl _ ih =>
    rw [List.map_append] at htokens
    obtain ⟨front', rest', rfl, hfront, hrest⟩ := List.map_eq_append_iff.1 htokens
    obtain ⟨vs, hvs, hkinds⟩ := ih hrest
    have hhead : rest'.head?.map Lexeme.token = rest.head?.map Lexeme.token := by
      rw [← List.head?_map, hrest, List.head?_map]
    rw [← hhead, ← hfront] at hs
    have hne : front' ≠ [] := by
      rintro rfl
      rw [List.map_nil, eq_comm, List.map_eq_nil_iff] at hfront
      rw [hfront] at hf
      cases hf
    have hfirst := List.head?_eq_some_head hne
    have hlast := List.getLast?_eq_some_getLast hne
    refine ⟨_, .statement hs hfirst hlast hvs, ?_⟩
    rw [List.map_cons, List.map_cons, hkinds]

/-- the properties and the number of reports depend on the kinds of the statements alone -/
def told (kinds : List StatementKind) : Properties × Nat :=
  (.ofList (kinds.filterMap declared?), kinds.countP fun k => (declared? k).isNone)

theorem told_kinds (source : List Char) (ss : List Statement) :
    ((Interpretation.ofStatements source ss).properties,
      (Interpretation.ofStatements source ss).diagnostics.length) =
      told (ss.map Statement.kind) := by
  unfold Interpretation.ofStatements told
  rw [List.filterMap_map, List.countP_map, List.length_map, List.countP_eq_length_filter]
  rfl

theorem told_parse (source : String) :
    (interpret source).toOption.map (fun i => (i.properties, i.diagnostics.length)) =
      ((parse source).toOption.map (List.map Statement.kind)).map told := by
  unfold interpret
  cases parse source with
  | error e => rfl
  | ok ss => exact congrArg some (told_kinds source.toList ss)

theorem kinds_eq_some_iff {source : String} {ts : Lexemes} (h : tokenize source.toList = .ok ts)
    {kinds : List StatementKind} :
    (parse source).toOption.map (List.map Statement.kind) = some kinds ↔
      ∃ ss, Grammar.Chunk ts.list ss ∧ ss.map Statement.kind = kinds := by
  obtain ⟨hfaultless, rfl⟩ := tokenize_eq_ok_iff.1 h
  simp only [toOption_map_eq_some_iff, parse_eq_ok, and_iff_right hfaultless]

theorem kinds_of_tokens {source source' : String} {ts ts' : Lexemes}
    (h : tokenize source.toList = .ok ts) (h' : tokenize source'.toList = .ok ts')
    (htokens : ts'.list.map Lexeme.token = ts.list.map Lexeme.token) :
    (parse source').toOption.map (List.map Statement.kind) =
      (parse source).toOption.map (List.map Statement.kind) := by
  refine Option.ext fun kinds => ?_
  rw [kinds_eq_some_iff h, kinds_eq_some_iff h']
  constructor
  · intro hread
    obtain ⟨ss, hss, rfl⟩ := hread
    exact hss.exists_of_tokens htokens.symm
  · intro hread
    obtain ⟨ss, hss, rfl⟩ := hread
    exact hss.exists_of_tokens htokens

/-- **Other gaps between the tokens of a source change neither its tokens nor its statements, nor
what they declare.** -/
theorem interpret_spaced {source source' : String} {ts : Lexemes}
    (h : tokenize source.toList = .ok ts)
    (hspaced : Spaced (ts.list.map fun l => l.span.slice source.toList) source'.toList) :
    (∃ ts', tokenize source'.toList = .ok ts' ∧
        ts'.list.map Lexeme.token = ts.list.map Lexeme.token) ∧
      (parse source').toOption.map (List.map Statement.kind) =
        (parse source).toOption.map (List.map Statement.kind) ∧
      (interpret source').toOption.map (fun i => (i.properties, i.diagnostics.length)) =
        (interpret source).toOption.map fun i => (i.properties, i.diagnostics.length) := by
  obtain ⟨hfaultless, rfl⟩ := tokenize_eq_ok_iff.1 h
  have hwords : List.Forall₂ Spells
      ((lexemesAt .start source.toList).map Lexeme.token)
      ((lexemesAt .start source.toList).map fun l => l.span.slice source.toList) :=
    forall₂_maps_iff.2 fun l hl => spells_of_mem_lexemesAt hl
  obtain ⟨hfaultless', htokens⟩ := hspaced.lexes hwords
  have h' := tokenize_eq_ok_iff.2 ⟨hfaultless', rfl⟩
  have hkinds := kinds_of_tokens h h' (htokens .start)
  refine ⟨⟨_, h', htokens .start⟩, hkinds, ?_⟩
  rw [told_parse, told_parse, hkinds]

/-- white space and comments of both kinds between tokens that stood close together -/
theorem interpret_spaced_comments :
    ∃ ts, tokenize "name'a'b=1".toList = .ok ts ∧
      Spaced (ts.list.map fun l => l.span.slice "name'a'b=1".toList)
        "--[[']]name 'a' --'\n b = 1 --[".toList ∧
      (interpret "--[[']]name 'a' --'\n b = 1 --[").toOption.map
        (fun i => (i.properties, i.diagnostics.length)) =
          some (.ofList [("name", .scalar "a")], 1) := by
  have hread : (interpret "name'a'b=1").toOption.map
      (fun i => (i.properties, i.diagnostics.length)) =
        some (.ofList [("name", .scalar "a")], 1) := by
    decide +kernel
  have htokens : (tokenize "name'a'b=1".toList).toOption.map
      (fun ts => ts.list.map fun l => l.span.slice "name'a'b=1".toList) =
        some ["name".toList, "'a'".toList, ['b'], ['='], ['1']] := by
    decide +kernel
  obtain ⟨ts, hts, hwords⟩ := toOption_map_eq_some_iff.1 htokens
  have hblock : IsBlockComment "--[[']]".toList := by
    refine ⟨0, ['\''], rfl, fun front back h => ?_⟩
    match front, h with
    | [], h => cases h
    | [c], h =>
      cases h
      rfl
    | c :: d :: front, h =>
      have hlen := congrArg List.length h
      simp only [List.length_append, List.length_cons, List.length_nil, closer_length] at hlen
      omega
  -- no long bracket is as short as these comments
  have hline : ∀ c : Char, c ≠ '\n' → IsLineComment ['-', '-', c] := by
    intro c hc
    refine ⟨[c], rfl, fun level hopener => ?_, fun hmem => hc (List.mem_singleton.1 hmem).symm⟩
    have hlen := hopener.length_le
    rw [opener_length, List.length_singleton] at hlen
    omega
  have hspaced : Spaced (ts.list.map fun l => l.span.slice "name'a'b=1".toList)
      "--[[']]name 'a' --'\n b = 1 --[".toList := by
    have hspace : Trivia [' '] := .gap rfl .nil
    have hcomment : Trivia " --'\n ".toList := .gap rfl (.line (hline '\'' (by decide)) hspace)
    have hlast : Trailing " --[".toList := .line hspace (hline '[' (by decide))
    rw [hwords]
    exact .word (.block hblock .nil) (.word rfl hspace (.word rfl hcomment
      (.word rfl hspace (.word rfl hspace (.trailing rfl hlast)))))
  obtain ⟨_, _, hsame⟩ := interpret_spaced hts hspaced
  exact ⟨ts, hts, hspaced, hsame.trans hread⟩

end ResourceOrder.Manifest
