import ResourceOrder.Proofs.Manifest.Heads
import ResourceOrder.Proofs.Manifest.Places

/-!
# Nothing of a source is lost

A source with tokens is made up of the texts of its tokens and of gaps, in order and without a
character left over.

* `IsBoundary`         the byte count is that of a place between two characters;
* `bytesBetween`       the characters from one byte to another;
* `Lexemes.withEnd`    the tokens with their stretches, and behind them the end of the text;
* `stretches`          these stretches for themselves;
* `gapsBefore`         what stands in front of each stretch, from the end of the one before it;
* `Covered`            the text, which stands at a given place, is made up of these lexemes, with
                       gaps around them.

The scanner cuts a faultless text in this way (`covered_lexemesAt`).  **So the tokens of a source
lie one behind the other, between them are only white space and complete comments, and gaps and
tokens in turn are the source** (`tokenize_covers`).
-/

namespace ResourceOrder

/-! ## stretches of bytes -/

/-- the place with this many bytes in front of it is between two characters, or at an end -/
def IsBoundary (text : List Char) (n : Nat) : Prop :=
  ∃ before after, text = before ++ after ∧ byteCount before = n

/-- the characters of the text from one byte to another -/
def bytesBetween (start stop : Nat) (text : List Char) : List Char :=
  takeBytes (stop - start) (dropBytes start text)

theorem bytesBetween_append (a b c : List Char) :
    bytesBetween (byteCount a) (byteCount (a ++ b)) (a ++ (b ++ c)) = b := by
  unfold bytesBetween
  rw [byteCount_append, Nat.add_sub_cancel_left, dropBytes_append, takeBytes_append]

namespace Manifest

/-- what a list of tokens shows: each token with its stretch, and the end of the text, which is
empty and no token, behind the last one -/
def Lexemes.withEnd (ts : Lexemes) : List (Option Token × Span) :=
  ts.list.map (fun t => (some t.token, t.span)) ++ [(none, .point ts.stop)]

/-- the stretches of the lexemes, and the empty one at the end of the text -/
def stretches (ts : List Lexeme) (stop : Position) : List Span :=
  ts.map Lexeme.span ++ [.point stop]

/-- the characters in front of each stretch, from the given byte or from the end of the stretch
before it -/
def gapsBefore (source : List Char) (first : Nat) : List Span → List (List Char)
  | [] => []
  | s :: rest => bytesBetween first s.start source :: gapsBefore source s.stop rest

/-! ## texts made up of lexemes and gaps -/

/-- the text, which stands at `p`, is made up of the lexemes in order, with gaps around them -/
inductive Covered : Position → List Lexeme → List Char → Prop
  | stop {p : Position} {gap : List Char} : Trailing gap → Covered p [] gap
  | lexeme {p : Position} {gap word rest : List Char} {t : Lexeme} {ts : List Lexeme} :
      Trivia gap → Spells t.token word →
      t.span = .between (p.advance gap) ((p.advance gap).advance word) →
      Covered ((p.advance gap).advance word) ts rest → Covered p (t :: ts) (gap ++ (word ++ rest))

section
variable {a b text : List Char} {ts : List Lexeme}

theorem Trivia.append (ha : Trivia a) (hb : Trivia b) : Trivia (a ++ b) := by
  induction ha with
  | nil => exact hb
  | gap hc _ ih => exact .gap hc ih
  | block hc _ ih =>
    rw [List.append_assoc]
    exact .block hc ih
  | line hc _ ih =>
    rw [List.append_assoc]
    exact .line hc ih

theorem Trivia.trailing (ha : Trivia a) (hb : Trailing b) : Trailing (a ++ b) := by
  cases hb with
  | trivia hb => exact .trivia (ha.append hb)
  | line hb hc =>
    rw [← List.append_assoc]
    exact .line (ha.append hb) hc

theorem IsBlockComment.trivia (h : IsBlockComment a) : Trivia a := by
  have htrivia := Trivia.block h .nil
  rwa [List.append_nil] at htrivia

/-- a gap in front belongs to the one that is there -/
theorem Covered.front {p : Position} (ha : Trivia a) (h : Covered (p.advance a) ts text) :
    Covered p ts (a ++ text) := by
  cases h with
  | stop hgap => exact .stop (ha.trailing hgap)
  | lexeme hgap hword hspan hrest =>
    rw [← Position.advance_append p a] at hspan hrest
    rw [← List.append_assoc]
    exact .lexeme (ha.append hgap) hword hspan hrest

/-- **A faultless text is made up of its lexemes and gaps.** -/
theorem covered_lexemesAt (h : Faultless text) (p : Position) :
    Covered p (lexemesAt p text) text := by
  induction hlen : text.length using Nat.strongRecOn generalizing text p with
  | ind n ih =>
    cases text with
    | nil =>
      rw [lexemesAt_nil]
      exact .stop (.trivia .nil)
    | cons c cs =>
      rw [List.length_cons] at hlen
      by_cases hgap : isGap c
      · have hrest := ih cs.length (by omega) ((faultless_gap hgap cs).1 h) (p.step c) rfl
        rw [lexemesAt_gap hgap]
        exact hrest.front (a := [c]) (.gap hgap .nil)
      obtain ⟨hfault, hfaultless⟩ := faultless_cons.1 h
      have hne := Piece.scan_ne_gap (Bool.eq_false_iff.2 hgap) cs
      have hpos := Piece.scan_pos c cs
      have hsplit := List.take_append_drop (Piece.scan c cs).2 (c :: cs)
      have hdrop : ((c :: cs).drop (Piece.scan c cs).2).length < n := by
        rw [List.length_drop, List.length_cons]
        omega
      rw [lexemesAt_cons]
      generalize hscan : Piece.scan c cs = found at *
      obtain ⟨piece, k⟩ := found
      dsimp only at *
      cases piece with
      | gap => exact absurd rfl hne
      | fault f => exact absurd rfl (hfault f)
      | token t =>
        have hrest := ih _ hdrop hfaultless (p.advance ((c :: cs).take k)) rfl
        have hcovered := Covered.lexeme (t := ⟨t, _⟩) .nil (spells_of_scan hscan) rfl hrest
        rwa [List.nil_append, hsplit] at hcovered
      | comment =>
        show Covered p (lexemesAt (p.advance ((c :: cs).take k)) ((c :: cs).drop k)) (c :: cs)
        rcases Piece.isComment_of_scan hscan with hblock | ⟨hline, hend | ⟨rest, hend⟩⟩
        · have hrest := ih _ hdrop hfaultless (p.advance ((c :: cs).take k)) rfl
          have hcovered := hrest.front hblock.trivia
          rwa [hsplit] at hcovered
        · rw [hend, List.append_nil] at hsplit
          rw [hend, lexemesAt_nil, ← hsplit]
          exact .stop (.line .nil hline)
        · -- the newline behind the comment ends it, and the gap goes on behind the newline
          have hnewline : isGap '\n' := rfl
          rw [hend] at hfaultless hdrop hsplit
          rw [List.length_cons] at hdrop
          rw [hend, lexemesAt_gap hnewline]
          have hrest := ih rest.length (by omega) ((faultless_gap hnewline rest).1 hfaultless)
            ((p.advance ((c :: cs).take k)).step '\n') rfl
          have hfront : Trivia ((c :: cs).take k ++ ['\n']) := .line hline .nil
          have hcovered := Covered.front (p := p) hfront (by
            rw [Position.advance_append]
            exact hrest)
          rwa [List.append_assoc, List.singleton_append, hsplit] at hcovered

/-! ## what the stretches cover -/

/-- a lexeme covers a part of the text that spells its token -/
theorem Covered.exists_of_mem {p : Position} (h : Covered p ts text) {t : Lexeme} (ht : t ∈ ts) :
    ∃ front word back, text = front ++ (word ++ back) ∧ Spells t.token word ∧
      t.span = .between (p.advance front) ((p.advance front).advance word) := by
  induction h with
  | stop _ => cases ht
  | @lexeme p gap word rest u us _ hword hspan _ ih =>
    rcases List.mem_cons.1 ht with rfl | ht
    · exact ⟨gap, word, rest, rfl, hword, hspan⟩
    · obtain ⟨front, inner, back, rfl, hinner, hspan'⟩ := ih ht
      refine ⟨gap ++ (word ++ front), inner, back, ?_, hinner, ?_⟩
      · simp only [List.append_assoc]
      · rw [hspan', Position.advance_append, Position.advance_append]

/-! ## stretches in order -/

theorem stretches_cons (t : Lexeme) (ts : List Lexeme) (stop : Position) :
    stretches (t :: ts) stop = t.span :: stretches ts stop := rfl

theorem Covered.le_start {p : Position} (h : Covered p ts text) :
    ∀ s ∈ stretches ts (p.advance text), p.offset ≤ s.start := by
  induction h with
  | @stop p gap _ =>
    intro s hs
    rw [List.mem_singleton.1 hs]
    show p.offset ≤ (p.advance gap).offset
    rw [Position.advance_offset]
    exact Nat.le_add_right ..
  | @lexeme p gap word rest t us _ _ hspan _ ih =>
    intro s hs
    have hstart : t.span.start = p.offset + byteCount gap := by
      rw [hspan]
      exact Position.advance_offset p gap
    rw [Position.advance_append, Position.advance_append] at hs
    rcases List.mem_cons.1 hs with rfl | hs
    · omega
    · have hle := ih s hs
      rw [Position.advance_offset, Position.advance_offset] at hle
      omega

theorem Covered.pairwise {p : Position} (h : Covered p ts text) :
    (stretches ts (p.advance text)).Pairwise fun s s' => s.stop ≤ s'.start := by
  induction h with
  | stop _ => exact List.pairwise_singleton ..
  | lexeme _ _ hspan hrest ih =>
    rw [Position.advance_append, Position.advance_append]
    refine .cons (fun s hs => ?_) ih
    rw [hspan]
    exact hrest.le_start s hs

/-! ## gaps and tokens in turn -/

theorem slice_point (p : Position) (source : List Char) : (Span.point p).slice source = [] := by
  have hlength : (Span.point p).length = byteCount [] := Nat.sub_self _
  unfold Span.slice
  rw [hlength]
  exact takeBytes_append [] _

/-- the gaps are read off the stretches, and with the texts of the tokens they make up the text -/
theorem Covered.gaps (before : List Char) (h : Covered (Position.start.advance before) ts text) :
    ∃ gaps last,
      gapsBefore (before ++ text) (byteCount before)
        (stretches ts (Position.start.advance (before ++ text))) = gaps ++ [last] ∧
      (∀ gap ∈ gaps, Trivia gap) ∧ Trailing last ∧
      ((gaps ++ [last]).zipWith (· ++ ·)
        ((stretches ts (Position.start.advance (before ++ text))).map
          (·.slice (before ++ text)))).flatten = text := by
  generalize hp : Position.start.advance before = p at h
  induction h generalizing before with
  | @stop p gap hgap =>
    have hbetween := bytesBetween_append before gap []
    rw [List.append_nil] at hbetween
    refine ⟨[], gap, ?_, List.forall_mem_nil _, hgap, ?_⟩
    · show [bytesBetween _ (Position.start.advance (before ++ gap)).offset _] = [gap]
      rw [Position.start_advance_offset, hbetween]
    · show [gap ++ (Span.point _).slice _].flatten = gap
      rw [slice_point, List.append_nil, List.flatten_singleton]
  | @lexeme p gap word rest t us hgap hword hspan hrest ih =>
    rw [← hp, ← Position.advance_append, ← Position.advance_append] at hspan
    have hsplit : before ++ (gap ++ (word ++ rest)) = before ++ gap ++ word ++ rest := by
      simp only [List.append_assoc]
    have hslice : t.span.slice (before ++ gap ++ word ++ rest) = word := by
      rw [hspan]
      exact Span.slice_between (before ++ gap) word rest
    have hstart : t.span.start = byteCount (before ++ gap) := by
      rw [hspan]
      exact Position.start_advance_offset _
    have hstop : t.span.stop = byteCount (before ++ gap ++ word) := by
      rw [hspan]
      exact Position.start_advance_offset _
    have hbehind : Position.start.advance (before ++ gap ++ word) =
        (p.advance gap).advance word := by
      rw [Position.advance_append, Position.advance_append, hp]
    obtain ⟨gaps, last, hgaps, htrivia, hlast, hflat⟩ := ih _ hbehind
    refine ⟨gap :: gaps, last, ?_, List.forall_mem_cons.2 ⟨hgap, htrivia⟩, hlast, ?_⟩
    · rw [stretches_cons, gapsBefore, hstart, hstop, bytesBetween_append, hsplit, hgaps,
        List.cons_append]
    · rw [hsplit, stretches_cons, List.cons_append, List.map_cons, List.zipWith_cons_cons,
        List.flatten_cons, hslice, hflat, List.append_assoc]

end

/-! ## sources -/

theorem Lexemes.map_withEnd (ts : Lexemes) :
    ts.withEnd.map Prod.snd = stretches ts.list ts.stop := by
  rw [withEnd, List.map_append, List.map_map]
  rfl

theorem Lexemes.count_withEnd (ts : Lexemes) : (ts.withEnd.map Prod.fst).count none = 1 := by
  have hnone : none ∉ ts.list.map fun t => some t.token := by simp
  rw [withEnd, List.map_append, List.map_map, List.count_append]
  show (ts.list.map fun t => some t.token).count none + 1 = 1
  rw [List.count_eq_zero_of_not_mem hnone]

/-- **The tokens of a source cover characters that they show, one behind the other, and an empty
end stands behind the last character; between them are white space and complete comments; and gaps
and tokens in turn are the source.** -/
theorem tokenize_covers {source : List Char} {ts : Lexemes} (h : tokenize source = .ok ts) :
    ((ts.withEnd.map Prod.fst).count none = 1 ∧
      ts.withEnd.getLast? =
        some (none, ⟨byteCount source, byteCount source, ts.stop.line, ts.stop.column⟩)) ∧
    (∀ t ∈ ts.list, t.span.start < t.span.stop ∧ IsBoundary source t.span.start ∧
      IsBoundary source t.span.stop) ∧
    (ts.withEnd.map Prod.snd).Pairwise (fun s s' => s.stop ≤ s'.start) ∧
    (∃ gaps last, gapsBefore source 0 (ts.withEnd.map Prod.snd) = gaps ++ [last] ∧
      (∀ gap ∈ gaps, Trivia gap) ∧ Trailing last) ∧
    (∀ t ∈ ts.list, (∀ value, t.token ≠ .string value) →
      t.token.text.toList = t.span.slice source) ∧
    ((gapsBefore source 0 (ts.withEnd.map Prod.snd)).zipWith (· ++ ·)
      ((ts.withEnd.map Prod.snd).map (·.slice source))).flatten = source := by
  obtain ⟨hfaultless, rfl⟩ := tokenize_eq_ok_iff.1 h
  have hcovered := covered_lexemesAt hfaultless .start
  obtain ⟨gaps, last, hgaps, htrivia, hlast, hflat⟩ := hcovered.gaps []
  rw [Lexemes.map_withEnd]
  refine ⟨⟨Lexemes.count_withEnd _, ?_⟩, fun t ht => ?_, hcovered.pairwise,
    ⟨gaps, last, hgaps, htrivia, hlast⟩, fun t ht hstring => ?_, ?_⟩
  · rw [Lexemes.withEnd, List.getLast?_concat]
    show some (none, Span.mk (Position.start.advance source).offset
      (Position.start.advance source).offset _ _) = _
    rw [Position.start_advance_offset]
  · obtain ⟨front, word, back, rfl, ⟨c, cs, rfl, _⟩, hspan⟩ := hcovered.exists_of_mem ht
    have hpos := byteCount_pos (List.cons_ne_nil c cs)
    have hstart : t.span.start = byteCount front := by
      rw [hspan]
      exact Position.start_advance_offset front
    have hstop : t.span.stop = byteCount (front ++ c :: cs) := by
      rw [hspan, ← Position.advance_append]
      exact Position.start_advance_offset _
    refine ⟨?_, ⟨front, _, rfl, hstart.symm⟩, ⟨front ++ c :: cs, back, ?_, hstop.symm⟩⟩
    · rw [hstart, hstop, byteCount_append]
      omega
    · rw [List.append_assoc]
  · exact (spells_of_mem_lexemesAt ht).text_eq hstring
  · have hsource : gapsBefore source 0 (stretches (lexemesAt .start source)
        (Position.start.advance source)) = gaps ++ [last] := hgaps
    rw [hsource]
    exact hflat

/-- a comment between two tokens, and one behind the last of them -/
theorem tokenize_covers_comments :
    ∃ ts, tokenize "x--[[é]]'\\u{e9}' -- d".toList = .ok ts ∧
      ts.withEnd = [(some (.name "x"), ⟨0, 1, 1, 1⟩), (some (.string "é"), ⟨9, 17, 1, 9⟩),
        (none, ⟨22, 22, 1, 22⟩)] ∧
      gapsBefore "x--[[é]]'\\u{e9}' -- d".toList 0 (ts.withEnd.map Prod.snd) =
        [[], "--[[é]]".toList, " -- d".toList] ∧
      Trivia "--[[é]]".toList ∧ Trailing " -- d".toList ∧
      (ts.withEnd.map Prod.snd).Pairwise (fun s s' => s.stop ≤ s'.start) ∧
      ((gapsBefore "x--[[é]]'\\u{e9}' -- d".toList 0 (ts.withEnd.map Prod.snd)).zipWith (· ++ ·)
        ((ts.withEnd.map Prod.snd).map
          (·.slice "x--[[é]]'\\u{e9}' -- d".toList))).flatten =
        "x--[[é]]'\\u{e9}' -- d".toList := by
  have htokens : (tokenize "x--[[é]]'\\u{e9}' -- d".toList).toOption.map Lexemes.withEnd =
      some [(some (.name "x"), ⟨0, 1, 1, 1⟩), (some (.string "é"), ⟨9, 17, 1, 9⟩),
        (none, ⟨22, 22, 1, 22⟩)] := by
    decide +kernel
  obtain ⟨ts, hts, hends⟩ := toOption_map_eq_some_iff.1 htokens
  have hgapsBefore : gapsBefore "x--[[é]]'\\u{e9}' -- d".toList 0 (ts.withEnd.map Prod.snd) =
      [[], "--[[é]]".toList, " -- d".toList] := by
    rw [hends]
    decide +kernel
  obtain ⟨_, _, hpairwise, ⟨gaps, last, hgaps, htrivia, hlast⟩, _, hflat⟩ := tokenize_covers hts
  have hsplit : gaps ++ [last] = [[], "--[[é]]".toList] ++ [" -- d".toList] :=
    hgaps.symm.trans hgapsBefore
  obtain ⟨rfl, hlastEq⟩ := List.append_inj' hsplit rfl
  obtain rfl := List.singleton_inj.1 hlastEq
  exact ⟨ts, hts, hends, hgapsBefore, htrivia _ (List.mem_cons_of_mem _ List.mem_cons_self), hlast,
    hpairwise, hflat⟩

end Manifest

end ResourceOrder
