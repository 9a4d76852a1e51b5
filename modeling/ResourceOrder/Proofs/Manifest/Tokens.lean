import ResourceOrder.Manifest.Interpretation
import ResourceOrder.Proofs.Manifest.Parsing
import ResourceOrder.Proofs.Manifest.Scanning

/-!
# The tokens of a text

* `Faultless`   no piece of the text is a fault;
* `lexemesAt`   the tokens of a text with their places, where the text stands at a given place;
* `Lexes`       a text without faults and its tokens.

A text has lexemes exactly if it is faultless (`tokenize_eq_ok_iff`), and it is interpreted exactly
if these lexemes make a manifest (`interpret_eq_ok_iff`).  Gaps do not count
(`lexemesAt_gap`, `faultless_gap`), and the lexemes of a text that a newline ends are the same
whatever follows: **what comes after the newline only adds its own** (`lexemesAt_append`,
`faultless_append`).
-/

namespace ResourceOrder.Manifest

/-- no piece of the text is a fault -/
def Faultless (text : List Char) : Prop := ∀ s ∈ pieces text, ∀ f, s.piece ≠ .fault f

/-- the tokens of a text that stands at `p`, with their places -/
def lexemesAt (p : Position) (text : List Char) : List Lexeme :=
  (place p (pieces text)).filterMap lexeme?

/-! ## tokenizing -/

theorem lexError?_eq_none_iff {piece : Piece} {span : Span} :
    lexError? (piece, span) = none ↔ ∀ f, piece ≠ .fault f := by
  cases piece with
  | gap => exact iff_of_true rfl nofun
  | comment => exact iff_of_true rfl nofun
  | token t => exact iff_of_true rfl nofun
  | fault f => exact iff_of_false nofun fun h => h f rfl

theorem faults_place_eq_nil_iff (p : Position) (scraps : List Scrap) :
    (place p scraps).filterMap lexError? = [] ↔ ∀ s ∈ scraps, ∀ f, s.piece ≠ .fault f := by
  induction scraps generalizing p with
  | nil => exact iff_of_true rfl fun s hs => absurd hs (List.not_mem_nil)
  | cons s rest ih =>
    have hrest := ih (p.advance s.text)
    rw [List.filterMap_eq_nil_iff] at hrest ⊢
    rw [place_cons, List.forall_mem_cons, List.forall_mem_cons, lexError?_eq_none_iff, hrest]

theorem tokenize_eq_ok_iff {source : List Char} {ts : Lexemes} :
    tokenize source = .ok ts ↔
      Faultless source ∧ ts = ⟨lexemesAt .start source, Position.start.advance source⟩ := by
  have hfaults : (placedPieces source).filterMap lexError? = [] ↔ Faultless source :=
    faults_place_eq_nil_iff .start (pieces source)
  unfold tokenize
  split
  · next hnil =>
    constructor
    · intro h
      cases h
      exact ⟨hfaults.1 hnil, rfl⟩
    · intro h
      rw [h.2]
      rfl
  · next first others hcons =>
    refine iff_of_false nofun fun h => ?_
    rw [hfaults.2 h.1] at hcons
    cases hcons

theorem parse_eq_ok {source : String} {ss : List Statement} :
    parse source = .ok ss ↔
      Faultless source.toList ∧ Grammar.Chunk (lexemesAt .start source.toList) ss := by
  unfold parse
  split
  · next faults h =>
    refine iff_of_false error_ne_ok fun hok => ?_
    rw [tokenize_eq_ok_iff.2 ⟨hok.1, rfl⟩] at h
    cases h
  · next ts h =>
    obtain ⟨hfaultless, rfl⟩ := tokenize_eq_ok_iff.1 h
    rw [and_iff_right hfaultless]
    constructor
    · intro h
      split at h
      · cases h
      · next hs =>
        cases h
        exact Parser.statements_sound _ (Nat.le_refl _) hs
    · intro hss
      rw [Parser.statements_complete hss (Nat.le_refl _)]

theorem interpret_eq_ok_iff {source : String} {i : Interpretation} :
    interpret source = .ok i ↔
      Faultless source.toList ∧ ∃ ss, Grammar.Chunk (lexemesAt .start source.toList) ss ∧
        Interpretation.ofStatements source.toList ss = i := by
  unfold interpret
  simp only [map_eq_ok_iff, parse_eq_ok, and_assoc, exists_and_left]

/-! ## piece by piece -/

theorem faultless_nil : Faultless [] := by
  intro s hs
  rw [pieces_nil] at hs
  cases hs

theorem forall_pieces_cons {p : Scrap → Prop} {c : Char} {cs : List Char} :
    (∀ s ∈ pieces (c :: cs), p s) ↔
      p ⟨(Piece.scan c cs).1, (c :: cs).take (Piece.scan c cs).2⟩ ∧
        ∀ s ∈ pieces ((c :: cs).drop (Piece.scan c cs).2), p s := by
  rw [pieces_cons, List.forall_mem_cons]

theorem faultless_cons {c : Char} {cs : List Char} :
    Faultless (c :: cs) ↔
      (∀ f, (Piece.scan c cs).1 ≠ .fault f) ∧
        Faultless ((c :: cs).drop (Piece.scan c cs).2) :=
  forall_pieces_cons

theorem lexemesAt_nil (p : Position) : lexemesAt p [] = [] := by
  rw [lexemesAt, pieces_nil, place_nil, List.filterMap_nil]

theorem lexemesAt_cons (p : Position) (c : Char) (cs : List Char) :
    lexemesAt p (c :: cs) =
      (lexeme? ((Piece.scan c cs).1,
        .between p (p.advance ((c :: cs).take (Piece.scan c cs).2)))).toList ++
      lexemesAt (p.advance ((c :: cs).take (Piece.scan c cs).2))
        ((c :: cs).drop (Piece.scan c cs).2) := by
  unfold lexemesAt
  rw [pieces_cons, place_cons, List.filterMap_cons]
  split
  · next h => rw [h]; rfl
  · next h => rw [h]; rfl

section
variable {c : Char} {cs rest : List Char} {piece : Piece}
  (hs : Piece.scan c (cs ++ rest) = (piece, (c :: cs).length))
include hs

theorem pieces_of_scan : pieces (c :: (cs ++ rest)) = ⟨piece, c :: cs⟩ :: pieces rest := by
  rw [pieces_cons, hs]
  dsimp only
  rw [← List.cons_append, List.take_left, List.drop_left]

theorem forall_pieces_of_scan {p : Scrap → Prop} :
    (∀ s ∈ pieces (c :: (cs ++ rest)), p s) ↔ p ⟨piece, c :: cs⟩ ∧ ∀ s ∈ pieces rest, p s := by
  rw [pieces_of_scan hs, List.forall_mem_cons]

theorem lexemesAt_of_scan (p : Position) :
    lexemesAt p (c :: (cs ++ rest)) =
      (lexeme? (piece, .between p (p.advance (c :: cs)))).toList ++
        lexemesAt (p.advance (c :: cs)) rest := by
  rw [lexemesAt_cons, hs]
  dsimp only
  rw [← List.cons_append, List.take_left, List.drop_left]

end

/-! ## gaps -/

theorem take_takeWhile_length {α : Type} (p : α → Bool) (l : List α) :
    l.take (l.takeWhile p).length = l.takeWhile p :=
  (List.prefix_iff_eq_take.1 (List.takeWhile_prefix p)).symm

theorem drop_takeWhile_length {α : Type} (p : α → Bool) (l : List α) :
    l.drop (l.takeWhile p).length = l.dropWhile p := by
  have hsplit := List.take_append_drop (l.takeWhile p).length l
  rw [take_takeWhile_length] at hsplit
  exact List.append_cancel_left (hsplit.trans List.takeWhile_append_dropWhile.symm)

/-- what holds of gaps holds of all pieces if it does so behind a gap -/
theorem forall_pieces_dropWhile {p : Scrap → Prop}
    (hp : ∀ c cs, isGap c → p ⟨.gap, c :: cs⟩) (text : List Char) :
    (∀ s ∈ pieces text, p s) ↔ ∀ s ∈ pieces (text.dropWhile isGap), p s := by
  cases text with
  | nil => exact Iff.rfl
  | cons c cs =>
    by_cases h : isGap c
    · rw [forall_pieces_cons, Piece.scan_of_isGap h, take_takeWhile_length, drop_takeWhile_length,
        List.takeWhile_cons_of_pos h]
      exact and_iff_right (hp c _ h)
    · rw [List.dropWhile_cons_of_neg h]

theorem lexemesAt_dropWhile (p : Position) (text : List Char) :
    lexemesAt p text =
      lexemesAt (p.advance (text.takeWhile isGap)) (text.dropWhile isGap) := by
  cases text with
  | nil => rfl
  | cons c cs =>
    by_cases h : isGap c
    · rw [lexemesAt_cons, Piece.scan_of_isGap h, take_takeWhile_length, drop_takeWhile_length]
      rfl
    · rw [List.takeWhile_cons_of_neg h, List.dropWhile_cons_of_neg h, Position.advance_nil]

section
variable {c : Char} (h : isGap c)
include h

theorem forall_pieces_gap {p : Scrap → Prop} (hp : ∀ c cs, isGap c → p ⟨.gap, c :: cs⟩)
    (cs : List Char) : (∀ s ∈ pieces (c :: cs), p s) ↔ ∀ s ∈ pieces cs, p s := by
  rw [forall_pieces_dropWhile hp, List.dropWhile_cons_of_pos h, ← forall_pieces_dropWhile hp]

theorem faultless_gap (cs : List Char) : Faultless (c :: cs) ↔ Faultless cs :=
  forall_pieces_gap h (fun _ _ _ => nofun) cs

theorem lexemesAt_gap (p : Position) (cs : List Char) :
    lexemesAt p (c :: cs) = lexemesAt (p.step c) cs := by
  rw [lexemesAt_dropWhile, List.takeWhile_cons_of_pos h, List.dropWhile_cons_of_pos h,
    Position.advance_cons, ← lexemesAt_dropWhile]

end

/-! ## tokens without their places -/

/-- the text is faultless and has these tokens, wherever it stands -/
def Lexes (text : List Char) (ts : List Token) : Prop :=
  Faultless text ∧ ∀ p, (lexemesAt p text).map Lexeme.token = ts

theorem lexes_nil : Lexes [] [] :=
  ⟨faultless_nil, fun p => by rw [lexemesAt_nil, List.map_nil]⟩

section
variable {c : Char} {cs : List Char} {ts : List Token}

theorem Lexes.gap (hc : isGap c) (h : Lexes cs ts) : Lexes (c :: cs) ts := by
  refine ⟨(faultless_gap hc cs).2 h.1, fun p => ?_⟩
  rw [lexemesAt_gap hc]
  exact h.2 _

theorem Lexes.token {t : Token} {n : Nat} (hs : Piece.scan c cs = (.token t, n))
    (h : Lexes ((c :: cs).drop n) ts) : Lexes (c :: cs) (t :: ts) := by
  refine ⟨faultless_cons.2 ⟨?_, ?_⟩, fun p => ?_⟩
  · rw [hs]
    exact nofun
  · rw [hs]
    exact h.1
  · rw [lexemesAt_cons, hs, List.map_append, h.2]
    rfl

theorem Lexes.comment {rest : List Char}
    (hs : Piece.scan c (cs ++ rest) = (.comment, (c :: cs).length)) (h : Lexes rest ts) :
    Lexes (c :: cs ++ rest) ts := by
  refine ⟨(forall_pieces_of_scan hs).2 ⟨nofun, h.1⟩, fun p => ?_⟩
  rw [List.cons_append, lexemesAt_of_scan hs]
  exact h.2 _

end

/-! ## a text in front of a newline -/

theorem Piece.scan_ne_gap {c : Char} (h : isGap c = false) (cs : List Char) :
    (Piece.scan c cs).1 ≠ .gap := by
  unfold Piece.scan Piece.scanQuoted Piece.scanComment Piece.scanBracket
  dsimp only
  rw [if_neg (by rw [h]; exact Bool.false_ne_true)]
  split
  · exact nofun
  split
  · exact nofun
  split
  · split
    · split <;> exact nofun
    · split <;> exact nofun
  split
  · split
    · split <;> exact nofun
    · exact nofun
  split
  · split
    · split <;> exact nofun
    · split <;> exact nofun
  · split <;> exact nofun

theorem endsAt_newline {piece : Piece} (hgap : piece ≠ .gap) (hfault : ∀ f, piece ≠ .fault f) :
    piece.EndsAt '\n' := by
  cases piece with
  | gap => exact absurd rfl hgap
  | comment => exact rfl
  | token t => exact (by decide : isGap '\n' = true)
  | fault f => exact absurd rfl (hfault f)

/-- a faultless text is read character by character in its gaps, and else piece by piece -/
theorem Faultless.induction {motive : List Char → Prop} (nil : motive [])
    (gap : ∀ c cs, isGap c → motive cs → motive (c :: cs))
    (piece : ∀ c cs, (Piece.scan c cs).1.EndsAt '\n' →
      motive ((c :: cs).drop (Piece.scan c cs).2) → motive (c :: cs))
    {text : List Char} (h : Faultless text) : motive text := by
  induction hn : text.length using Nat.strongRecOn generalizing text with
  | ind n ih =>
    cases text with
    | nil => exact nil
    | cons c cs =>
      rw [List.length_cons] at hn
      by_cases hc : isGap c
      · exact gap c cs hc (ih cs.length (by omega) ((faultless_gap hc cs).1 h) rfl)
      · obtain ⟨hfault, hrest⟩ := faultless_cons.1 h
        have hpos := Piece.scan_pos c cs
        refine piece c cs (endsAt_newline (Piece.scan_ne_gap (Bool.eq_false_iff.2 hc) cs) hfault) ?_
        refine ih _ ?_ hrest rfl
        rw [List.length_drop, List.length_cons]
        omega

section
variable {text : List Char} (h : Faultless text) (rest : List Char)
include h

theorem faultless_append : Faultless (text ++ '\n' :: rest) ↔ Faultless rest := by
  refine Faultless.induction (motive := fun text => Faultless (text ++ '\n' :: rest) ↔ _)
    ?_ ?_ ?_ h
  · exact faultless_gap (by decide) rest
  · intro c cs hc ih
    rw [List.cons_append, faultless_gap hc, ih]
  · intro c cs hends ih
    have hfault : ∀ f, (Piece.scan c cs).1 ≠ .fault f := by
      intro f hf
      rw [hf] at hends
      exact hends
    rw [List.cons_append, faultless_cons, Piece.scan_append rest hends, ← List.cons_append,
      List.drop_append_of_le_length (Piece.scan_le c cs), and_iff_right hfault]
    exact ih

/-- **The lexemes in front of a newline are those of the text alone.** -/
theorem lexemesAt_append (p : Position) :
    lexemesAt p (text ++ '\n' :: rest) =
      lexemesAt p text ++ lexemesAt ((p.advance text).step '\n') rest := by
  revert p
  refine Faultless.induction (motive := fun text => ∀ p, lexemesAt p (text ++ '\n' :: rest) =
    lexemesAt p text ++ lexemesAt ((p.advance text).step '\n') rest) ?_ ?_ ?_ h
  · intro p
    rw [lexemesAt_nil]
    exact lexemesAt_gap (by decide) p rest
  · intro c cs hc ih p
    rw [List.cons_append, lexemesAt_gap hc, ih, lexemesAt_gap hc]
    rfl
  · intro c cs hends ih p
    have hle := Piece.scan_le c cs
    have hstop : (p.advance ((c :: cs).take (Piece.scan c cs).2)).advance
        ((c :: cs).drop (Piece.scan c cs).2) = p.advance (c :: cs) := by
      rw [← Position.advance_append, List.take_append_drop]
    rw [List.cons_append, lexemesAt_cons, Piece.scan_append rest hends, ← List.cons_append,
      List.drop_append_of_le_length hle, List.take_append_of_le_length hle, ih, hstop,
      lexemesAt_cons, List.append_assoc]

end

end ResourceOrder.Manifest
