import ResourceOrder.Proofs.Manifest.Tokens

/-!
# Texts in another place

A text that stands behind others keeps its lexemes and statements; only their places lie further
back.  Behind a newline the columns are the same, and only bytes and lines are added.

* `shift`        a place, a stretch of text, a lexeme or a statement, that many bytes and lines
                 further back;
* `Span.Within`  the stretch starts between two characters of the text and does not reach beyond
                 its end.

**A text has the same lexemes and statements wherever it stands** (`lexemesAt_shift`,
`Chunk.shift`).  The statements of a text lie within it (`Chunk.within`), and what lies within a
text covers the same characters with others in front of the text (`Span.slice_shift`) or behind it
(`Span.Within.slice_append`).
-/

namespace ResourceOrder

/-! ## places -/

section
variable (bytes lines : Nat)

namespace Position

def shift (p : Position) : Position := ⟨p.offset + bytes, p.line + .ofNat lines, p.column⟩

theorem step_shift (p : Position) (c : Char) :
    (p.shift bytes lines).step c = (p.step c).shift bytes lines := by
  have hline : p.line + .ofNat lines + 1 = p.line + 1 + .ofNat lines := by ac_rfl
  unfold step shift
  split
  · rw [mk.injEq]
    exact ⟨Nat.add_right_comm .., hline, rfl⟩
  · rw [mk.injEq]
    exact ⟨Nat.add_right_comm .., rfl, rfl⟩

theorem advance_shift (p : Position) (text : List Char) :
    (p.shift bytes lines).advance text = (p.advance text).shift bytes lines := by
  induction text generalizing p with
  | nil => rfl
  | cons c cs ih => rw [advance_cons, step_shift, ih, advance_cons]

/-- behind a newline a text stands as at the start, only further down -/
theorem step_newline (text : List Char) :
    (start.advance text).step '\n' =
      start.shift (byteCount (text ++ ['\n'])) ((text ++ ['\n']).count '\n') := by
  show mk ((start.advance text).offset + 1) ((start.advance text).line + 1) 1 = _
  rw [start_advance_offset, advance_line, byteCount_append, List.count_append]
  show mk (byteCount text + 1) (1 + .ofNat (text.count '\n') + 1) 1 =
    mk (0 + (byteCount text + 1)) (1 + .ofNat (text.count '\n' + 1)) 1
  rw [Nat.zero_add, UInt32.ofNat_add, UInt32.add_assoc]
  rfl

end Position

namespace Span

def shift (s : Span) : Span :=
  ⟨s.start + bytes, s.stop + bytes, s.line + .ofNat lines, s.column⟩

theorem between_shift (p q : Position) :
    between (p.shift bytes lines) (q.shift bytes lines) = (between p q).shift bytes lines := rfl

theorem merge_shift (s t : Span) :
    (s.shift bytes lines).merge (t.shift bytes lines) = (s.merge t).shift bytes lines := by
  have hle : s.start + bytes ≤ t.start + bytes ↔ s.start ≤ t.start := Nat.add_le_add_iff_right
  have hmin : min (s.start + bytes) (t.start + bytes) = min s.start t.start + bytes := by omega
  have hmax : max (s.stop + bytes) (t.stop + bytes) = max s.stop t.stop + bytes := by omega
  simp only [merge, shift, hle, hmin, hmax]
  split <;> rfl

end Span

end

/-! ## the characters of a stretch -/

theorem takeBytes_append_of_le {n : Nat} {a : List Char} (h : n ≤ byteCount a) (b : List Char) :
    takeBytes n (a ++ b) = takeBytes n a := by
  induction a generalizing n with
  | nil =>
    obtain rfl : n = 0 := Nat.le_zero.1 h
    cases b with
    | nil => rfl
    | cons d ds => exact if_neg (Nat.not_le_of_lt d.utf8Size_pos)
  | cons c cs ih =>
    rw [byteCount_cons] at h
    rw [List.cons_append, takeBytes, takeBytes, ih (by omega)]

namespace Span

/-- the stretch starts between two characters of the text and stops in it -/
def Within (source : List Char) (s : Span) : Prop :=
  (∃ before after, source = before ++ after ∧ s.start = byteCount before) ∧
    s.stop ≤ byteCount source

theorem slice_shift (lines : Nat) (before source : List Char) (s : Span) :
    (s.shift (byteCount before) lines).slice (before ++ source) = s.slice source := by
  unfold slice length shift
  dsimp only
  rw [Nat.add_sub_add_right, Nat.add_comm s.start, dropBytes_add]

section
variable {source : List Char} {s t : Span}

theorem Within.slice_append (h : s.Within source) (rest : List Char) :
    s.slice (source ++ rest) = s.slice source := by
  obtain ⟨⟨before, after, rfl, hstart⟩, hstop⟩ := h
  rw [byteCount_append] at hstop
  unfold slice length
  rw [hstart, List.append_assoc, dropBytes_append, dropBytes_append]
  exact takeBytes_append_of_le (by omega) rest

theorem Within.merge (hs : s.Within source) (ht : t.Within source) :
    (s.merge t).Within source := by
  refine ⟨?_, Nat.max_le.2 ⟨hs.2, ht.2⟩⟩
  show ∃ before after, source = before ++ after ∧ min s.start t.start = byteCount before
  rcases Nat.le_total s.start t.start with hle | hle
  · rw [Nat.min_eq_left hle]
    exact hs.1
  · rw [Nat.min_eq_right hle]
    exact ht.1

end

end Span

namespace Manifest

/-! ## lexemes -/

section
variable (bytes lines : Nat)

def Lexeme.shift (t : Lexeme) : Lexeme := { t with span := t.span.shift bytes lines }

def Statement.shift (s : Statement) : Statement := { s with span := s.span.shift bytes lines }

theorem map_token_shift (ts : List Lexeme) :
    (ts.map (Lexeme.shift bytes lines)).map Lexeme.token = ts.map Lexeme.token :=
  List.map_map

theorem lexeme?_shift (piece : Piece) (span : Span) :
    lexeme? (piece, span.shift bytes lines) =
      (lexeme? (piece, span)).map (Lexeme.shift bytes lines) := by
  cases piece <;> rfl

theorem lexemes_place_shift (p : Position) (scraps : List Scrap) :
    (place (p.shift bytes lines) scraps).filterMap lexeme? =
      ((place p scraps).filterMap lexeme?).map (Lexeme.shift bytes lines) := by
  induction scraps generalizing p with
  | nil => rfl
  | cons s rest ih =>
    rw [place_cons, place_cons, Position.advance_shift, Span.between_shift, List.filterMap_cons,
      List.filterMap_cons, lexeme?_shift, ih]
    cases lexeme? (s.piece, .between p (p.advance s.text)) <;> rfl

theorem lexemesAt_shift (p : Position) (text : List Char) :
    lexemesAt (p.shift bytes lines) text =
      (lexemesAt p text).map (Lexeme.shift bytes lines) :=
  lexemes_place_shift bytes lines p (pieces text)

end

/-- a piece that is in its place takes up what is between the texts in front of it and behind it -/
theorem exists_of_mem_place (before : List Char) {scraps : List Scrap} {x : Piece × Span}
    (h : x ∈ place (Position.start.advance before) scraps) :
    ∃ front text back, scraps.flatMap Scrap.text = front ++ (text ++ back) ∧
      x.2 = .between (Position.start.advance (before ++ front))
        (Position.start.advance (before ++ (front ++ text))) := by
  induction scraps generalizing before with
  | nil => cases h
  | cons s rest ih =>
    rw [place_cons, ← Position.advance_append] at h
    rw [List.flatMap_cons]
    rcases List.mem_cons.1 h with rfl | h
    · refine ⟨[], s.text, _, rfl, ?_⟩
      rw [List.append_nil, List.nil_append]
    · obtain ⟨front, text, back, hsplit, hspan⟩ := ih _ h
      refine ⟨s.text ++ front, text, back, ?_, ?_⟩
      · rw [hsplit, List.append_assoc]
      · rw [hspan, List.append_assoc, List.append_assoc, List.append_assoc]

theorem within_of_mem_place {scraps : List Scrap} {x : Piece × Span}
    (h : x ∈ place .start scraps) : x.2.Within (scraps.flatMap Scrap.text) := by
  obtain ⟨front, text, back, hsplit, hspan⟩ := exists_of_mem_place [] h
  rw [hsplit, hspan]
  refine ⟨⟨front, text ++ back, rfl, Position.start_advance_offset front⟩, ?_⟩
  show (Position.start.advance (front ++ text)).offset ≤ _
  rw [Position.start_advance_offset, ← List.append_assoc, byteCount_append (front ++ text)]
  exact Nat.le_add_right _ _

theorem span_of_lexeme? {x : Piece × Span} {t : Lexeme} (h : lexeme? x = some t) :
    t.span = x.2 := by
  obtain ⟨piece, span⟩ := x
  cases piece with
  | token t =>
    cases h
    rfl
  | gap => cases h
  | comment => cases h
  | fault f => cases h

theorem within_of_mem_lexemesAt {source : List Char} {t : Lexeme}
    (h : t ∈ lexemesAt .start source) : t.span.Within source := by
  obtain ⟨x, hx, ht⟩ := List.mem_filterMap.1 h
  have hwithin := within_of_mem_place hx
  rw [text_pieces] at hwithin
  rw [span_of_lexeme? ht]
  exact hwithin

/-! ## manifests -/

namespace Grammar

theorem Chunk.shift (bytes lines : Nat) {ts : List Lexeme} {ss : List Statement}
    (h : Chunk ts ss) :
    Chunk (ts.map (Lexeme.shift bytes lines)) (ss.map (Statement.shift bytes lines)) := by
  induction h with
  | nil => exact .nil
  | semicolon ht _ ih => exact .semicolon ht ih
  | @statement first last us rest kind ss hs hf hl _ ih =>
    rw [List.map_append, List.map_cons]
    have hstmt : Stmt ((rest.map (Lexeme.shift bytes lines)).head?.map Lexeme.token)
        ((us.map (Lexeme.shift bytes lines)).map Lexeme.token) kind := by
      rw [← List.head?_map, map_token_shift, map_token_shift, List.head?_map]
      exact hs
    have hfirst : (us.map (Lexeme.shift bytes lines)).head? = some (first.shift bytes lines) := by
      rw [List.head?_map, hf, Option.map_some]
    have hlast : (us.map (Lexeme.shift bytes lines)).getLast? = some (last.shift bytes lines) := by
      rw [List.getLast?_map, hl, Option.map_some]
    have hchunk := Chunk.statement hstmt hfirst hlast ih
    have hspan : (first.shift bytes lines).span.merge (last.shift bytes lines).span =
        (first.span.merge last.span).shift bytes lines :=
      Span.merge_shift bytes lines first.span last.span
    rw [hspan] at hchunk
    exact hchunk

/-- what holds of the stretch of each lexeme, and of two stretches together if it holds of both,
holds of the stretch of each statement -/
theorem Chunk.forall_span {p : Span → Prop} (hmerge : ∀ s t, p s → p t → p (s.merge t))
    {ts : List Lexeme} {ss : List Statement} (h : Chunk ts ss) (hts : ∀ t ∈ ts, p t.span) :
    ∀ s ∈ ss, p s.span := by
  induction h with
  | nil => exact fun s hs => absurd hs List.not_mem_nil
  | semicolon _ _ ih => exact ih fun t ht => hts t (List.mem_cons_of_mem _ ht)
  | statement _ hf hl _ ih =>
    intro s hs
    rcases List.mem_cons.1 hs with rfl | hs
    · apply hmerge
      · exact hts _ (List.mem_append_left _ (List.mem_of_head? hf))
      · exact hts _ (List.mem_append_left _ (List.mem_of_getLast? hl))
    · exact ih (fun t ht => hts t (List.mem_append_right _ ht)) s hs

theorem Chunk.within {source : List Char} {ts : List Lexeme} {ss : List Statement}
    (h : Chunk ts ss) (hts : ∀ t ∈ ts, t.span.Within source) :
    ∀ s ∈ ss, s.span.Within source :=
  h.forall_span (fun _ _ => Span.Within.merge) hts

end Grammar

end Manifest

end ResourceOrder
