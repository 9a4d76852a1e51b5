/-!
# Positions and spans

A text is a list of characters.  A place in it is counted in three ways at once:

* `Position`  bytes in front of the place, and the line and column a reader would name;
* `Span`      a stretch of text: where it starts, and the byte at which it stops.

`Position.advance` walks over a stretch of text.  Only a newline begins a line, every other
character takes one column, and the bytes are those of the UTF-8 form of the text.
Walking over two stretches one after the other is walking over their concatenation
(`Position.advance_append`), so places are additive.

Lines and columns are words of 32 bits, and behind the last word they begin again at zero.  What
they say is true only of a place that has fewer lines and columns in front (`advance_line`).
-/

namespace ResourceOrder

/-! ## bytes -/

/-- the number of bytes of the UTF-8 form of a text -/
def byteCount : List Char → Nat
  | [] => 0
  | c :: cs => c.utf8Size + byteCount cs

@[simp] theorem byteCount_nil : byteCount [] = 0 := rfl

@[simp] theorem byteCount_cons (c : Char) (cs : List Char) :
    byteCount (c :: cs) = c.utf8Size + byteCount cs := rfl

@[simp] theorem byteCount_append (a b : List Char) :
    byteCount (a ++ b) = byteCount a + byteCount b := by
  induction a with
  | nil => rw [List.nil_append, byteCount_nil, Nat.zero_add]
  | cons c cs ih => rw [List.cons_append, byteCount_cons, byteCount_cons, ih, Nat.add_assoc]

/-- the bytes of the UTF-8 form of a text -/
def utf8 (text : List Char) : List UInt8 := text.flatMap String.utf8EncodeChar

theorem utf8_nil : utf8 [] = [] := rfl

theorem utf8_cons (c : Char) (cs : List Char) :
    utf8 (c :: cs) = String.utf8EncodeChar c ++ utf8 cs := rfl

theorem utf8_append (a b : List Char) : utf8 (a ++ b) = utf8 a ++ utf8 b :=
  List.flatMap_append

theorem length_utf8 (text : List Char) : (utf8 text).length = byteCount text := by
  induction text with
  | nil => rfl
  | cons c cs ih => rw [utf8_cons, List.length_append, String.length_utf8EncodeChar, ih,
      byteCount_cons]

/-- the text without its first `n` bytes; a character that the cut would split is left out -/
def dropBytes : Nat → List Char → List Char
  | 0, cs => cs
  | _, [] => []
  | n + 1, c :: cs => dropBytes (n + 1 - c.utf8Size) cs

/-- the characters that lie whole in the first `n` bytes of the text -/
def takeBytes (n : Nat) : List Char → List Char
  | [] => []
  | c :: cs => if c.utf8Size ≤ n then c :: takeBytes (n - c.utf8Size) cs else []

/-- the bytes of a stretch in front do not count -/
theorem dropBytes_add (k : Nat) (a b : List Char) :
    dropBytes (byteCount a + k) (a ++ b) = dropBytes k b := by
  induction a with
  | nil => rw [byteCount_nil, Nat.zero_add, List.nil_append]
  | cons c cs ih =>
    have hpos := c.utf8Size_pos
    obtain ⟨n, hn⟩ : ∃ n, byteCount (c :: cs) + k = n + 1 :=
      ⟨byteCount (c :: cs) + k - 1, by rw [byteCount_cons]; omega⟩
    have hrest : n + 1 - c.utf8Size = byteCount cs + k := by
      rw [← hn, byteCount_cons]
      omega
    rw [hn, List.cons_append, dropBytes, hrest, ih]

theorem dropBytes_append (a b : List Char) : dropBytes (byteCount a) (a ++ b) = b := by
  refine (dropBytes_add 0 a b).trans ?_
  cases b <;> rfl

theorem takeBytes_append (a b : List Char) : takeBytes (byteCount a) (a ++ b) = a := by
  induction a with
  | nil =>
    cases b with
    | nil => rfl
    | cons d ds =>
      have hpos := d.utf8Size_pos
      simp [takeBytes]
      omega
  | cons c cs ih => simp [takeBytes, ih]

/-! ## positions -/

/-- a place in a text: the bytes in front of it, its line and its column (both from 1) -/
structure Position where
  offset : Nat
  line : UInt32
  column : UInt32
deriving DecidableEq

namespace Position

def start : Position := ⟨0, 1, 1⟩

/-- the place behind the character `c` that stands at `p` -/
def step (p : Position) (c : Char) : Position :=
  if c = '\n' then ⟨p.offset + c.utf8Size, p.line + 1, 1⟩
  else ⟨p.offset + c.utf8Size, p.line, p.column + 1⟩

def advance (p : Position) (text : List Char) : Position := text.foldl step p

@[simp] theorem advance_nil (p : Position) : p.advance [] = p := rfl

@[simp] theorem advance_cons (p : Position) (c : Char) (cs : List Char) :
    p.advance (c :: cs) = (p.step c).advance cs := rfl

theorem advance_append (p : Position) (a b : List Char) :
    p.advance (a ++ b) = (p.advance a).advance b := by
  simp [advance, List.foldl_append]

@[simp] theorem step_offset (p : Position) (c : Char) :
    (p.step c).offset = p.offset + c.utf8Size := by
  unfold step; split <;> rfl

theorem advance_offset (p : Position) (text : List Char) :
    (p.advance text).offset = p.offset + byteCount text := by
  induction text generalizing p with
  | nil => rfl
  | cons c cs ih => rw [advance_cons, ih, step_offset, byteCount_cons]; omega

theorem start_advance_offset (text : List Char) :
    (start.advance text).offset = byteCount text := by
  rw [advance_offset]
  exact Nat.zero_add _

theorem advance_line (p : Position) (text : List Char) :
    (p.advance text).line = p.line + .ofNat (text.count '\n') := by
  induction text generalizing p with
  | nil => exact (UInt32.add_zero p.line).symm
  | cons c cs ih =>
    rw [advance_cons, ih]
    by_cases h : c = '\n'
    · subst h
      rw [List.count_cons_self, Nat.add_comm, UInt32.ofNat_add, ← UInt32.add_assoc]
      rfl
    · simp [step, h]

end Position

/-! ## spans -/

/-- a stretch of text: its first byte, the byte behind its last one, and where it starts -/
structure Span where
  start : Nat
  stop : Nat
  line : UInt32
  column : UInt32
deriving DecidableEq

namespace Span

def between (p q : Position) : Span := ⟨p.offset, q.offset, p.line, p.column⟩

def point (p : Position) : Span := between p p

def position (s : Span) : Position := ⟨s.start, s.line, s.column⟩

def length (s : Span) : Nat := s.stop - s.start

def isEmpty (s : Span) : Bool := s.start == s.stop

/-- the least stretch that covers both; line and column are those of the one that starts
first, and of `s` when both start together -/
def merge (s t : Span) : Span :=
  let first := if s.start ≤ t.start then s else t
  ⟨min s.start t.start, max s.stop t.stop, first.line, first.column⟩

/-- the characters of the source that the stretch covers -/
def slice (s : Span) (source : List Char) : List Char :=
  takeBytes s.length (dropBytes s.start source)

@[simp] theorem position_between (p q : Position) : (between p q).position = p := rfl

/-- the stretch that a part of the source takes up reads back as that part -/
theorem slice_between (before text after : List Char) :
    (between (Position.start.advance before) (Position.start.advance (before ++ text))).slice
      (before ++ text ++ after) = text := by
  have hstop := Position.start_advance_offset (before ++ text)
  rw [byteCount_append] at hstop
  simp only [slice, length, between, Position.start_advance_offset before, hstop,
    Nat.add_sub_cancel_left]
  rw [List.append_assoc, dropBytes_append, takeBytes_append]

end Span

end ResourceOrder
