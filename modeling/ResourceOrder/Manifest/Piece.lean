import ResourceOrder.Manifest.Escape
import ResourceOrder.Manifest.Fault

/-!
# The text of a manifest in pieces

A text is cut from left to right into pieces: gaps, comments, tokens, and stretches that are
none of these.

* `scan`     what stands at the head of a text, and how many characters it takes up; it takes
             the longest token that begins there;
* `pieces`   the whole text in pieces.

No character is lost or read twice: the texts of the pieces, one after the other, are the
source (`text_pieces`), and no piece is empty (`ne_nil_of_mem_pieces`).

The faulty stretches are chosen so that reading goes on in a sensible place.  A long bracket
without a partner gives up its opener only, a quote without a partner the rest of its line, and
a bracket followed by equality signs and no second bracket gives up all of these.
-/

namespace ResourceOrder.Manifest

/-! ## classes of characters -/

/-- the characters of a gap; the byte-order mark is one of them -/
def isGap (c : Char) : Bool :=
  c == ' ' || c == '\t' || c == '\r' || c == '\n' || c == '\x0c' || c == '\ufeff'

def isNameStart (c : Char) : Bool := c.isAlpha || c == '_'

def isNamePart (c : Char) : Bool := c.isAlphanum || c == '_'

def isQuote (c : Char) : Bool := c == '"' || c == '\''

/-! ## numbers -/

/-- the number of decimal digits at the head of a text -/
def digitsLength (text : List Char) : Nat := (text.takeWhile Char.isDigit).length

/-- the length of the exponent at the head of a text; one without digits is none -/
def exponentLength : List Char → Nat
  | [] => 0
  | e :: cs =>
    let sign := if cs.head? = some '+' ∨ cs.head? = some '-' then 1 else 0
    let digits := digitsLength (cs.drop sign)
    if (e = 'e' ∨ e = 'E') ∧ digits ≠ 0 then 1 + sign + digits else 0

/-- the length of the point and the digits behind it -/
def fractionLength : List Char → Nat
  | '.' :: cs => 1 + digitsLength cs
  | _ => 0

/-- the length of a number in base sixteen; one without digits is none -/
def hexLength : List Char → Nat
  | '0' :: x :: cs =>
    let digits := (cs.takeWhile isHexDigit).length
    if (x = 'x' ∨ x = 'X') ∧ digits ≠ 0 then 2 + digits else 0
  | _ => 0

/-- the length of a number in base ten: digits, a fraction, an exponent -/
def decimalLength (text : List Char) : Nat :=
  let whole := digitsLength text
  let point := fractionLength (text.drop whole)
  whole + point + exponentLength (text.drop (whole + point))

/-- whether a number begins the text: a digit, or a point and a digit -/
def startsNumber : List Char → Bool
  | c :: cs => c.isDigit || (c == '.' && digitsLength cs != 0)
  | [] => false

/-- the length of the number at the head of a text -/
def numberLength (text : List Char) : Nat :=
  if hexLength text ≠ 0 then hexLength text else decimalLength text

/-! ## quoted strings -/

/-- the length of the longest run of string characters: any but the quote, a backslash and a
newline, and pairs of a backslash and any character -/
def runLength (quote : Char) : List Char → Nat
  | [] => 0
  | [c] => if c = quote ∨ c = '\\' ∨ c = '\n' then 0 else 1
  | c :: d :: cs =>
    if c = '\\' then 2 + runLength quote cs
    else if c = quote ∨ c = '\n' then 0
    else 1 + runLength quote (d :: cs)

/-! ## long brackets -/

/-- the number of characters in front of the first place where `mark` stands -/
def indexOf? (mark : List Char) : List Char → Option Nat
  | [] => if mark = [] then some 0 else none
  | c :: cs => if mark.isPrefixOf (c :: cs) then some 0 else (indexOf? mark cs).map (· + 1)

/-- the level of the long bracket that opens the text: the number of equality signs between its
two brackets -/
def level? : List Char → Option Nat
  | '[' :: cs =>
    let level := (cs.takeWhile (· == '=')).length
    if (cs.drop level).head? = some '[' then some level else none
  | _ => none

/-- the long bracket that closes the given level -/
def closer (level : Nat) : List Char := ']' :: (List.replicate level '=' ++ [']'])

/-- the text of a long string: a line break directly behind the opener does not count -/
def longText : List Char → List Char
  | '\r' :: '\n' :: cs => cs
  | '\n' :: cs => cs
  | cs => cs

/-! ## pieces -/

inductive Piece where
  | gap
  | comment
  | token (t : Token)
  | fault (f : Fault)
deriving DecidableEq

namespace Piece

/-- the comment behind two dashes, its length counted with the dashes -/
def scanComment (text : List Char) : Piece × Nat :=
  match level? text with
  | some level =>
    match indexOf? (closer level) (text.drop (level + 2)) with
    | some n => (.comment, 2 + (level + 2) + n + (level + 2))
    | none => (.fault .unterminatedComment, 2)
  | none => (.comment, 2 + (text.takeWhile (· != '\n')).length)

/-- what a bracket begins, with its length: a long string, or the mark -/
def scanBracket (text : List Char) : Piece × Nat :=
  let equals := (text.tail.takeWhile (· == '=')).length
  match level? text with
  | some level =>
    let body := text.drop (level + 2)
    match indexOf? (closer level) body with
    | some n => (.token (.string (String.ofList (longText (body.take n)))),
        (level + 2) + n + (level + 2))
    | none => (.fault .unterminatedString, level + 2)
  | none =>
    if equals = 0 then (.token (.mark .leftBracket), 1)
    else (.fault (.unexpectedCharacter '['), 1 + equals)

/-- what a quote begins, with its length counted with the quote -/
def scanQuoted (quote : Char) (text : List Char) : Piece × Nat :=
  let n := runLength quote text
  let body := text.take n
  if (text.drop n).head? = some quote then
    match Escape.decode body with
    | some value => (.token (.string (String.ofList value)), n + 2)
    | none => (.fault (.invalidEscape (String.ofList (quote :: body ++ [quote]))), n + 2)
  else if body.getLast? = some quote then
    (.fault (.invalidEscape (String.ofList (quote :: body))), n + 1)
  else (.fault .unterminatedString, n + 1)

/-- what stands at the head of the text `c :: cs`, and how many characters it takes up -/
def scan (c : Char) (cs : List Char) : Piece × Nat :=
  let text := c :: cs
  if isGap c then (.gap, (text.takeWhile isGap).length)
  else if isNameStart c then
    let word := text.takeWhile isNamePart
    (.token (.ofWord (String.ofList word)), word.length)
  else if startsNumber text then
    let n := numberLength text
    (.token (.number (String.ofList (text.take n))), n)
  else if isQuote c then scanQuoted c cs
  else if c = '-' ∧ cs.head? = some '-' then scanComment cs.tail
  else if c = '[' then scanBracket text
  else
    match Mark.longest? text with
    | some m => (.token (.mark m), m.text.length)
    | none => (.fault (.unexpectedCharacter c), 1)

/-! ## every piece has a character -/

theorem isNamePart_of_isNameStart {c : Char} (h : isNameStart c) : isNamePart c := by
  simp only [isNameStart, isNamePart, Char.isAlphanum, Bool.or_eq_true] at h ⊢
  rcases h with h | h
  · exact .inl (.inl h)
  · exact .inr h

theorem numberLength_pos {text : List Char} (h : startsNumber text) : 0 < numberLength text := by
  unfold numberLength
  split
  · omega
  · cases text with
    | nil => simp [startsNumber] at h
    | cons c cs =>
      simp only [startsNumber, Bool.or_eq_true, Bool.and_eq_true, beq_iff_eq] at h
      simp only [decimalLength]
      rcases h with h | ⟨rfl, _⟩
      · have hw : 0 < digitsLength (c :: cs) := by
          rw [digitsLength, List.takeWhile_cons_of_pos h, List.length_cons]
          exact Nat.succ_pos _
        omega
      · have hw : digitsLength ('.' :: cs) = 0 := by
          rw [digitsLength, List.takeWhile_cons_of_neg (by decide), List.length_nil]
        rw [hw, List.drop_zero, fractionLength]
        omega

theorem scanComment_pos (text : List Char) : 0 < (scanComment text).2 := by
  unfold scanComment
  split
  · split
    · show 0 < 2 + (_ + 2) + _ + (_ + 2)
      omega
    · show 0 < 2
      omega
  · show 0 < 2 + _
    omega

theorem scanBracket_pos (text : List Char) : 0 < (scanBracket text).2 := by
  unfold scanBracket
  dsimp only
  split
  · split
    · show 0 < _ + 2 + _ + (_ + 2)
      omega
    · show 0 < _ + 2
      omega
  · split
    · show 0 < 1
      omega
    · show 0 < 1 + _
      omega

theorem scanQuoted_pos (quote : Char) (text : List Char) : 0 < (scanQuoted quote text).2 := by
  unfold scanQuoted
  dsimp only
  split
  · split
    · exact Nat.succ_pos _
    · exact Nat.succ_pos _
  · split
    · exact Nat.succ_pos _
    · exact Nat.succ_pos _

theorem scan_pos (c : Char) (cs : List Char) : 0 < (scan c cs).2 := by
  unfold scan
  dsimp only
  split
  · rename_i h; simp [h]
  split
  · rename_i h; simp [isNamePart_of_isNameStart h]
  split
  · rename_i h; exact numberLength_pos h
  split
  · exact scanQuoted_pos c cs
  split
  · exact scanComment_pos cs.tail
  split
  · exact scanBracket_pos _
  split
  · exact Mark.text_length_pos _
  · exact Nat.one_pos

end Piece

/-! ## the whole text -/

structure Scrap where
  piece : Piece
  text : List Char
deriving DecidableEq

def pieces : List Char → List Scrap
  | [] => []
  | c :: cs =>
    let head := Piece.scan c cs
    ⟨head.1, (c :: cs).take head.2⟩ :: pieces ((c :: cs).drop head.2)
termination_by text => text.length
decreasing_by
  have := Piece.scan_pos c cs
  simp only [List.length_drop, List.length_cons]
  omega

theorem pieces_nil : pieces [] = [] := by rw [pieces]

theorem pieces_cons (c : Char) (cs : List Char) :
    pieces (c :: cs) = ⟨(Piece.scan c cs).1, (c :: cs).take (Piece.scan c cs).2⟩ ::
      pieces ((c :: cs).drop (Piece.scan c cs).2) := by
  rw [pieces]

/-- the pieces make up the text -/
theorem text_pieces (text : List Char) : (pieces text).flatMap Scrap.text = text := by
  fun_induction pieces text with
  | case1 => rfl
  | case2 c cs head ih => rw [List.flatMap_cons, ih, List.take_append_drop]

theorem ne_nil_of_mem_pieces {text : List Char} {s : Scrap} (h : s ∈ pieces text) :
    s.text ≠ [] := by
  fun_induction pieces text with
  | case1 => simp at h
  | case2 c cs head ih =>
    rcases List.mem_cons.1 h with rfl | h
    · have hpos : 0 < head.2 := Piece.scan_pos c cs
      intro he
      have hlen := congrArg List.length he
      simp only [List.length_take, List.length_cons, List.length_nil] at hlen
      omega
    · exact ih h

end ResourceOrder.Manifest
