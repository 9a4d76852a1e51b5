import ResourceOrder.Text.Position

/-!
# Names and paths as the system has them

For the system a name or a path is a row of bytes.  Mostly they are the UTF-8 form of a text, but
they need not be.

* `RawText`         the bytes;
* `RawText.ofText`  the bytes of a text;
* `RawText.text?`   the text that has these bytes, if there is one;
* `RawText.shown`   the text as a message shows it.

A message shows `U+FFFD` for each byte with which no character begins, and for the beginning of a
character that does not go on.
-/

namespace ResourceOrder

abbrev RawText := List UInt8

namespace RawText

def ofText (s : String) : RawText := utf8 s.toList

instance : Coe String RawText := ⟨ofText⟩

def text? (r : RawText) : Option String := String.fromUTF8? r.toByteArray

theorem text?_eq_some_iff {r : RawText} {s : String} : text? r = some s ↔ r = ofText s := by
  have hbytes : (ofText s).toByteArray = s.toByteArray := by
    rw [ofText, ← String.ofList_toList (s := s), String.toByteArray_ofList, String.toList_ofList]
    rfl
  unfold text? String.fromUTF8?
  constructor
  · intro h
    split at h
    · cases h
      have hlist := congrArg (fun bytes : ByteArray => bytes.data.toList) hbytes
      simpa only [List.toList_data_toByteArray, String.fromUTF8] using hlist.symm
    · cases h
  · rintro rfl
    rw [dif_pos (hbytes ▸ s.isValidUTF8), Option.some.injEq, ← String.toByteArray_inj]
    exact hbytes

/-! ## messages -/

/-- in which ranges the bytes lie that follow the first byte of a character, if one begins with
this byte -/
def followers? (first : UInt8) : Option (List (UInt8 × UInt8)) :=
  if first ≤ 0x7F then some []
  else if first < 0xC2 then none
  else if first ≤ 0xDF then some [(0x80, 0xBF)]
  else if first = 0xE0 then some [(0xA0, 0xBF), (0x80, 0xBF)]
  else if first = 0xED then some [(0x80, 0x9F), (0x80, 0xBF)]
  else if first ≤ 0xEF then some [(0x80, 0xBF), (0x80, 0xBF)]
  else if first = 0xF0 then some [(0x90, 0xBF), (0x80, 0xBF), (0x80, 0xBF)]
  else if first ≤ 0xF3 then some [(0x80, 0xBF), (0x80, 0xBF), (0x80, 0xBF)]
  else if first = 0xF4 then some [(0x80, 0x8F), (0x80, 0xBF), (0x80, 0xBF)]
  else none

/-- how many bytes at the head lie in the ranges, one in each -/
def countWithin : List (UInt8 × UInt8) → RawText → Nat
  | (low, high) :: ranges, b :: bs =>
    if low ≤ b ∧ b ≤ high then countWithin ranges bs + 1 else 0
  | _, _ => 0

/-- the characters, and `U+FFFD` in place of bytes that make up none -/
def lossy : RawText → List Char
  | [] => []
  | b :: bs =>
    let count := countWithin ((followers? b).getD []) bs
    ((text? (b :: bs.take count)).map String.toList).getD ['\uFFFD'] ++ lossy (bs.drop count)
termination_by r => r.length
decreasing_by
  rw [List.length_drop, List.length_cons]
  omega

def shown (r : RawText) : String := (text? r).getD (String.ofList (lossy r))

end RawText

end ResourceOrder
