import Mathlib.Data.Nat.Bitwise
import ResourceOrder.Proofs.Manifest.Covering

/-!
# Texts as bytes

* `cutAt?`        the text in front of a byte and from it on; there is no answer if the byte is
                  inside a character or beyond the end;
* `firstIndex?`   the number of bytes in front of the first place where others stand.

A text is cut exactly at its boundaries (`isSome_cutAt?_iff`).  The bytes of characters beyond ASCII
are none of ASCII (`le_of_mem_utf8EncodeChar`), so **a mark of ASCII characters stands first among
the bytes where it stands first among the characters** (`firstIndex?_utf8`): the place is a
boundary.
-/

namespace ResourceOrder

/-! ## ASCII -/

/-- the character is written as one byte -/
def IsAscii (c : Char) : Prop := c.toNat < 128

instance (c : Char) : Decidable (IsAscii c) := inferInstanceAs (Decidable (_ < _))

section
variable {c d : Char}

theorem utf8Size_eq_one_iff : c.utf8Size = 1 ↔ IsAscii c := by
  rw [Char.utf8Size_eq_one_iff, UInt32.le_iff_toNat_le]
  exact Nat.lt_succ_iff.symm

theorem utf8EncodeChar_of_isAscii (h : IsAscii c) :
    String.utf8EncodeChar c = [c.val.toUInt8] :=
  String.utf8EncodeChar_eq_singleton (utf8Size_eq_one_iff.2 h)

theorem toNat_byte_of_isAscii (h : IsAscii c) : c.val.toUInt8.toNat = c.toNat := by
  rw [UInt32.toNat_toUInt8]
  exact Nat.mod_eq_of_lt (Nat.lt_trans h (by decide))

theorem byte_inj (hc : IsAscii c) (hd : IsAscii d) (h : c.val.toUInt8 = d.val.toUInt8) :
    c = d := by
  have hnat : c.toNat = d.toNat := by
    rw [← toNat_byte_of_isAscii hc, ← toNat_byte_of_isAscii hd, h]
  rw [← Char.ofNat_toNat c, hnat, Char.ofNat_toNat]

/-- the highest bit is set if it is set in one of the two -/
theorem le_toNat_or {a b : UInt8} (h : 128 ≤ b.toNat) : 128 ≤ (a ||| b).toNat := by
  rw [UInt8.toNat_or]
  exact Nat.le_trans h Nat.right_le_or

/-- the bytes of a character beyond ASCII are all beyond ASCII -/
theorem le_of_mem_utf8EncodeChar (h : ¬ IsAscii c) :
    ∀ b ∈ String.utf8EncodeChar c, 128 ≤ b.toNat := by
  rcases c.utf8Size_eq with h1 | h2 | h3 | h4
  · exact absurd (utf8Size_eq_one_iff.1 h1) h
  · rw [String.utf8EncodeChar_eq_cons_cons h2]
    simp only [List.forall_mem_cons]
    exact ⟨le_toNat_or (by decide), le_toNat_or (by decide), nofun⟩
  · rw [String.utf8EncodeChar_eq_cons_cons_cons h3]
    simp only [List.forall_mem_cons]
    exact ⟨le_toNat_or (by decide), le_toNat_or (by decide), le_toNat_or (by decide), nofun⟩
  · rw [String.utf8EncodeChar_eq_cons_cons_cons_cons h4]
    simp only [List.forall_mem_cons]
    exact ⟨le_toNat_or (by decide), le_toNat_or (by decide), le_toNat_or (by decide),
      le_toNat_or (by decide), nofun⟩

end

section
variable {mark text : List Char} (hascii : ∀ c ∈ mark, IsAscii c)
include hascii

theorem byteCount_of_isAscii : byteCount mark = mark.length := by
  induction mark with
  | nil => rfl
  | cons c cs ih =>
    obtain ⟨hc, hcs⟩ := List.forall_mem_cons.1 hascii
    rw [byteCount_cons, utf8Size_eq_one_iff.2 hc, ih hcs, List.length_cons, Nat.add_comm]

/-- the bytes begin with those of an ASCII mark exactly if the text begins with the mark -/
theorem utf8_prefix_iff : utf8 mark <+: utf8 text ↔ mark <+: text := by
  induction mark generalizing text with
  | nil => exact iff_of_true (List.nil_prefix ..) (List.nil_prefix ..)
  | cons m ms ih =>
    obtain ⟨hm, hms⟩ := List.forall_mem_cons.1 hascii
    rw [utf8_cons, utf8EncodeChar_of_isAscii hm, List.singleton_append]
    cases text with
    | nil => exact iff_of_false (by simp [utf8_nil]) (by simp)
    | cons c cs =>
      rw [utf8_cons, List.cons_prefix_cons]
      by_cases hc : IsAscii c
      · rw [utf8EncodeChar_of_isAscii hc, List.singleton_append, List.cons_prefix_cons, ih hms]
        exact and_congr_left' ⟨byte_inj hm hc, fun h => by rw [h]⟩
      · -- the first byte of the character is beyond ASCII, and that of the mark is not
        have hhigh := le_of_mem_utf8EncodeChar hc
        have hlen := String.length_utf8EncodeChar c
        have hpos := c.utf8Size_pos
        generalize String.utf8EncodeChar c = bytes at hhigh hlen
        cases bytes with
        | nil => exact absurd hlen (Nat.ne_of_lt hpos)
        | cons b bs =>
          have hb := hhigh b (List.mem_cons_self ..)
          rw [List.cons_append, List.cons_prefix_cons]
          refine iff_of_false (fun h => ?_) fun h => hc (h.1 ▸ hm)
          have hbyte := toNat_byte_of_isAscii hm
          rw [h.1] at hbyte
          exact absurd hm (Nat.not_lt.2 (hbyte ▸ hb))

end

/-! ## cutting at a byte -/

/-- the text in front of a byte and the text from it on; no answer for a byte inside a character
or beyond the end -/
def cutAt? : Nat → List Char → Option (List Char × List Char)
  | 0, cs => some ([], cs)
  | _ + 1, [] => none
  | n + 1, c :: cs =>
    if c.utf8Size ≤ n + 1 then
      (cutAt? (n + 1 - c.utf8Size) cs).map fun (front, back) => (c :: front, back)
    else none

theorem cutAt?_append (a b : List Char) : cutAt? (byteCount a) (a ++ b) = some (a, b) := by
  induction a with
  | nil => rw [byteCount_nil, List.nil_append, cutAt?]
  | cons c cs ih =>
    have hpos := c.utf8Size_pos
    obtain ⟨n, hn⟩ : ∃ n, c.utf8Size + byteCount cs = n + 1 :=
      ⟨c.utf8Size + byteCount cs - 1, by omega⟩
    have hrest : n + 1 - c.utf8Size = byteCount cs := by omega
    rw [byteCount_cons, hn, List.cons_append, cutAt?, if_pos (by omega), hrest, ih]
    rfl

theorem append_of_cutAt? {n : Nat} {text a b : List Char} (h : cutAt? n text = some (a, b)) :
    text = a ++ b ∧ byteCount a = n := by
  induction text generalizing n a b with
  | nil =>
    cases n with
    | zero =>
      cases h
      exact ⟨rfl, rfl⟩
    | succ n => cases h
  | cons c cs ih =>
    cases n with
    | zero =>
      cases h
      exact ⟨rfl, rfl⟩
    | succ n =>
      rw [cutAt?] at h
      split at h
      · next hle =>
        obtain ⟨⟨front, back⟩, hcut, hpair⟩ := Option.map_eq_some_iff.1 h
        cases hpair
        obtain ⟨rfl, hcount⟩ := ih hcut
        exact ⟨rfl, by rw [byteCount_cons, hcount]; omega⟩
      · cases h

/-- a text is cut where a character begins, or at its end, and nowhere else -/
theorem isSome_cutAt?_iff {n : Nat} {text : List Char} :
    (cutAt? n text).isSome ↔ IsBoundary text n := by
  rw [Option.isSome_iff_exists]
  constructor
  · intro h
    obtain ⟨⟨a, b⟩, h⟩ := h
    obtain ⟨htext, hcount⟩ := append_of_cutAt? h
    exact ⟨a, b, htext, hcount⟩
  · intro h
    obtain ⟨a, b, rfl, rfl⟩ := h
    exact ⟨(a, b), cutAt?_append a b⟩

/-! ## finding bytes -/

/-- the number of bytes in front of the first place where the bytes `mark` stand -/
def firstIndex? (mark : List UInt8) : List UInt8 → Option Nat
  | [] => if mark = [] then some 0 else none
  | b :: bs => if mark.isPrefixOf (b :: bs) then some 0 else (firstIndex? mark bs).map (· + 1)

/-- bytes beyond ASCII hold no place where a mark of ASCII begins -/
theorem firstIndex?_append {m : UInt8} {ms front : List UInt8} (hm : m.toNat < 128)
    (h : ∀ b ∈ front, 128 ≤ b.toNat) (back : List UInt8) :
    firstIndex? (m :: ms) (front ++ back) =
      (firstIndex? (m :: ms) back).map (· + front.length) := by
  induction front with
  | nil => exact (Option.map_id' ..).symm
  | cons b bs ih =>
    obtain ⟨hb, hbs⟩ := List.forall_mem_cons.1 h
    have hne : ¬ (m :: ms).isPrefixOf (b :: (bs ++ back)) := by
      rw [List.isPrefixOf_iff_prefix, List.cons_prefix_cons]
      intro hbegins
      rw [hbegins.1] at hm
      exact Nat.not_lt.2 hb hm
    rw [List.cons_append, firstIndex?, if_neg hne, ih hbs, Option.map_map]
    congr 1

namespace Manifest

section
variable {mark : List Char} (hascii : ∀ c ∈ mark, IsAscii c) (hne : mark ≠ [])
include hascii hne

/-- **Among the bytes an ASCII mark is found where it is found among the characters.** -/
theorem firstIndex?_utf8 (text : List Char) :
    firstIndex? (utf8 mark) (utf8 text) =
      (indexOf? mark text).map fun n => byteCount (text.take n) := by
  obtain ⟨m, ms, rfl⟩ := List.exists_cons_of_ne_nil hne
  have hm : IsAscii m := hascii m (List.mem_cons_self ..)
  have hbytes : utf8 (m :: ms) = m.val.toUInt8 :: utf8 ms := by
    rw [utf8_cons, utf8EncodeChar_of_isAscii hm, List.singleton_append]
  have hlow : m.val.toUInt8.toNat < 128 := (toNat_byte_of_isAscii hm).symm ▸ hm
  induction text with
  | nil =>
    rw [utf8_nil, firstIndex?, indexOf?, if_neg hne, if_neg (hbytes ▸ List.cons_ne_nil _ _)]
    rfl
  | cons c cs ih =>
    have hbegins : utf8 (m :: ms) <+: utf8 (c :: cs) ↔ m :: ms <+: c :: cs :=
      utf8_prefix_iff hascii
    have hmap : ((indexOf? (m :: ms) cs).map (· + 1)).map (fun n => byteCount ((c :: cs).take n)) =
        ((indexOf? (m :: ms) cs).map fun n => byteCount (cs.take n)).map (· + c.utf8Size) := by
      rw [Option.map_map, Option.map_map]
      congr 1
      funext n
      show byteCount ((c :: cs).take (n + 1)) = byteCount (cs.take n) + c.utf8Size
      rw [List.take_succ_cons, byteCount_cons, Nat.add_comm]
    rw [indexOf?]
    by_cases hc : IsAscii c
    · have hsize := utf8Size_eq_one_iff.2 hc
      rw [utf8_cons c, utf8EncodeChar_of_isAscii hc, List.singleton_append] at hbegins ⊢
      rw [firstIndex?]
      simp only [List.isPrefixOf_iff_prefix, hbegins]
      split
      · rfl
      · rw [hmap, ih, hsize]
    · have hout : ¬ (m :: ms).isPrefixOf (c :: cs) := by
        rw [List.isPrefixOf_iff_prefix, List.cons_prefix_cons]
        exact fun h => hc (h.1 ▸ hm)
      rw [if_neg hout, hmap, ← ih, hbytes, utf8_cons,
        firstIndex?_append hlow (le_of_mem_utf8EncodeChar hc), String.length_utf8EncodeChar]

end

end Manifest

end ResourceOrder
