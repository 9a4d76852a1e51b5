import ResourceOrder.Text.Blank
import ResourceOrder.Text.Digit

/-!
# Escapes in quoted strings

Between its quotes a string is written with escapes, which begin with a backslash:

* `\n \r \t \a \b \f \v` control characters, `\\ \" \'` the characters themselves, and a
  backslash at the end of a line the line break;
* `\z` nothing, together with all white space that follows it;
* `\xHH` the character whose number has these two hexadecimal digits;
* `\u{H…}` the character whose number has these hexadecimal digits;
* `\D`, `\DD`, `\DDD` the character whose number, at most 255, has these decimal digits; as
  many digits belong to the escape as there are, up to three.

The digits between braces are counted in a word of 32 bits, and the escape is malformed if the
count is zero.  So it is with no digits, and with as many as make the count begin again.

`decode` reads what stands between the quotes, and has no answer if some escape is none of
these.
-/

namespace ResourceOrder.Manifest.Escape

/-! ## one escape -/

/-- the characters that an escape of one letter stands for -/
def simple? : Char → Option Char
  | 'n' => some '\n'
  | '\n' => some '\n'
  | 'r' => some '\r'
  | 't' => some '\t'
  | 'a' => some '\x07'
  | 'b' => some '\x08'
  | 'f' => some '\x0c'
  | 'v' => some '\x0b'
  | '\\' => some '\\'
  | '"' => some '"'
  | '\'' => some '\''
  | _ => none

/-- the character of `\xHH`, and what follows it; the letter is read already -/
def byte? : List Char → Option (Char × List Char)
  | hi :: lo :: rest => do
    let n ← number? 16 hexValue? 0 [hi, lo]
    return (← character? n, rest)
  | _ => none

/-- the number of digits, as a word of 32 bits counts it -/
def digitCount (digits : List Char) : Int32 := .ofNat digits.length

/-- the character of `\u{H…}`, and what follows it; the letter is read already -/
def codePoint? : List Char → Option (Char × List Char)
  | '{' :: cs =>
    match cs.dropWhile (· != '}') with
    | [] => none
    | _ :: rest =>
      let digits := cs.takeWhile (· != '}')
      if digitCount digits = 0 then none
      else do return (← character? (← number? 16 hexValue? 0 digits), rest)
  | _ => none

/-- the decimal digits, three at most, with which the text begins -/
def decimalDigits (cs : List Char) : List Char :=
  (cs.take 3).takeWhile fun c => (decimalValue? c).isSome

/-- the character of `\DDD`, and what follows it -/
def decimal? (cs : List Char) : Option (Char × List Char) :=
  let digits := decimalDigits cs
  if digits = [] then none
  else do
    let n ← number? 10 decimalValue? 0 digits
    if n ≤ 255 then return (← character? n, cs.drop digits.length) else none

/-- what the escape at the head of the text stands for, and what follows it; the backslash is
read already -/
def unescape? : List Char → Option (List Char × List Char)
  | [] => none
  | 'z' :: cs => some ([], cs.dropWhile isBlank)
  | 'x' :: cs => (byte? cs).map fun (c, rest) => ([c], rest)
  | 'u' :: cs => (codePoint? cs).map fun (c, rest) => ([c], rest)
  | c :: cs =>
    match simple? c with
    | some d => some ([d], cs)
    | none => (decimal? (c :: cs)).map fun (d, rest) => ([d], rest)

/-! ## the shapes of an escape -/

theorem codePoint?_brace (cs : List Char) :
    codePoint? ('{' :: cs) =
      match cs.dropWhile (· != '}') with
      | [] => none
      | _ :: rest =>
        if digitCount (cs.takeWhile (· != '}')) = 0 then none
        else (number? 16 hexValue? 0 (cs.takeWhile (· != '}'))).bind fun n =>
          (character? n).map fun c => (c, rest) := by
  rw [codePoint?]
  cases cs.dropWhile (· != '}') with
  | nil => rfl
  | cons d rest =>
    dsimp only
    split
    · rfl
    · cases number? 16 hexValue? 0 (cs.takeWhile (· != '}')) with
      | none => rfl
      | some n => cases h : character? n <;> simp [h]

theorem codePoint?_eq_none {cs : List Char} (h : ∀ ds, cs ≠ '{' :: ds) : codePoint? cs = none := by
  rw [codePoint?]
  exact h

theorem unescape?_blanks (cs : List Char) :
    unescape? ('z' :: cs) = some ([], cs.dropWhile isBlank) := rfl

theorem unescape?_byte (cs : List Char) :
    unescape? ('x' :: cs) = (byte? cs).map fun (c, rest) => ([c], rest) := rfl

theorem unescape?_codePoint (cs : List Char) :
    unescape? ('u' :: cs) = (codePoint? cs).map fun (c, rest) => ([c], rest) := rfl

theorem unescape?_other {c : Char} (hz : c ≠ 'z') (hx : c ≠ 'x') (hu : c ≠ 'u')
    (cs : List Char) :
    unescape? (c :: cs) =
      match simple? c with
      | some d => some ([d], cs)
      | none => (decimal? (c :: cs)).map fun (d, rest) => ([d], rest) := by
  rw [unescape?]
  · exact hz
  · exact hx
  · exact hu

/-! ## whole strings -/

theorem length_dropWhile_le (p : Char → Bool) (cs : List Char) :
    (cs.dropWhile p).length ≤ cs.length :=
  (List.dropWhile_suffix p).length_le

theorem length_of_byte? {cs rest : List Char} {c : Char} (h : byte? cs = some (c, rest)) :
    rest.length < cs.length := by
  unfold byte? at h
  split at h
  · simp only [Option.bind_eq_bind, Option.bind_eq_some_iff, Option.pure_def, Option.some.injEq,
      Prod.mk.injEq] at h
    obtain ⟨_, _, _, _, _, rfl⟩ := h
    rw [List.length_cons, List.length_cons]
    omega
  · simp at h

theorem length_of_codePoint? {cs rest : List Char} {c : Char}
    (h : codePoint? cs = some (c, rest)) : rest.length < cs.length := by
  unfold codePoint? at h
  split at h
  · rename_i ds
    have hle := length_dropWhile_le (· != '}') ds
    split at h
    · cases h
    · rename_i heq
      dsimp only at h
      split at h
      · cases h
      · simp only [Option.bind_eq_bind, Option.bind_eq_some_iff, Option.pure_def,
          Option.some.injEq, Prod.mk.injEq] at h
        obtain ⟨_, _, _, _, _, rfl⟩ := h
        rw [heq] at hle
        simp only [List.length_cons] at hle ⊢
        omega
  · simp at h

theorem length_of_decimal? {cs rest : List Char} {c : Char} (h : decimal? cs = some (c, rest)) :
    rest.length < cs.length := by
  unfold decimal? at h
  dsimp only at h
  split at h
  · cases h
  · rename_i hne
    simp only [Option.bind_eq_bind, Option.bind_eq_some_iff] at h
    obtain ⟨_, _, h⟩ := h
    split at h
    · simp only [Option.pure_def, Option.bind_eq_some_iff, Option.some.injEq, Prod.mk.injEq] at h
      obtain ⟨_, _, _, rfl⟩ := h
      have hpos : 0 < (decimalDigits cs).length := List.length_pos_iff.mpr hne
      have hlen : (decimalDigits cs).length ≤ cs.length :=
        Nat.le_trans ((List.takeWhile_prefix _).length_le) (List.length_take_le' 3 cs)
      rw [List.length_drop]
      omega
    · cases h

/-- an escape is at least one character long -/
theorem length_of_unescape? {cs out rest : List Char} (h : unescape? cs = some (out, rest)) :
    rest.length < cs.length := by
  unfold unescape? at h
  split at h
  · simp at h
  · rename_i ds
    have hle := length_dropWhile_le isBlank ds
    simp only [Option.some.injEq, Prod.mk.injEq] at h
    obtain ⟨_, rfl⟩ := h
    simp only [List.length_cons]
    omega
  · simp only [Option.map_eq_some_iff, Prod.mk.injEq, Prod.exists] at h
    obtain ⟨_, _, h, _, rfl⟩ := h
    have := length_of_byte? h
    simp only [List.length_cons]
    omega
  · simp only [Option.map_eq_some_iff, Prod.mk.injEq, Prod.exists] at h
    obtain ⟨_, _, h, _, rfl⟩ := h
    have := length_of_codePoint? h
    simp only [List.length_cons]
    omega
  · split at h
    · simp only [Option.some.injEq, Prod.mk.injEq] at h
      obtain ⟨_, rfl⟩ := h
      simp
    · simp only [Option.map_eq_some_iff, Prod.mk.injEq, Prod.exists] at h
      obtain ⟨_, _, h, _, rfl⟩ := h
      exact length_of_decimal? h

/-- the text that a string with this body stands for -/
def decode : List Char → Option (List Char)
  | [] => some []
  | c :: cs =>
    if c = '\\' then
      match _h : unescape? cs with
      | none => none
      | some (out, rest) => (decode rest).map (out ++ ·)
    else (decode cs).map (c :: ·)
termination_by cs => cs.length
decreasing_by
  · have := length_of_unescape? _h
    simp only [List.length_cons]
    omega
  · simp

theorem decode_nil : decode [] = some [] := by rw [decode]

/-- a character other than a backslash stands for itself -/
theorem decode_plain {c : Char} (h : c ≠ '\\') (cs : List Char) :
    decode (c :: cs) = (decode cs).map (c :: ·) := by
  rw [decode, if_neg h]

/-- an escape is read whole, and the rest after it -/
theorem decode_escape {cs out rest : List Char} (h : unescape? cs = some (out, rest)) :
    decode ('\\' :: cs) = (decode rest).map (out ++ ·) := by
  rw [decode, if_pos rfl]
  split
  · rename_i hn; rw [h] at hn; cases hn
  · rename_i hs; rw [h] at hs; cases hs; rfl

/-- a backslash that begins no escape spoils the string -/
theorem decode_eq_none {cs : List Char} (h : unescape? cs = none) :
    decode ('\\' :: cs) = none := by
  rw [decode, if_pos rfl]
  split
  · rfl
  · rename_i hs; rw [h] at hs; cases hs

end ResourceOrder.Manifest.Escape
