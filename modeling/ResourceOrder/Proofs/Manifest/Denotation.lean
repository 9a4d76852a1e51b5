import ResourceOrder.Proofs.Manifest.Literals
import ResourceOrder.Proofs.Manifest.WordArithmetic

/-!
# What a string stands for

* `letters`     the characters that are written as a backslash and one character;
* `EscapeFor`   the characters behind a backslash that stand for a character, which depends on
                what follows them: of decimal digits an escape takes as many as it can;
* `Denotes`     the body, cut into characters and escapes, stands for the text;
* `hasSkip`     some escape of the body is `\z`, which stands for no character.

Between braces there may be any number of digits that a word of 32 bits does not count as zero
(`digitCount_eq_zero_iff`).  An escape is read exactly if the rules know it
(`unescape?_eq_some_iff`).  **So a body without `\z` is a string with some value exactly if it
denotes this value; the value is one only, each value is denoted, and only 2³¹ digits between braces
are too many for the words of a machine** (`tokenize_literal`).  Zeros in front do not count, but
2³² of them are counted as none (`tokenize_zeros`).
-/

namespace ResourceOrder.Manifest

namespace Escape

/-! ## the rules -/

/-- what stands behind the backslash, and the character that is meant -/
def letters : List (Char × Char) :=
  [('n', '\n'), ('r', '\r'), ('t', '\t'), ('a', '\x07'), ('b', '\x08'), ('f', '\x0c'),
    ('v', '\x0b'), ('\\', '\\'), ('\'', '\''), ('"', '"'), ('\n', '\n')]

/-- the text behind a backslash stands for the character `c` if `rest` follows it -/
inductive EscapeFor : List Char → Char → List Char → Prop
  | letter {letter c : Char} {rest : List Char} : (letter, c) ∈ letters → EscapeFor [letter] c rest
  | byte {hi lo c : Char} {rest : List Char} :
      Writes 16 [hi, lo] c.toNat → EscapeFor ['x', hi, lo] c rest
  | codePoint {digits : List Char} {c : Char} {rest : List Char} :
      ¬ 2 ^ 32 ∣ digits.length → Writes 16 digits c.toNat →
      EscapeFor ('u' :: '{' :: (digits ++ ['}'])) c rest
  | decimal {digits : List Char} {c : Char} {rest : List Char} :
      digits ≠ [] → digits.length ≤ 3 → Writes 10 digits c.toNat → c.toNat ≤ 255 →
      (digits.length = 3 ∨ ∀ d ∈ rest.head?, ¬ d.isDigit) → EscapeFor digits c rest

/-- the text between two quotes stands for the value -/
inductive Denotes (quote : Char) : List Char → List Char → Prop
  | nil : Denotes quote [] []
  | plain {c : Char} {cs value : List Char} : c ≠ '\\' → c ≠ quote → c ≠ '\n' →
      Denotes quote cs value → Denotes quote (c :: cs) (c :: value)
  | escape {escape rest value : List Char} {c : Char} : EscapeFor escape c rest →
      Denotes quote rest value → Denotes quote ('\\' :: (escape ++ rest)) (c :: value)

/-- read from left to right, one of the escapes is `\z` -/
def hasSkip : List Char → Bool
  | [] => false
  | [_] => false
  | c :: d :: cs => if c = '\\' then d == 'z' || hasSkip cs else hasSkip (d :: cs)

/-! ## numbers of escapes -/

section
variable {cs rest : List Char} {c : Char} {base n : Nat}

theorem hexNumber?_eq_some_iff {digits : List Char} :
    number? 16 hexValue? 0 digits = some n ↔ Writes 16 digits n :=
  number?_eq_some_iff fun _ _ => hexValue?_eq_some_iff

theorem decimalNumber?_eq_some_iff {digits : List Char} :
    number? 10 decimalValue? 0 digits = some n ↔ Writes 10 digits n :=
  number?_eq_some_iff fun _ _ => decimalValue?_eq_some_iff

/-- what is written is written in digits -/
theorem exists_isDigit_of_writes {digits : List Char} (h : Writes base digits n) :
    ∀ x ∈ digits, ∃ d, IsDigit base x d := by
  obtain ⟨values, hall, -⟩ := h
  induction hall with
  | nil => exact nofun
  | cons hd _ ih => exact List.forall_mem_cons.2 ⟨⟨_, hd⟩, ih⟩

theorem byte?_eq_some_iff :
    byte? cs = some (c, rest) ↔
      ∃ hi lo, cs = hi :: lo :: rest ∧ Writes 16 [hi, lo] c.toNat := by
  match cs with
  | [] => exact iff_of_false nofun (by simp)
  | [_] => exact iff_of_false nofun (by simp)
  | hi :: lo :: ds =>
    simp only [byte?, Option.bind_eq_bind, Option.bind_eq_some_iff, Option.pure_def,
      Option.some.injEq, Prod.mk.injEq, hexNumber?_eq_some_iff, character?_eq_some_iff]
    constructor
    · rintro ⟨_, hn, _, rfl, rfl, rfl⟩
      exact ⟨hi, lo, rfl, hn⟩
    · rintro ⟨_, _, hsplit, hn⟩
      cases hsplit
      exact ⟨_, hn, c, rfl, rfl, rfl⟩

theorem digitCount_eq_zero_iff {digits : List Char} :
    digitCount digits = 0 ↔ 2 ^ 32 ∣ digits.length := by
  rw [digitCount, ← Int32.toBitVec_inj, Int32.toBitVec_ofNat', ← BitVec.toNat_inj,
    BitVec.toNat_ofNat, Nat.dvd_iff_mod_eq_zero]
  rfl

/-- what stands in front of the first closing brace is what is read as digits -/
theorem codePoint?_append {digits : List Char} (hplain : ∀ d ∈ digits, d ≠ '}')
    (rest : List Char) : codePoint? ('{' :: (digits ++ '}' :: rest)) =
      if digitCount digits = 0 then none
      else (number? 16 hexValue? 0 digits).bind fun n => (character? n).map fun c => (c, rest) := by
  have hpass : ∀ d ∈ digits, (d != '}') = true := fun d hd => bne_iff_ne.2 (hplain d hd)
  rw [codePoint?_brace, List.dropWhile_append_of_pos hpass, List.takeWhile_append_of_pos hpass,
    List.dropWhile_cons_of_neg (by decide), List.takeWhile_cons_of_neg (by decide),
    List.append_nil]

theorem codePoint?_eq_some_iff :
    codePoint? cs = some (c, rest) ↔
      ∃ digits, cs = '{' :: (digits ++ '}' :: rest) ∧ ¬ 2 ^ 32 ∣ digits.length ∧
        Writes 16 digits c.toNat := by
  constructor
  · intro h
    by_cases hbrace : ∃ ds, cs = '{' :: ds
    · obtain ⟨ds, rfl⟩ := hbrace
      rw [codePoint?_brace] at h
      cases hrest : ds.dropWhile (· != '}') with
      | nil =>
        rw [hrest] at h
        cases h
      | cons brace after =>
        have hclosed := List.head?_dropWhile_not (· != '}') ds
        rw [hrest] at hclosed
        obtain rfl : brace = '}' := bne_eq_false_iff_eq.1 hclosed
        rw [hrest] at h
        dsimp only at h
        split_ifs at h with hcount
        obtain ⟨n, hn, hc⟩ := Option.bind_eq_some_iff.1 h
        obtain ⟨d, hd, hpair⟩ := Option.map_eq_some_iff.1 hc
        obtain ⟨rfl, rfl⟩ := Prod.mk.inj hpair
        rw [hexNumber?_eq_some_iff] at hn
        rw [character?_eq_some_iff] at hd
        rw [digitCount_eq_zero_iff] at hcount
        refine ⟨ds.takeWhile (· != '}'), ?_, hcount, hd ▸ hn⟩
        rw [← hrest, List.takeWhile_append_dropWhile]
    · rw [codePoint?_eq_none fun ds hds => hbrace ⟨ds, hds⟩] at h
      cases h
  · rintro ⟨digits, rfl, hcount, hn⟩
    have hplain : ∀ d ∈ digits, d ≠ '}' := by
      rintro d hd rfl
      obtain ⟨v, hv⟩ := exists_isDigit_of_writes hn '}' hd
      cases hv.isAlphanum (Nat.le_refl 16)
    rw [codePoint?_append hplain, if_neg (fun h => hcount (digitCount_eq_zero_iff.1 h)),
      hexNumber?_eq_some_iff.2 hn, Option.bind_some, character?_toNat, Option.map_some]

theorem isSome_decimalValue? (x : Char) : (decimalValue? x).isSome = x.isDigit := by
  rw [Bool.eq_iff_iff, isDigit_iff, Option.isSome_iff_exists]
  simp only [decimalValue?_eq_some_iff]

theorem decimalDigits_eq (cs : List Char) :
    decimalDigits cs = (cs.take 3).takeWhile Char.isDigit := by
  unfold decimalDigits
  congr 1
  funext x
  exact isSome_decimalValue? x

/-- as many digits are taken as there are, up to three -/
theorem decimalDigits_greedy (cs : List Char) :
    (decimalDigits cs).length = 3 ∨
      ∀ d ∈ (cs.drop (decimalDigits cs).length).head?, ¬ d.isDigit := by
  rw [Classical.or_iff_not_imp_left]
  intro hlen d hd
  have hle : (decimalDigits cs).length ≤ 3 :=
    Nat.le_trans (List.takeWhile_prefix _).length_le (List.length_take_le 3 cs)
  have hstop := List.head?_dropWhile_not Char.isDigit (cs.take 3)
  rw [← drop_takeWhile_length, ← decimalDigits_eq, List.drop_take] at hstop
  obtain ⟨more, hmore⟩ := List.head?_eq_some_iff.1 hd
  obtain ⟨k, hk⟩ : ∃ k, 3 - (decimalDigits cs).length = k + 1 :=
    ⟨2 - (decimalDigits cs).length, by omega⟩
  rw [hmore, hk, List.take_succ_cons] at hstop
  exact Bool.eq_false_iff.1 hstop

theorem decimalDigits_append {digits : List Char} (hlen : digits.length ≤ 3)
    (hdigits : ∀ d ∈ digits, d.isDigit)
    (hgreedy : digits.length = 3 ∨ ∀ d ∈ rest.head?, ¬ d.isDigit) :
    decimalDigits (digits ++ rest) = digits := by
  rw [decimalDigits_eq, List.take_append, List.take_of_length_le hlen,
    List.takeWhile_append_of_pos hdigits]
  suffices hnone : (rest.take (3 - digits.length)).takeWhile Char.isDigit = [] by
    rw [hnone, List.append_nil]
  rcases hgreedy with hthree | hrest
  · rw [hthree]
    rfl
  · cases rest with
    | nil => rw [List.take_nil, List.takeWhile_nil]
    | cons d ds =>
      cases 3 - digits.length with
      | zero => rfl
      | succ k =>
        rw [List.take_succ_cons]
        exact List.takeWhile_cons_of_neg (hrest d rfl)

theorem decimal?_eq_some_iff :
    decimal? cs = some (c, rest) ↔
      ∃ digits, cs = digits ++ rest ∧ digits ≠ [] ∧ digits.length ≤ 3 ∧ Writes 10 digits c.toNat ∧
        c.toNat ≤ 255 ∧ (digits.length = 3 ∨ ∀ d ∈ rest.head?, ¬ d.isDigit) := by
  constructor
  · intro h
    have hfront : decimalDigits cs <+: cs :=
      (List.takeWhile_prefix _).trans (List.take_prefix 3 cs)
    have hsplit : cs = decimalDigits cs ++ cs.drop (decimalDigits cs).length :=
      (List.prefix_iff_eq_append.1 hfront).symm
    have hlen : (decimalDigits cs).length ≤ 3 :=
      Nat.le_trans (List.takeWhile_prefix _).length_le (List.length_take_le 3 cs)
    have hgreedy := decimalDigits_greedy cs
    unfold decimal? at h
    dsimp only at h
    split_ifs at h with hempty
    simp only [Option.bind_eq_bind, Option.bind_eq_some_iff, decimalNumber?_eq_some_iff] at h
    obtain ⟨n, hn, h⟩ := h
    split_ifs at h with hle
    simp only [Option.pure_def, Option.bind_eq_some_iff, character?_eq_some_iff,
      Option.some.injEq, Prod.mk.injEq] at h
    obtain ⟨_, rfl, rfl, rfl⟩ := h
    exact ⟨decimalDigits cs, hsplit, hempty, hlen, hn, hle, hgreedy⟩
  · rintro ⟨digits, rfl, hempty, hlen, hn, hle, hgreedy⟩
    have hdigits : ∀ d ∈ digits, d.isDigit := fun d hd =>
      isDigit_iff.2 (exists_isDigit_of_writes hn d hd)
    unfold decimal?
    rw [decimalDigits_append hlen hdigits hgreedy]
    dsimp only
    rw [if_neg hempty, decimalNumber?_eq_some_iff.2 hn]
    show (if c.toNat ≤ 255 then _ else _) = _
    rw [if_pos hle, character?_toNat, List.drop_left]
    rfl

/-! ## escapes -/

theorem simple?_eq_some_iff {letter : Char} :
    simple? letter = some c ↔ (letter, c) ∈ letters := by
  constructor
  · intro h
    unfold simple? at h
    split at h <;> cases h <;> decide
  · intro h
    have hall : ∀ p ∈ letters, simple? p.1 = some p.2 := by decide
    exact hall _ h

theorem EscapeFor.of_unescape? {out : List Char} (hz : cs.head? ≠ some 'z')
    (h : unescape? cs = some (out, rest)) :
    ∃ escape c, cs = escape ++ rest ∧ out = [c] ∧ EscapeFor escape c rest := by
  cases cs with
  | nil => cases h
  | cons x ds =>
    by_cases hx : x = 'x'
    · subst hx
      rw [unescape?_byte] at h
      obtain ⟨⟨c, _⟩, hread, hpair⟩ := Option.map_eq_some_iff.1 h
      cases hpair
      obtain ⟨hi, lo, rfl, hn⟩ := byte?_eq_some_iff.1 hread
      exact ⟨_, c, rfl, rfl, .byte hn⟩
    by_cases hu : x = 'u'
    · subst hu
      rw [unescape?_codePoint] at h
      obtain ⟨⟨c, _⟩, hread, hpair⟩ := Option.map_eq_some_iff.1 h
      cases hpair
      obtain ⟨digits, rfl, hcount, hn⟩ := codePoint?_eq_some_iff.1 hread
      refine ⟨_, c, ?_, rfl, .codePoint hcount hn⟩
      rw [List.cons_append, List.cons_append, List.append_assoc, List.singleton_append]
    rw [unescape?_other (fun he => hz (congrArg some he)) hx hu] at h
    cases hs : simple? x with
    | some d =>
      rw [hs] at h
      cases h
      exact ⟨[x], d, rfl, rfl, .letter (simple?_eq_some_iff.1 hs)⟩
    | none =>
      rw [hs] at h
      obtain ⟨⟨c, _⟩, hread, hpair⟩ := Option.map_eq_some_iff.1 h
      cases hpair
      obtain ⟨digits, hsplit, hempty, hlen, hn, hle, hgreedy⟩ := decimal?_eq_some_iff.1 hread
      exact ⟨digits, c, hsplit, rfl, .decimal hempty hlen hn hle hgreedy⟩

theorem EscapeFor.unescape? {escape : List Char} (h : EscapeFor escape c rest) :
    Escape.unescape? (escape ++ rest) = some ([c], rest) := by
  cases h with
  | @letter x _ _ hmem =>
    have hall : ∀ p ∈ letters, p.1 ≠ 'z' ∧ p.1 ≠ 'x' ∧ p.1 ≠ 'u' := by decide
    obtain ⟨hz, hx, hu⟩ := hall _ hmem
    rw [List.singleton_append, unescape?_other hz hx hu, simple?_eq_some_iff.2 hmem]
  | @byte hi lo _ _ hn =>
    show Escape.unescape? ('x' :: hi :: lo :: rest) = _
    rw [unescape?_byte, byte?_eq_some_iff.2 ⟨hi, lo, rfl, hn⟩, Option.map_some]
  | @codePoint digits _ _ hcount hn =>
    have hread : codePoint? ('{' :: (digits ++ ['}']) ++ rest) = some (c, rest) := by
      refine codePoint?_eq_some_iff.2 ⟨digits, ?_, hcount, hn⟩
      rw [List.cons_append, List.append_assoc, List.singleton_append]
    rw [List.cons_append, unescape?_codePoint, hread, Option.map_some]
  | decimal hempty hlen hn hle hgreedy =>
    obtain ⟨d, ds, rfl⟩ := List.exists_cons_of_ne_nil hempty
    have hdigit : d.isDigit := isDigit_iff.2 (exists_isDigit_of_writes hn d List.mem_cons_self)
    have hnone : simple? d = none := by
      have hall : ∀ p ∈ letters, ¬ p.1.isDigit := by decide
      refine Option.eq_none_iff_forall_ne_some.2 fun _ hs => ?_
      exact hall _ (simple?_eq_some_iff.1 hs) hdigit
    have hne : ∀ x : Char, ¬ x.isDigit → d ≠ x := fun x hx he => hx (he ▸ hdigit)
    have hread := decimal?_eq_some_iff.2 ⟨d :: ds, rfl, hempty, hlen, hn, hle, hgreedy⟩
    rw [List.cons_append] at hread ⊢
    rw [unescape?_other (hne _ (by decide)) (hne _ (by decide)) (hne _ (by decide)), hnone]
    dsimp only
    rw [hread, Option.map_some]

/-- **An escape other than `\z` is read exactly if the rules know it.** -/
theorem unescape?_eq_some_iff {out : List Char} (hz : cs.head? ≠ some 'z') :
    unescape? cs = some (out, rest) ↔
      ∃ escape c, cs = escape ++ rest ∧ out = [c] ∧ EscapeFor escape c rest := by
  constructor
  · exact EscapeFor.of_unescape? hz
  · rintro ⟨escape, c, rfl, rfl, hescape⟩
    exact hescape.unescape?

/-! ## bodies -/

section
variable {quote : Char} (hq : isQuote quote)
include hq

/-- digits, in whatever base, mean nothing to the scanner -/
theorem plain_of_writes {digits : List Char} (hbase : base ≤ 16) (h : Writes base digits n) :
    ∀ d ∈ digits, d ≠ '\\' ∧ d ≠ quote ∧ d ≠ '\n' := by
  intro d hd
  obtain ⟨v, hv⟩ := exists_isDigit_of_writes h d hd
  have halnum := hv.isAlphanum hbase
  have hne : ∀ x : Char, x.isAlphanum = false → d ≠ x := by
    rintro x hx rfl
    rw [halnum] at hx
    cases hx
  refine ⟨hne _ (by decide), ?_, hne _ (by decide)⟩
  rcases eq_of_isQuote hq with rfl | rfl
  · exact hne _ (by decide)
  · exact hne _ (by decide)

/-- an escape is a character other than `z`, and characters that mean nothing to the scanner -/
theorem EscapeFor.exists_cons {escape : List Char} (h : EscapeFor escape c rest) :
    ∃ x tail, escape = x :: tail ∧ x ≠ 'z' ∧ ∀ d ∈ tail, d ≠ '\\' ∧ d ≠ quote ∧ d ≠ '\n' := by
  cases h with
  | @letter x _ _ hmem =>
    have hall : ∀ p ∈ letters, p.1 ≠ 'z' := by decide
    exact ⟨x, [], rfl, hall _ hmem, nofun⟩
  | byte hn => exact ⟨'x', _, rfl, by decide, plain_of_writes hq (Nat.le_refl 16) hn⟩
  | @codePoint digits _ _ hcount hn =>
    have hbrace : ∀ d : Char, isQuote d = false → d ≠ quote := fun d hd =>
      (Piece.ne_of_isQuote hq hd).symm
    refine ⟨'u', _, rfl, by decide, List.forall_mem_cons.2 ⟨?_, List.forall_mem_append.2 ⟨?_, ?_⟩⟩⟩
    · exact ⟨by decide, hbrace _ rfl, by decide⟩
    · exact plain_of_writes hq (Nat.le_refl 16) hn
    · exact List.forall_mem_singleton.2 ⟨by decide, hbrace _ rfl, by decide⟩
  | decimal hempty hlen hn hle hgreedy =>
    obtain ⟨d, ds, rfl⟩ := List.exists_cons_of_ne_nil hempty
    have hdigit : d.isDigit := isDigit_iff.2 (exists_isDigit_of_writes hn d List.mem_cons_self)
    obtain ⟨-, htail⟩ := List.forall_mem_cons.1 (plain_of_writes hq (by decide) hn)
    refine ⟨d, ds, rfl, ?_, htail⟩
    rintro rfl
    cases hdigit

end

theorem hasSkip_plain (hc : c ≠ '\\') (cs : List Char) : hasSkip (c :: cs) = hasSkip cs := by
  cases cs with
  | nil => rfl
  | cons d ds => rw [hasSkip, if_neg hc]

theorem hasSkip_escape (d : Char) (cs : List Char) :
    hasSkip ('\\' :: d :: cs) = (d == 'z' || hasSkip cs) := by
  rw [hasSkip, if_pos rfl]

theorem hasSkip_append_plain {tail : List Char} (h : ∀ d ∈ tail, d ≠ '\\') (rest : List Char) :
    hasSkip (tail ++ rest) = hasSkip rest := by
  induction tail with
  | nil => rfl
  | cons d ds ih =>
    obtain ⟨hd, hds⟩ := List.forall_mem_cons.1 h
    rw [List.cons_append, hasSkip_plain hd, ih hds]

end

end Escape

section
variable {quote : Char} {body rest : List Char}

namespace Escape

theorem Denotes.decode (hq : isQuote quote) {value : List Char} (h : Denotes quote body value) :
    ¬ hasSkip body ∧ IsBody quote body ∧ Escape.decode body = some value := by
  induction h with
  | nil => exact ⟨Bool.false_ne_true, .nil, decode_nil⟩
  | plain hslash hquote hline _ ih =>
    obtain ⟨hskip, hbody, hdecode⟩ := ih
    refine ⟨?_, .plain hslash hquote hline hbody, ?_⟩
    · rwa [hasSkip_plain hslash]
    · rw [decode_plain hslash, hdecode, Option.map_some]
  | escape hescape _ ih =>
    obtain ⟨hskip, hbody, hdecode⟩ := ih
    have hread := hescape.unescape?
    obtain ⟨x, tail, rfl, hx, htail⟩ := hescape.exists_cons hq
    refine ⟨?_, .escape ((isBody_append_plain htail).2 hbody), ?_⟩
    · rw [List.cons_append, hasSkip_escape, beq_false_of_ne hx, Bool.false_or,
        hasSkip_append_plain fun d hd => (htail d hd).1]
      exact hskip
    · rw [decode_escape hread, hdecode, Option.map_some, List.singleton_append]

theorem denotes_of_decode (hq : isQuote quote) {value : List Char} (hskip : ¬ hasSkip body)
    (hbody : IsBody quote body) (hdecode : decode body = some value) :
    Denotes quote body value := by
  induction hlen : body.length using Nat.strongRecOn generalizing body value with
  | ind n ih =>
    cases hbody with
    | nil =>
      rw [decode_nil] at hdecode
      cases hdecode
      exact .nil
    | @plain c cs hslash hquote hline hbody =>
      rw [hasSkip_plain hslash] at hskip
      rw [decode_plain hslash] at hdecode
      obtain ⟨value, hvalue, rfl⟩ := Option.map_eq_some_iff.1 hdecode
      rw [List.length_cons] at hlen
      exact .plain hslash hquote hline (ih cs.length (by omega) hskip hbody hvalue rfl)
    | @escape d cs hbody =>
      rw [hasSkip_escape, Bool.or_eq_true, not_or, beq_iff_eq] at hskip
      obtain ⟨hd, hskip⟩ := hskip
      have hhead : (d :: cs).head? ≠ some 'z' := fun he => hd (Option.some.inj he)
      cases hread : unescape? (d :: cs) with
      | none =>
        rw [decode_eq_none hread] at hdecode
        cases hdecode
      | some found =>
        obtain ⟨out, rest⟩ := found
        rw [decode_escape hread] at hdecode
        obtain ⟨value, hvalue, rfl⟩ := Option.map_eq_some_iff.1 hdecode
        obtain ⟨escape, c, hsplit, rfl, hescape⟩ := (unescape?_eq_some_iff hhead).1 hread
        have hshort := length_of_unescape? hread
        -- the scanner passes over the whole escape, too, so what is left is a body
        obtain ⟨x, tail, rfl, hx, htail⟩ := hescape.exists_cons hq
        rw [List.cons_append, List.cons.injEq] at hsplit
        obtain ⟨rfl, rfl⟩ := hsplit
        rw [hasSkip_append_plain fun d hd => (htail d hd).1] at hskip
        rw [isBody_append_plain htail] at hbody
        simp only [List.length_cons] at hlen hshort
        exact .escape hescape (ih rest.length (by omega) hskip hbody hvalue rfl)

/-- **What a body denotes is what is decoded**, if it is a body that has no `\z`. -/
theorem denotes_iff (hq : isQuote quote) {value : List Char} :
    Denotes quote body value ↔
      ¬ hasSkip body ∧ IsBody quote body ∧ decode body = some value :=
  ⟨Denotes.decode hq, fun ⟨hskip, hbody, hdecode⟩ => denotes_of_decode hq hskip hbody hdecode⟩

/-- a character is written as it is, or with a backslash in front of it -/
theorem exists_denotes (hq : isQuote quote) (value : List Char) :
    ∃ body, Denotes quote body value := by
  induction value with
  | nil => exact ⟨[], .nil⟩
  | cons c value ih =>
    obtain ⟨body, hbody⟩ := ih
    by_cases hescape : c = '\\' ∨ c = quote ∨ c = '\n'
    · have hmem : (c, c) ∈ letters := by
        rcases hescape with rfl | rfl | rfl
        · decide
        · rcases eq_of_isQuote hq with rfl | rfl <;> decide
        · decide
      exact ⟨_, .escape (.letter hmem) hbody⟩
    · rw [not_or, not_or] at hescape
      obtain ⟨hslash, hquote, hline⟩ := hescape
      exact ⟨c :: body, .plain hslash hquote hline hbody⟩

end Escape

/-- **A body without `\z` between quotes is a string with this value exactly if it denotes the
value; a body denotes one value only, every value is written in some body, and a machine that
counts in words of 32 bits decodes each body without an overflow in which it does not come to 2³¹
digits that it counts.** -/
theorem tokenize_literal (hq : isQuote quote) :
    (∀ body value, ¬ Escape.hasSkip body →
      (IsLiteral (quote :: (body ++ [quote])) value ↔ Escape.Denotes quote body value.toList)) ∧
    (∀ body value value', Escape.Denotes quote body value → Escape.Denotes quote body value' →
      value = value') ∧
    (∀ value, ∃ body, ¬ Escape.hasSkip body ∧ IsLiteral (quote :: (body ++ [quote])) value) ∧
    ∀ body, (Escape.decodeWords body = .error .overflow ↔ Escape.Overflows body) ∧
      (¬ Escape.Overflows body → Escape.decodeWords body = Escape.ofOption (Escape.decode body)) ∧
      (Escape.Overflows body → 2 ^ 31 ≤ body.length) := by
  refine ⟨fun body value hskip => ?_, fun body value value' h h' => ?_, fun value => ?_,
    fun body => ⟨Escape.decodeWords_eq_overflow_iff, Escape.decodeWords_eq,
      Escape.Overflows.le_length⟩⟩
  · rw [isLiteral_iff hq, Escape.denotes_iff hq, and_iff_right hskip]
  · have hvalue := ((Escape.denotes_iff hq).1 h).2.2
    rw [((Escape.denotes_iff hq).1 h').2.2] at hvalue
    exact (Option.some.inj hvalue).symm
  · obtain ⟨body, hbody⟩ := Escape.exists_denotes hq value.toList
    obtain ⟨hskip, hliteral⟩ := (Escape.denotes_iff hq).1 hbody
    exact ⟨body, hskip, (isLiteral_iff hq).2 hliteral⟩

/-- three digits belong to an escape, not the fourth; zeros in front do not count; and an escaped
quote ends nothing -/
theorem tokenize_literal_mixed :
    isQuote '\'' ∧ ¬ Escape.hasSkip "\\0651\\'\\u{000e9}".toList ∧
      Escape.Denotes '\'' "\\0651\\'\\u{000e9}".toList "A1'é".toList ∧
      IsLiteral ('\'' :: ("\\0651\\'\\u{000e9}".toList ++ ['\''])) "A1'é" := by
  have hdecimal : Escape.EscapeFor ['0', '6', '5'] 'A' "1\\'\\u{000e9}".toList :=
    .decimal (List.cons_ne_nil _ _) (by decide)
      ⟨[0, 6, 5], .cons (by decide) (.cons (by decide) (.cons (by decide) .nil)), rfl⟩
      (by decide) (.inl rfl)
  have hquote : Escape.EscapeFor ['\''] '\'' "\\u{000e9}".toList := .letter (by decide)
  have hcode : Escape.EscapeFor ('u' :: '{' :: (['0', '0', '0', 'e', '9'] ++ ['}'])) 'é' [] :=
    .codePoint (by decide)
      ⟨[0, 0, 0, 14, 9], .cons (by decide) (.cons (by decide) (.cons (by decide)
        (.cons (by decide) (.cons (by decide) .nil)))), rfl⟩
  have hdenotes : Escape.Denotes '\'' "\\0651\\'\\u{000e9}".toList "A1'é".toList :=
    .escape hdecimal (.plain (by decide) (by decide) (by decide)
      (.escape hquote (.escape hcode .nil)))
  have hskip : ¬ Escape.hasSkip "\\0651\\'\\u{000e9}".toList := by decide
  exact ⟨rfl, hskip, hdenotes, ((tokenize_literal rfl).1 _ _ hskip).2 hdenotes⟩

namespace Escape

/-- the escape of the character with the number zero, in so many digits -/
def zeros (count : Nat) : List Char := '\\' :: 'u' :: '{' :: (List.replicate count '0' ++ ['}'])

theorem hexNumber?_zeros (count : Nat) :
    number? 16 hexValue? 0 (List.replicate count '0') = some 0 := by
  induction count with
  | zero => rfl
  | succ count ih => exact ih

theorem decode_zeros {count : Nat} (h : 2 ^ 32 ∣ count) : decode (zeros count) = none := by
  have hplain : ∀ d ∈ List.replicate count '0', d ≠ '}' := fun d hd =>
    (List.mem_replicate.1 hd).2 ▸ by decide
  have hcount : digitCount (List.replicate count '0') = 0 := by
    rwa [digitCount_eq_zero_iff, List.length_replicate]
  refine decode_eq_none ?_
  rw [unescape?_codePoint, codePoint?_append hplain, if_pos hcount, Option.map_none]

theorem overflows_zeros : Overflows (zeros (2 ^ 31)) :=
  .here ⟨_, _, 0, rfl, by rw [Nat.zero_add, List.length_replicate], hexNumber?_zeros _, by decide⟩

end Escape

/-- 2³² digits are refused, although they write a number of a character, and 2³¹ digits are an
overflow -/
theorem tokenize_zeros :
    (∀ value, ¬ IsLiteral ('\'' :: (Escape.zeros (2 ^ 32) ++ ['\''])) value) ∧
      Writes 16 (List.replicate (2 ^ 32) '0') (Char.toNat '\x00') ∧
      Escape.decodeWords (Escape.zeros (2 ^ 31)) = .error .overflow := by
  refine ⟨fun value h => ?_, ?_, Escape.decodeWords_of_overflows Escape.overflows_zeros⟩
  · have hdecode := ((isLiteral_iff rfl).1 h).2
    rw [Escape.decode_zeros (Nat.dvd_refl _)] at hdecode
    cases hdecode
  · exact Escape.hexNumber?_eq_some_iff.1 (Escape.hexNumber?_zeros _)

end

end ResourceOrder.Manifest
