import ResourceOrder.Manifest.Escape
import ResourceOrder.Proofs.Digits

/-!
# Escapes in machine words

The numbers of escapes have no bound, but a machine counts in words of 32 bits.  Here the escapes
are read a second time, digit by digit and in words, and an operation whose result does not fit a
word is noticed.

* `Halt`            why a reading in words stops: the text is malformed, or an operation overflows;
* `shiftIn`         a word with one more digit behind it;
* `unescapeWords`   what an escape stands for, and what follows it;
* `decodeWords`     the text that a string with this body stands for;
* `Overlong`        there are more digits of a number that fits a word than can be counted;
* `Overflows`       the reading comes to an escape with that many digits.

The digits between braces are as many as there are, so there each operation on the number is
checked, and a number that fits no word is as malformed as one that names no character; the other
numbers are small and are computed without a check.  But the digits themselves are counted in a
signed word, and this count is not checked.  **So an overflow happens exactly where 2³¹ digits are
counted; in every other body, words give the same text as numbers** (`decodeWords_eq_overflow_iff`,
`decodeWords_eq`).
-/

namespace ResourceOrder.Manifest.Escape

/-! ## words -/

inductive Halt where
  | malformed
  | overflow
deriving DecidableEq

section
variable {α : Type}

/-- an answer, or a malformed text -/
def ofOption : Option α → Except Halt α
  | some a => .ok a
  | none => .error .malformed

theorem ofOption_eq_ok_iff {answer? : Option α} {a : α} :
    ofOption answer? = .ok a ↔ answer? = some a := by
  cases answer? <;> simp [ofOption]

theorem ofOption_eq_error_iff {answer? : Option α} {halt : Halt} :
    ofOption answer? = .error halt ↔ answer? = none ∧ halt = .malformed := by
  cases answer? <;> simp [ofOption, eq_comm]

end

/-- the sum of two words; one that does not fit a word stops the reading with `halt` -/
def addWords (halt : Halt) (a b : UInt32) : Except Halt UInt32 :=
  if a.toNat + b.toNat < 2 ^ 32 then .ok (a + b) else .error halt

/-- the product of two words; one that does not fit a word stops the reading with `halt` -/
def mulWords (halt : Halt) (a b : UInt32) : Except Halt UInt32 :=
  if a.toNat * b.toNat < 2 ^ 32 then .ok (a * b) else .error halt

def digitWord (digit? : Char → Option Nat) (c : Char) : Except Halt UInt32 :=
  ofOption ((digit? c).map UInt32.ofNat)

/-- the word with one more digit behind it -/
def shiftIn (halt : Halt) (base code digit : UInt32) : Except Halt UInt32 := do
  addWords halt (← mulWords halt code base) digit

def characterWord (code : UInt32) : Except Halt Char := ofOption (character? code.toNat)

/-! ## one escape -/

/-- the character of `\xHH`, and what follows it; the letter is read already -/
def byteWords : List Char → Except Halt (Char × List Char)
  | hi :: lo :: rest => do
    let h ← digitWord hexValue? hi
    let l ← digitWord hexValue? lo
    return (← characterWord (← shiftIn .overflow 16 h l), rest)
  | _ => .error .malformed

/-- one more digit is counted -/
def countDigit (count : Int32) : Except Halt Int32 :=
  if count = Int32.maxValue then .error .overflow else .ok (count + 1)

/-- the number up to the closing brace, read on from `code` and `count` digits in front, how many
digits it has, and what follows the brace -/
def bracedWords (code : UInt32) (count : Int32) :
    List Char → Except Halt (UInt32 × Int32 × List Char)
  | [] => .error .malformed
  | c :: cs =>
    if c = '}' then .ok (code, count, cs)
    else do
      let d ← digitWord hexValue? c
      bracedWords (← shiftIn .malformed 16 code d) (← countDigit count) cs

/-- the character of `\u{H…}`, and what follows it; the letter is read already -/
def codePointWords : List Char → Except Halt (Char × List Char)
  | '{' :: cs => do
    let (code, count, rest) ← bracedWords 0 0 cs
    if count = 0 then .error .malformed else return (← characterWord code, rest)
  | _ => .error .malformed

/-- the number with at most so many more digits behind it, and what follows them -/
def moreDigits : Nat → UInt32 → List Char → Except Halt (UInt32 × List Char)
  | 0, code, cs => .ok (code, cs)
  | _ + 1, code, [] => .ok (code, [])
  | n + 1, code, c :: cs =>
    match decimalValue? c with
    | some d => do moreDigits n (← shiftIn .overflow 10 code (.ofNat d)) cs
    | none => .ok (code, c :: cs)

/-- the character of `\DDD`, and what follows it -/
def decimalWords : List Char → Except Halt (Char × List Char)
  | [] => .error .malformed
  | c :: cs => do
    let (code, rest) ← moreDigits 2 (← digitWord decimalValue? c) cs
    if 255 < code then .error .malformed else return (← characterWord code, rest)

/-- what the escape at the head of the text stands for, and what follows it; the backslash is
read already -/
def unescapeWords : List Char → Except Halt (List Char × List Char)
  | [] => .error .malformed
  | 'z' :: cs => .ok ([], cs.dropWhile isBlank)
  | 'x' :: cs => (byteWords cs).map fun (c, rest) => ([c], rest)
  | 'u' :: cs => (codePointWords cs).map fun (c, rest) => ([c], rest)
  | c :: cs =>
    match simple? c with
    | some d => .ok ([d], cs)
    | none => (decimalWords (c :: cs)).map fun (d, rest) => ([d], rest)

/-! ## arithmetic -/

theorem toNat_ofNat {n : Nat} (h : n < 2 ^ 32) : (UInt32.ofNat n).toNat = n :=
  UInt32.toNat_ofNat_of_lt h

section
variable (halt : Halt) (base code : UInt32) {d : Nat}

theorem shiftIn_of_lt (h : code.toNat * base.toNat + d < 2 ^ 32) :
    ∃ w, shiftIn halt base code (.ofNat d) = .ok w ∧
      w.toNat = code.toNat * base.toNat + d := by
  have hd : (UInt32.ofNat d).toNat = d := toNat_ofNat (by omega)
  have hmul : (code * base).toNat = code.toNat * base.toNat := by
    rw [UInt32.toNat_mul, Nat.mod_eq_of_lt (by omega)]
  refine ⟨code * base + .ofNat d, ?_, ?_⟩
  · unfold shiftIn mulWords addWords
    rw [if_pos (by omega)]
    show (if (code * base).toNat + (UInt32.ofNat d).toNat < 2 ^ 32 then _ else _) = _
    rw [hmul, hd, if_pos h]
  · rw [UInt32.toNat_add, hmul, hd, Nat.mod_eq_of_lt h]

theorem shiftIn_of_le (hd : d < 2 ^ 32) (h : 2 ^ 32 ≤ code.toNat * base.toNat + d) :
    shiftIn halt base code (.ofNat d) = .error halt := by
  unfold shiftIn mulWords addWords
  by_cases hlt : code.toNat * base.toNat < 2 ^ 32
  · have hmul : (code * base).toNat = code.toNat * base.toNat := by
      rw [UInt32.toNat_mul, Nat.mod_eq_of_lt hlt]
    rw [if_pos hlt]
    show (if (code * base).toNat + (UInt32.ofNat d).toNat < 2 ^ 32 then _ else _) = _
    rw [hmul, toNat_ofNat hd, if_neg (by omega)]
  · rw [if_neg hlt]
    rfl

end

/-- the number that is read does not get less with more digits -/
theorem le_of_number? {value n : Nat} {digits : List Char}
    (h : number? 16 hexValue? value digits = some n) : value ≤ n := by
  obtain ⟨values, _, rfl⟩ := (number?_eq_some_iff' fun _ _ => hexValue?_eq_some_iff).1 h
  have hpow : 0 < 16 ^ values.length := Nat.pow_pos (by decide)
  exact Nat.le_add_right_of_le (Nat.le_mul_of_pos_right value hpow)

theorem digitWord_eq {digit? : Char → Option Nat} {c : Char} {d : Option Nat} (h : digit? c = d) :
    digitWord digit? c = ofOption (d.map UInt32.ofNat) := by
  rw [digitWord, h]

/-! ## the three numbers -/

theorem byteWords_eq (cs : List Char) : byteWords cs = ofOption (byte? cs) := by
  match cs with
  | [] => rfl
  | [_] => rfl
  | hi :: lo :: rest =>
    cases hh : hexValue? hi with
    | none => simp [byteWords, byte?, digitWord, number?, hh, ofOption, bind, Except.bind]
    | some h =>
      cases hl : hexValue? lo with
      | none => simp [byteWords, byte?, digitWord, number?, hh, hl, ofOption, bind, Except.bind]
      | some l =>
        have hh16 : h < 16 := (hexValue?_eq_some_iff.1 hh).1
        have hl16 : l < 16 := (hexValue?_eq_some_iff.1 hl).1
        have hhw : (UInt32.ofNat h).toNat = h := toNat_ofNat (by omega)
        obtain ⟨w, hw, hwn⟩ := shiftIn_of_lt .overflow 16 (.ofNat h) (d := l)
          (by rw [hhw]; show h * 16 + l < _; omega)
        have hword : w.toNat = h * 16 + l := by
          rw [hwn, hhw]
          rfl
        cases hc : character? (h * 16 + l) <;>
          simp [byteWords, byte?, digitWord, characterWord, number?, hh, hl, hw, hword, hc,
            ofOption, bind, Except.bind, pure, Except.pure]

/-- with `count` digits in front there are 2³¹, and the number they write fits a word; `code` is the
number in front -/
def Overlong (code count : Nat) (cs : List Char) : Prop :=
  ∃ digits more n, cs = digits ++ more ∧ count + digits.length = 2 ^ 31 ∧
    number? 16 hexValue? code digits = some n ∧ n < 2 ^ 32

section
variable {code count : Nat} {c : Char} {cs : List Char}

theorem not_overlong_nil (hcount : count < 2 ^ 31) : ¬ Overlong code count [] := by
  rintro ⟨digits, more, n, hsplit, hlength, -⟩
  obtain ⟨rfl, -⟩ := List.append_eq_nil_iff.1 hsplit.symm
  rw [List.length_nil] at hlength
  omega

theorem overlong_cons_iff (hcount : count < 2 ^ 31) : Overlong code count (c :: cs) ↔
    ∃ d, hexValue? c = some d ∧ code * 16 + d < 2 ^ 32 ∧
      Overlong (code * 16 + d) (count + 1) cs := by
  constructor
  · rintro ⟨digits, more, n, hsplit, hlength, hn, hfits⟩
    cases digits with
    | nil =>
      rw [List.length_nil] at hlength
      omega
    | cons x digits =>
      obtain ⟨rfl, rfl⟩ := List.cons.inj hsplit
      obtain ⟨d, hd, hn⟩ := Option.bind_eq_some_iff.1 hn
      rw [List.length_cons] at hlength
      exact ⟨d, hd, Nat.lt_of_le_of_lt (le_of_number? hn) hfits, digits, more, n, rfl, by omega,
        hn, hfits⟩
  · rintro ⟨d, hd, -, digits, more, n, rfl, hlength, hn, hfits⟩
    refine ⟨c :: digits, more, n, rfl, ?_, ?_, hfits⟩
    · rw [List.length_cons]
      omega
    · rw [number?, hd]
      exact hn

theorem overlong_of_counted (hfits : code < 2 ^ 32) (cs : List Char) :
    Overlong code (2 ^ 31) cs := ⟨[], cs, code, rfl, rfl, rfl, hfits⟩

theorem countDigit_ofNat (hcount : count < 2 ^ 31) : countDigit (.ofNat count) =
    if count + 1 = 2 ^ 31 then .error .overflow else .ok (.ofNat (count + 1)) := by
  have hmax : Int32.ofNat count = Int32.maxValue ↔ count + 1 = 2 ^ 31 := by
    rw [← Int32.toInt_inj, Int32.toInt_ofNat_of_lt hcount]
    show (count : Int) = 2147483647 ↔ _
    omega
  rw [countDigit, Int32.ofNat_add]
  simp only [hmax]
  rfl

end

/-- behind a digit, the number is read on with the digit, which is counted -/
theorem bracedWords_cons {c : Char} {d : Nat} (hc : c ≠ '}') (hd : hexValue? c = some d)
    (code : UInt32) (count : Int32) (cs : List Char) :
    bracedWords code count (c :: cs) = (shiftIn .malformed 16 code (.ofNat d)).bind fun code =>
      (countDigit count).bind fun count => bracedWords code count cs := by
  rw [bracedWords, if_neg hc, digitWord, hd]
  rfl

/-- the number up to the closing brace, read as a whole -/
def bracedAtOnce (code : Nat) (count : Int32) (cs : List Char) :
    Except Halt (UInt32 × Int32 × List Char) :=
  match cs.dropWhile (· != '}') with
  | [] => .error .malformed
  | _ :: rest =>
    let digits := cs.takeWhile (· != '}')
    match number? 16 hexValue? code digits with
    | none => .error .malformed
    | some n =>
      if n < 2 ^ 32 then .ok (.ofNat n, count + digitCount digits, rest) else .error .malformed

theorem bracedAtOnce_brace (code : UInt32) (count : Int32) (cs : List Char) :
    bracedAtOnce code.toNat count ('}' :: cs) = .ok (code, count, cs) := by
  rw [bracedAtOnce, List.dropWhile_cons_of_neg (by decide), List.takeWhile_cons_of_neg (by decide)]
  dsimp only [number?]
  rw [if_pos code.toNat_lt, UInt32.ofNat_toNat]
  exact congrArg (fun count => Except.ok (code, count, cs)) (Int32.add_zero count)

section
variable {c : Char} (hc : c ≠ '}') (code : Nat) (count : Int32) (cs : List Char)
include hc

theorem bracedAtOnce_of_none (hd : hexValue? c = none) :
    bracedAtOnce code count (c :: cs) = .error .malformed := by
  have hne : (c != '}') = true := bne_iff_ne.2 hc
  rw [bracedAtOnce, List.dropWhile_cons_of_pos (p := (· != '}')) hne,
    List.takeWhile_cons_of_pos (p := (· != '}')) hne]
  dsimp only
  rw [number?, hd]
  cases cs.dropWhile (· != '}') <;> rfl

theorem bracedAtOnce_cons {d : Nat} (hd : hexValue? c = some d) :
    bracedAtOnce code count (c :: cs) = bracedAtOnce (code * 16 + d) (count + 1) cs := by
  have hne : (c != '}') = true := bne_iff_ne.2 hc
  have hcounted : count + digitCount (c :: cs.takeWhile (· != '}')) =
      count + 1 + digitCount (cs.takeWhile (· != '}')) := by
    rw [digitCount, List.length_cons, Nat.add_comm, Int32.ofNat_add, ← Int32.add_assoc]
    rfl
  rw [bracedAtOnce, bracedAtOnce, List.dropWhile_cons_of_pos (p := (· != '}')) hne,
    List.takeWhile_cons_of_pos (p := (· != '}')) hne]
  dsimp only
  rw [number?, hd, Option.bind_some, hcounted]

end

/-- no more digits make a number fit again -/
theorem bracedAtOnce_of_le {code : Nat} (h : 2 ^ 32 ≤ code) (count : Int32) (cs : List Char) :
    bracedAtOnce code count cs = .error .malformed := by
  rw [bracedAtOnce]
  split
  · rfl
  · dsimp only
    split
    · rfl
    · next hn =>
      have hle := le_of_number? hn
      rw [if_neg (by omega)]

/-- a number in braces is read on in words as it is as a whole, as long as its digits can be
counted -/
theorem bracedWords_eq (code : UInt32) (count : Nat) (hcount : count < 2 ^ 31) (cs : List Char) :
    (Overlong code.toNat count cs → bracedWords code (.ofNat count) cs = .error .overflow) ∧
    (¬ Overlong code.toNat count cs → bracedWords code (.ofNat count) cs =
      bracedAtOnce code.toNat (.ofNat count) cs) := by
  induction cs generalizing code count with
  | nil => exact ⟨fun h => absurd h (not_overlong_nil hcount), fun _ => rfl⟩
  | cons c cs ih =>
    rw [overlong_cons_iff hcount]
    by_cases hc : c = '}'
    · subst hc
      have hnone : hexValue? '}' = none := by decide
      rw [bracedWords, if_pos rfl, bracedAtOnce_brace]
      exact ⟨fun ⟨d, hd, _⟩ => (nomatch hnone.symm.trans hd), fun _ => rfl⟩
    cases hd : hexValue? c with
    | none =>
      rw [bracedWords, if_neg hc, digitWord, hd, bracedAtOnce_of_none hc _ _ _ hd]
      exact ⟨fun ⟨_, hsome, _⟩ => (nomatch hsome), fun _ => rfl⟩
    | some d =>
      have hd16 : d < 16 := (hexValue?_eq_some_iff.1 hd).1
      simp only [Option.some.injEq, exists_eq_left']
      rw [bracedWords_cons hc hd, bracedAtOnce_cons hc _ _ _ hd]
      by_cases hfits : code.toNat * 16 + d < 2 ^ 32
      · obtain ⟨w, hw, hwn⟩ := shiftIn_of_lt .malformed 16 code hfits
        have hword : w.toNat = code.toNat * 16 + d := hwn
        rw [hw, countDigit_ofNat hcount, and_iff_right hfits, ← hword]
        by_cases hlast : count + 1 = 2 ^ 31
        · rw [if_pos hlast, hlast]
          exact ⟨fun _ => rfl, fun h => absurd (overlong_of_counted w.toNat_lt cs) h⟩
        · have hnext := ih w (count + 1) (by omega)
          rw [Int32.ofNat_add] at hnext
          rw [if_neg hlast, Int32.ofNat_add]
          exact hnext
      · rw [shiftIn_of_le _ _ _ (by omega) (Nat.le_of_not_lt hfits)]
        refine ⟨fun h => absurd h.1 hfits, fun _ => ?_⟩
        exact (bracedAtOnce_of_le (Nat.le_of_not_lt hfits) _ cs).symm

theorem character?_of_le {n : Nat} (h : 2 ^ 32 ≤ n) : character? n = none := by
  refine dif_neg fun hvalid => ?_
  rcases hvalid with hlt | ⟨_, hlt⟩ <;> omega

theorem characterWord_ofNat {n : Nat} (h : n < 2 ^ 32) :
    characterWord (.ofNat n) = ofOption (character? n) := by
  rw [characterWord, toNat_ofNat h]

theorem codePointWords_eq {cs : List Char} (h : ∀ ds, cs = '{' :: ds → ¬ Overlong 0 0 ds) :
    codePointWords cs = ofOption (codePoint? cs) := by
  unfold codePointWords
  split
  · next ds =>
    have hbraced := (bracedWords_eq 0 0 (by decide) ds).2 (h ds rfl)
    show (do
      let (code, count, rest) ← bracedWords 0 (.ofNat 0) ds
      if count = 0 then .error .malformed else return (← characterWord code, rest)) = _
    rw [hbraced, bracedAtOnce, codePoint?_brace]
    generalize ds.takeWhile (· != '}') = digits
    cases ds.dropWhile (· != '}') with
    | nil => rfl
    | cons d rest =>
      dsimp only
      rw [show Int32.ofNat 0 + digitCount digits = digitCount digits from Int32.zero_add _,
        show (0 : UInt32).toNat = 0 from rfl]
      by_cases hcount : digitCount digits = 0
      · rw [if_pos hcount, hcount]
        cases number? 16 hexValue? 0 digits with
        | none => rfl
        | some n =>
          dsimp only
          split <;> rfl
      · rw [if_neg hcount]
        cases number? 16 hexValue? 0 digits with
        | none => rfl
        | some n =>
          rw [Option.bind_some]
          dsimp only
          by_cases hn : n < 2 ^ 32
          · rw [if_pos hn]
            show (if digitCount digits = 0 then _
              else do return (← characterWord (.ofNat n), rest)) = _
            rw [if_neg hcount, characterWord_ofNat hn]
            cases character? n <;> rfl
          · rw [if_neg hn, character?_of_le (Nat.le_of_not_lt hn)]
            rfl
  · next hbrace =>
    rw [codePoint?_eq_none hbrace]
    rfl

theorem codePointWords_of_overlong {ds : List Char} (h : Overlong 0 0 ds) :
    codePointWords ('{' :: ds) = .error .overflow := by
  have hbraced := (bracedWords_eq 0 0 (by decide) ds).1 h
  show (do
    let (code, count, rest) ← bracedWords 0 (.ofNat 0) ds
    if count = 0 then .error .malformed else return (← characterWord code, rest)) = _
  rw [hbraced]
  rfl

/-- decimal digits that fit a word together do not overflow it -/
theorem moreDigits_eq {code : UInt32} {k : Nat} (h : (code.toNat + 1) * 10 ^ k ≤ 2 ^ 32)
    (cs : List Char) :
    ∃ w, moreDigits k code cs =
        .ok (w, cs.drop ((cs.take k).takeWhile fun c => (decimalValue? c).isSome).length) ∧
      number? 10 decimalValue? code.toNat
        ((cs.take k).takeWhile fun c => (decimalValue? c).isSome) = some w.toNat := by
  induction k generalizing code cs with
  | zero => exact ⟨code, rfl, rfl⟩
  | succ k ih =>
    cases cs with
    | nil => exact ⟨code, rfl, rfl⟩
    | cons c cs =>
      rw [List.take_succ_cons]
      unfold moreDigits
      cases hd : decimalValue? c with
      | none =>
        rw [List.takeWhile_cons_of_neg (by rw [hd]; exact Bool.false_ne_true)]
        exact ⟨code, rfl, rfl⟩
      | some d =>
        have hd10 : d < 10 := (decimalValue?_eq_some_iff.1 hd).1
        have hpow : 0 < 10 ^ k := Nat.pow_pos (by decide)
        have hsplit : (code.toNat + 1) * 10 ^ (k + 1) = (code.toNat * 10 + 10) * 10 ^ k := by ring
        have hfits : code.toNat * 10 + 10 ≤ 2 ^ 32 :=
          Nat.le_trans (Nat.le_mul_of_pos_right _ hpow) (hsplit ▸ h)
        obtain ⟨w, hw, hwn⟩ := shiftIn_of_lt .overflow 10 code (d := d)
          (by show code.toNat * 10 + d < _; omega)
        have hword : w.toNat = code.toNat * 10 + d := hwn
        have hmore : (w.toNat + 1) * 10 ^ k ≤ 2 ^ 32 := by
          refine Nat.le_trans (Nat.mul_le_mul_right _ ?_) (hsplit ▸ h)
          omega
        obtain ⟨v, hv, hnumber⟩ := ih hmore cs
        rw [List.takeWhile_cons_of_pos (by rw [hd]; rfl), number?, hd, Option.bind_some, ← hword]
        refine ⟨v, ?_, hnumber⟩
        show (do moreDigits k (← shiftIn .overflow 10 code (.ofNat d)) cs) = _
        rw [hw]
        exact hv

theorem decimalWords_eq (cs : List Char) : decimalWords cs = ofOption (decimal? cs) := by
  cases cs with
  | nil => rfl
  | cons c cs =>
    rw [decimalWords, decimal?, decimalDigits, List.take_succ_cons]
    cases hd : decimalValue? c with
    | none =>
      rw [List.takeWhile_cons_of_neg (by rw [hd]; exact Bool.false_ne_true), digitWord_eq hd]
      rfl
    | some d =>
      have hd10 : d < 10 := (decimalValue?_eq_some_iff.1 hd).1
      have hfirst : (UInt32.ofNat d).toNat = d := toNat_ofNat (by omega)
      have hsmall : ((UInt32.ofNat d).toNat + 1) * 10 ^ 2 ≤ 2 ^ 32 := by
        rw [hfirst]
        omega
      obtain ⟨w, hw, hnumber⟩ := moreDigits_eq hsmall cs
      rw [hfirst] at hnumber
      rw [List.takeWhile_cons_of_pos (by rw [hd]; rfl), digitWord_eq hd]
      dsimp only
      rw [if_neg (List.cons_ne_nil _ _), number?, hd, Option.bind_some, Nat.zero_mul, Nat.zero_add]
      rw [hnumber]
      show (do
        let (code, rest) ← moreDigits 2 (.ofNat d) cs
        if 255 < code then .error .malformed else return (← characterWord code, rest)) = _
      rw [hw]
      show (if 255 < w then _ else do return (← ofOption (character? w.toNat), _)) =
        ofOption (if w.toNat ≤ 255 then (character? w.toNat).bind fun c => some (c, _) else none)
      by_cases hlarge : 255 < w
      · have hnat : 255 < w.toNat := UInt32.lt_iff_toNat_lt.1 hlarge
        rw [if_pos hlarge, if_neg (Nat.not_le_of_lt hnat)]
        rfl
      · have hnat : w.toNat ≤ 255 :=
          Nat.le_of_not_lt fun hlt => hlarge (UInt32.lt_iff_toNat_lt.2 hlt)
        rw [if_neg hlarge, if_pos hnat]
        cases character? w.toNat <;> rfl

/-! ## whole strings -/

theorem ofOption_map {α β : Type} (f : α → β) (a : Option α) :
    (ofOption a).map f = ofOption (a.map f) := by
  cases a <;> rfl

theorem unescapeWords_of_overlong {ds : List Char} (h : Overlong 0 0 ds) :
    unescapeWords ('u' :: '{' :: ds) = .error .overflow := by
  show (codePointWords ('{' :: ds)).map _ = _
  rw [codePointWords_of_overlong h]
  rfl

theorem unescapeWords_eq {cs : List Char} (h : ∀ ds, cs = 'u' :: '{' :: ds → ¬ Overlong 0 0 ds) :
    unescapeWords cs = ofOption (unescape? cs) := by
  unfold unescapeWords
  split
  · rfl
  · rfl
  · rw [byteWords_eq, ofOption_map, unescape?_byte]
  · next cs =>
    have hcs : ∀ ds, cs = '{' :: ds → ¬ Overlong 0 0 ds := fun ds hds => h ds (hds ▸ rfl)
    rw [codePointWords_eq hcs, ofOption_map, unescape?_codePoint]
  · next c cs hz hx hu =>
    rw [unescape?_other hz hx hu]
    cases simple? c with
    | some d => rfl
    | none =>
      dsimp only
      rw [decimalWords_eq, ofOption_map]

/-- the digits of an escape cannot be counted, or it is read as a whole -/
theorem unescapeWords_cases (cs : List Char) :
    unescapeWords cs = .error .overflow ∨ unescapeWords cs = ofOption (unescape? cs) := by
  by_cases hlong : ∃ ds, cs = 'u' :: '{' :: ds ∧ Overlong 0 0 ds
  · obtain ⟨ds, rfl, hlong⟩ := hlong
    exact .inl (unescapeWords_of_overlong hlong)
  · exact .inr (unescapeWords_eq fun ds hds hov => hlong ⟨ds, hds, hov⟩)

/-- an escape that is read in words is read in digits -/
theorem unescape?_of_unescapeWords {cs : List Char} {found : List Char × List Char}
    (h : unescapeWords cs = .ok found) : unescape? cs = some found := by
  rcases unescapeWords_cases cs with hover | hread
  · rw [hover] at h
    cases h
  · exact ofOption_eq_ok_iff.1 (hread ▸ h)

/-- the text that a string with this body stands for -/
def decodeWords : List Char → Except Halt (List Char)
  | [] => .ok []
  | c :: cs =>
    if c = '\\' then
      match _h : unescapeWords cs with
      | .error halt => .error halt
      | .ok (out, rest) => (decodeWords rest).map (out ++ ·)
    else (decodeWords cs).map (c :: ·)
termination_by cs => cs.length
decreasing_by
  · have := length_of_unescape? (unescape?_of_unescapeWords _h)
    rw [List.length_cons]
    omega
  · simp

/-- the reading comes to an escape with more digits between its braces than can be counted -/
inductive Overflows : List Char → Prop
  | here {cs : List Char} : Overlong 0 0 cs → Overflows ('\\' :: 'u' :: '{' :: cs)
  | plain {c : Char} {cs : List Char} : c ≠ '\\' → Overflows cs → Overflows (c :: cs)
  | escape {cs out rest : List Char} : unescape? cs = some (out, rest) → Overflows rest →
      Overflows ('\\' :: cs)

theorem decodeWords_escape {cs : List Char} :
    decodeWords ('\\' :: cs) = match unescapeWords cs with
      | .error halt => .error halt
      | .ok (out, rest) => (decodeWords rest).map (out ++ ·) := by
  rw [decodeWords, if_pos rfl]
  split <;> split <;> simp_all

theorem decodeWords_of_overflows {body : List Char} (h : Overflows body) :
    decodeWords body = .error .overflow := by
  induction h with
  | here hlong => rw [decodeWords_escape, unescapeWords_of_overlong hlong]
  | plain hc _ ih =>
    rw [decodeWords, if_neg hc, ih]
    rfl
  | @escape cs out rest hread _ ih =>
    rw [decodeWords_escape]
    rcases unescapeWords_cases cs with hover | hwords
    · rw [hover]
    · rw [hwords, hread]
      show (decodeWords rest).map _ = _
      rw [ih]
      rfl

/-- **In words of 32 bits each string stands for the same text, if all digits can be counted.** -/
theorem decodeWords_eq {body : List Char} (h : ¬ Overflows body) :
    decodeWords body = ofOption (decode body) := by
  have hread : ∀ cs, ¬ Overflows ('\\' :: cs) → unescapeWords cs = ofOption (unescape? cs) :=
    fun cs hnot => unescapeWords_eq fun ds hds hlong => hnot (hds ▸ .here hlong)
  fun_induction decodeWords body with
  | case1 => rw [decode_nil]; rfl
  | case2 cs halt hwords =>
    rw [hread cs h] at hwords
    obtain ⟨hu, rfl⟩ := ofOption_eq_error_iff.1 hwords
    rw [decode_eq_none hu]
    rfl
  | case3 cs out rest hwords ih =>
    have hu := unescape?_of_unescapeWords hwords
    rw [decode_escape hu, ih fun hrest => h (.escape hu hrest), ofOption_map]
  | case4 c cs hc ih => rw [decode_plain hc, ih fun hcs => h (.plain hc hcs), ofOption_map]

/-- **An overflow happens exactly if the reading comes to 2³¹ digits that it counts.** -/
theorem decodeWords_eq_overflow_iff {body : List Char} :
    decodeWords body = .error .overflow ↔ Overflows body := by
  refine ⟨fun h => ?_, decodeWords_of_overflows⟩
  by_contra hnot
  rw [decodeWords_eq hnot, ofOption_eq_error_iff] at h
  cases h.2

/-- no shorter body has so many digits -/
theorem Overflows.le_length {body : List Char} (h : Overflows body) : 2 ^ 31 ≤ body.length := by
  induction h with
  | here hlong =>
    obtain ⟨digits, more, n, rfl, hlength, -⟩ := hlong
    simp only [List.length_cons, List.length_append]
    omega
  | plain hc _ ih => exact Nat.le_succ_of_le ih
  | escape hread _ ih =>
    exact Nat.le_succ_of_le (Nat.le_trans ih (Nat.le_of_lt (length_of_unescape? hread)))

end ResourceOrder.Manifest.Escape
