/-!
# Digits

Numbers written with digits, and the characters that such numbers name.

* `decimalValue?`, `hexValue?`  the value of a digit;
* `number?`      the number that a list of digits writes;
* `character?`   the character with a given number; the surrogates and the numbers beyond
                 0x10FFFF name none;
* `hexDigits`    the digits of a number in base sixteen.
-/

namespace ResourceOrder

def decimalValue? (c : Char) : Option Nat :=
  if '0' ≤ c ∧ c ≤ '9' then some (c.toNat - '0'.toNat) else none

/-- the value of a hexadecimal digit of either case -/
def hexValue? (c : Char) : Option Nat :=
  if '0' ≤ c ∧ c ≤ '9' then some (c.toNat - '0'.toNat)
  else if 'a' ≤ c ∧ c ≤ 'f' then some (c.toNat - 'a'.toNat + 10)
  else if 'A' ≤ c ∧ c ≤ 'F' then some (c.toNat - 'A'.toNat + 10)
  else none

def isHexDigit (c : Char) : Bool := (hexValue? c).isSome

/-- the number written by the digits, read on from `value`; none if one of them is no digit -/
def number? (base : Nat) (digit? : Char → Option Nat) (value : Nat) : List Char → Option Nat
  | [] => some value
  | c :: cs => (digit? c).bind fun d => number? base digit? (value * base + d) cs

/-- the character with the given number, if there is one -/
def character? (n : Nat) : Option Char :=
  if h : n.isValidChar then some (Char.ofNatAux n h) else none

/-- the digits of a number in base sixteen, in lower case -/
def hexDigits (n : Nat) : List Char := Nat.toDigits 16 n

end ResourceOrder
