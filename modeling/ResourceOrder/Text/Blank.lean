/-!
# White space

`isBlank` holds of the characters with the Unicode property White_Space: the control characters
from tab to carriage return, the space, and the wide, thin and separating spaces beyond ASCII.
It is the notion of white space for trimming and for the `\z` escape of a string; the blanks
that may stand between the tokens of a manifest are fewer, and are named where they are read.

* `trimText`  a text without the white space at its two ends.
-/

namespace ResourceOrder

/-- the Unicode property White_Space -/
def isBlank (c : Char) : Bool :=
  let n := c.toNat
  (9 ≤ n && n ≤ 13) || n == 0x20 || n == 0x85 || n == 0xA0 || n == 0x1680 ||
    (0x2000 ≤ n && n ≤ 0x200A) || n == 0x2028 || n == 0x2029 || n == 0x202F || n == 0x205F ||
    n == 0x3000

/-- the text without the white space in front of it and behind it -/
def trimText (text : List Char) : List Char :=
  ((text.dropWhile isBlank).reverse.dropWhile isBlank).reverse

end ResourceOrder
