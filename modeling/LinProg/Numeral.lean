/-!
# Numerals

Counts fit 64 bits.  Reading them from text: decimal numerals with blanks around them left out.
Blank are the characters of the Unicode property White_Space.
-/

namespace LinProg.Numeral

/-- The code points with the property White_Space, as ranges. -/
def blankRanges : List (Nat × Nat) :=
  [(0x9, 0xd), (0x20, 0x20), (0x85, 0x85), (0xa0, 0xa0), (0x1680, 0x1680), (0x2000, 0x200a),
    (0x2028, 0x2029), (0x202f, 0x202f), (0x205f, 0x205f), (0x3000, 0x3000)]

def isBlank (c : Char) : Bool :=
  blankRanges.any fun (first, last) => first ≤ c.toNat && c.toNat ≤ last

/-- A text without blank characters at either end. -/
def trim (s : String) : List Char :=
  ((s.toList.dropWhile isBlank).reverse.dropWhile isBlank).reverse

/-- Why a text is no count. -/
inductive CountError where
  | empty
  | invalidDigit
  | tooLarge
  deriving DecidableEq, Repr

def CountError.message : CountError → String
  | empty => "cannot parse integer from empty string"
  | invalidDigit => "invalid digit found in string"
  | tooLarge => "number too large to fit in target type"

/-- One more than the largest count. -/
def countLimit : Nat := 18446744073709551616

abbrev Count := Fin countLimit

instance (n : Nat) : OfNat Count n := ⟨n % countLimit, Nat.mod_lt n (Nat.succ_pos _)⟩

/-- Appends the digits of a numeral; the first character that can't be appended decides. -/
def appendDigits : Count → List Char → Except CountError Count
  | value, [] => .ok value
  | value, c :: rest =>
    if c.isDigit then
      let appended := 10 * value.val + (c.toNat - '0'.toNat)
      if h : appended < countLimit then appendDigits ⟨appended, h⟩ rest else .error .tooLarge
    else
      .error .invalidDigit

/-- Reads a decimal numeral, which may start with a plus sign. -/
def readCount : List Char → Except CountError Count
  | [] => .error .empty
  | ['+'] => .error .invalidDigit
  | '+' :: digits => appendDigits 0 digits
  | digits => appendDigits 0 digits

end LinProg.Numeral
