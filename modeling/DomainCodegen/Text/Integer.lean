import DomainCodegen.Text.Blank

/-!
# Integers in texts

An integer is written with decimal digits of any script, with an optional sign before them, single
underscores between them and blanks around them.
-/

namespace DomainCodegen.Text

/-- The zeros of the scripts that have decimal digits; the other nine digits follow each zero. -/
def scriptZeros : List Nat :=
  [0x30, 0x660, 0x6f0, 0x7c0, 0x966, 0x9e6, 0xa66, 0xae6, 0xb66, 0xbe6, 0xc66, 0xce6, 0xd66, 0xde6,
    0xe50, 0xed0, 0xf20, 0x1040, 0x1090, 0x17e0, 0x1810, 0x1946, 0x19d0, 0x1a80, 0x1a90, 0x1b50,
    0x1bb0, 0x1c40, 0x1c50, 0xa620, 0xa8d0, 0xa900, 0xa9d0, 0xa9f0, 0xaa50, 0xabf0, 0xff10, 0x104a0,
    0x10d30, 0x11066, 0x110f0, 0x11136, 0x111d0, 0x112f0, 0x11450, 0x114d0, 0x11650, 0x116c0,
    0x11730, 0x118e0, 0x11950, 0x11c50, 0x11d50, 0x11da0, 0x16a60, 0x16ac0, 0x16b50, 0x1d7ce,
    0x1d7d8, 0x1d7e2, 0x1d7ec, 0x1d7f6, 0x1e140, 0x1e2f0, 0x1e950, 0x1fbf0]

def digitValue? (c : Char) : Option Nat :=
  (scriptZeros.find? fun z => z ≤ c.toNat && c.toNat < z + 10).map (c.toNat - ·)

/-- A blank that can stand around an integer; the separators U+001C to U+001F cannot. -/
def isMargin (c : Char) : Bool := isBlank c && !(0x1c ≤ c.toNat && c.toNat ≤ 0x1f)

/-- Reads on in a number of which `value` is already read; an underscore stands before a digit. -/
def digitsFrom? (value : Nat) : List Char → Option Nat
  | [] => some value
  | '_' :: c :: r => (digitValue? c).bind fun d => digitsFrom? (10 * value + d) r
  | c :: r => (digitValue? c).bind fun d => digitsFrom? (10 * value + d) r

def nat? : List Char → Option Nat
  | [] => none
  | c :: r => (digitValue? c).bind fun d => digitsFrom? d r

def integer? (s : String) : Option Int :=
  match ((s.toList.dropWhile isMargin).reverse.dropWhile isMargin).reverse with
  | '-' :: r => (nat? r).map fun n => -(n : Int)
  | '+' :: r => (nat? r).map Int.ofNat
  | cs => (nat? cs).map Int.ofNat

example : integer? " -1_0 " = some (-10) := by decide

example : integer? "1__0" = none := by decide

end DomainCodegen.Text
