/-!
# Blank characters

White space in the sense of the Unicode standard, and the two operations on texts that depend on
it: cutting blanks off both ends, and splitting a text into the words between blanks.
-/

namespace DomainCodegen.Text

/-- The white space of the Unicode standard, and the four separators U+001C to U+001F. -/
def isBlank (c : Char) : Bool :=
  let n := c.toNat
  (0x09 ≤ n && n ≤ 0x0d) || (0x1c ≤ n && n ≤ 0x20) || n == 0x85 || n == 0xa0 || n == 0x1680 ||
    (0x2000 ≤ n && n ≤ 0x200a) || n == 0x2028 || n == 0x2029 || n == 0x202f || n == 0x205f ||
    n == 0x3000

/-- A text without the blanks at its two ends. -/
def strip (cs : List Char) : List Char :=
  ((cs.dropWhile isBlank).reverse.dropWhile isBlank).reverse

/-- The maximal runs of characters that are not blank, in order. -/
def blankWords : List Char → List (List Char)
  | [] => []
  | c :: r =>
    if isBlank c then blankWords r
    else match r, blankWords r with
      | d :: _, w :: ws => if isBlank d then [c] :: w :: ws else (c :: w) :: ws
      | _, ws => [c] :: ws

/-- `strip` on strings. -/
def stripped (s : String) : String := String.ofList (strip s.toList)

example : strip " \u3000a b\x1f".toList = "a b".toList := by decide

example : blankWords " a  bc\nd ".toList = ["a".toList, "bc".toList, "d".toList] := by decide

end DomainCodegen.Text
