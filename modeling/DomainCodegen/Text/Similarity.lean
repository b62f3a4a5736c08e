/-!
# Similar words

Two texts are compared by the longest run that they have in common, and by what is similar on its
two sides. The first of several longest runs counts.
-/

namespace DomainCodegen.Text

/-- The length of what two texts have in common at the front. -/
def commonFront : List Char → List Char → Nat
  | a :: r, b :: s => if a = b then commonFront r s + 1 else 0
  | _, _ => 0

/-- A run that two texts have in common: where it starts in each of them, and its length. -/
structure Run where
  left : Nat
  right : Nat
  length : Nat
  deriving DecidableEq, Repr

/-- The longest run that starts at the front of the first text. -/
def longestAtFront (a : List Char) (left right : Nat) (best : Run) : List Char → Run
  | [] => best
  | b :: s =>
    let n := commonFront a (b :: s)
    longestAtFront a left (right + 1) (if best.length < n then ⟨left, right, n⟩ else best) s

def longestFrom (b : List Char) (left : Nat) (best : Run) : List Char → Run
  | [] => best
  | c :: r => longestFrom b (left + 1) (longestAtFront (c :: r) left 0 best b) r

def longestRun (a b : List Char) : Run := longestFrom b 0 ⟨0, 0, 0⟩ a

/-- How many characters of two texts match. -/
def matchCount (a b : List Char) : Nat :=
  match longestRun a b with
  | ⟨left, right, length⟩ =>
    if length = 0 ∨ a.length < left + length then 0
    else
      matchCount (a.take left) (b.take right) + length +
        matchCount (a.drop (left + length)) (b.drop (right + length))
  termination_by a.length
  decreasing_by all_goals simp only [List.length_take, List.length_drop]; omega

/-- Whether at least three fifths of two texts match. -/
def areSimilar (a b : List Char) : Bool := 3 * (a.length + b.length) ≤ 10 * matchCount a b

/-- Whether the first word matches at least as much of a text as the second. -/
def isCloser (s : List Char) (x y : String) : Bool :=
  let share (word : String) (other : String) : Nat :=
    matchCount word.toList s * (other.length + s.length)
  share y x < share x y || (share x y == share y x && decide (y ≤ x))

/-- The three words closest to a text, in alphabetical order, as far as they are similar to it. -/
def suggestions (s : String) (words : List String) : List String :=
  let similar := words.filter fun word => areSimilar word.toList s.toList
  ((similar.mergeSort (isCloser s.toList)).take 3).mergeSort fun a b => decide (a ≤ b)

example : suggestions "--overwrit" ["--overwrite", "--verbose"] = ["--overwrite"] := by cbv

end DomainCodegen.Text
