/-!
# Wildcard patterns

Patterns for single names. A star stands for any characters, a question mark for one, and a
bracket for one character of a set, which an exclamation mark turns round; a bracket that is not
closed stands for itself. A range whose ends are the wrong way round is as if it were not written.
-/

namespace DomainCodegen.Text

/-- One item of a pattern. -/
inductive Wildcard where
  | run
  | one
  | set (inside : Bool) (ranges : List (Char × Char))
  | char (c : Char)
  deriving DecidableEq, Repr

namespace Wildcard

/-- The ranges of a set; a hyphen between two characters makes a range of them. -/
def ranges : List Char → List (Char × Char)
  | low :: '-' :: high :: r => (low, high) :: ranges r
  | c :: r => (c, c) :: ranges r
  | [] => []

/-- A set without the empty ranges that it starts with. -/
def dropEmpty : List Char → List Char
  | low :: '-' :: high :: r => if high < low then dropEmpty r else low :: '-' :: high :: r
  | cs => cs

/-- The set of a bracket that does not start with an exclamation mark. One that comes to the front
when empty ranges are left out turns the set round as well; of a range that it started, the hyphen
and the other end remain. -/
def ofBody (body : List Char) : Wildcard :=
  match dropEmpty body with
  | '!' :: '-' :: high :: r => set false (('-', '-') :: (high, high) :: ranges r)
  | '!' :: r => set false (ranges r)
  | kept => set true (ranges kept)

example : ofBody "z-ab-d".toList = set true [('b', 'd')] := by decide

example : ofBody "z-a!-d".toList = set false [('-', '-'), ('d', 'd')] := by decide

/-- What stands before the first closing bracket, and what follows it. -/
def untilClosed : List Char → Option (List Char × List Char)
  | [] => none
  | ']' :: r => some ([], r)
  | c :: r => (untilClosed r).map fun (body, rest) => (c :: body, rest)

/-- The characters of a set and what follows it. A bracket right at the start closes nothing. -/
def body? : List Char → Option (List Char × List Char)
  | [] => none
  | c :: r => (untilClosed r).map fun (body, rest) => (c :: body, rest)

/-- A set whose opening bracket has been read, and what follows it. -/
def set? : List Char → Option (Wildcard × List Char)
  | '!' :: r => (body? r).map fun (body, rest) => (set false (ranges body), rest)
  | cs => (body? cs).map fun (body, rest) => (ofBody body, rest)

theorem length_of_untilClosed {cs body rest : List Char} (h : untilClosed cs = some (body, rest)) :
    rest.length < cs.length := by
  fun_induction untilClosed cs generalizing body rest with
  | case1 => simp at h
  | case2 r => grind
  | case3 c r _ ih =>
    obtain ⟨⟨_, _⟩, hb, he⟩ := Option.map_eq_some_iff.1 h
    have := ih hb
    grind

theorem length_of_body? {cs body rest : List Char} (h : body? cs = some (body, rest)) :
    rest.length < cs.length := by
  cases cs with
  | nil => simp [body?] at h
  | cons c r =>
    obtain ⟨⟨_, _⟩, hb, he⟩ := Option.map_eq_some_iff.1 h
    have := length_of_untilClosed hb
    grind

theorem length_of_set? {cs rest : List Char} {item : Wildcard} (h : set? cs = some (item, rest)) :
    rest.length < cs.length := by
  unfold set? at h
  split at h <;>
  · obtain ⟨⟨_, _⟩, hb, he⟩ := Option.map_eq_some_iff.1 h
    have := length_of_body? hb
    grind

/-- The items of a pattern. -/
def items : List Char → List Wildcard
  | [] => []
  | '*' :: r => run :: items r
  | '?' :: r => one :: items r
  | '[' :: r =>
    match _h : set? r with
    | some (item, rest) => item :: items rest
    | none => char '[' :: items r
  | c :: r => char c :: items r
  termination_by cs => cs.length
  decreasing_by
    all_goals simp only [List.length_cons]
    all_goals first
      | omega
      | exact Nat.lt_succ_of_lt (length_of_set? _h)

/-- Whether an item that stands for one character stands for this one. -/
def accepts (c : Char) : Wildcard → Bool
  | run => false
  | one => true
  | set inside ranges => inside == ranges.any fun (low, high) => low ≤ c && c ≤ high
  | char d => c = d

/-! ## Covering

A pattern is compared with all the ends of a text at once, one item after the other. So the work
grows with the product of the two lengths, however many stars there are.
-/

/-- Whether there is a truth at a place or after it, for each place of a list. -/
def fromHere : List Bool → List Bool
  | [] => []
  | b :: r =>
    let after := fromHere r
    (b || after.headD false) :: after

/-- For each end of a text, the whole one first, whether it starts with a character that an item
accepts and a truth is noted for what follows. -/
def stepOver (item : Wildcard) : List Char → List Bool → List Bool
  | c :: cs, _ :: r => (item.accepts c && r.headD false) :: stepOver item cs r
  | _, _ => [false]

/-- For each end of a text, the whole one first, whether a pattern covers it. -/
def coversEnds : List Wildcard → List Char → List Bool
  | [], cs => cs.map (fun _ => false) ++ [true]
  | run :: p, cs => fromHere (coversEnds p cs)
  | item :: p, cs => stepOver item cs (coversEnds p cs)

/-- Whether a pattern covers the whole of a text. -/
def covers (p : List Wildcard) (cs : List Char) : Bool := (coversEnds p cs).headD false

theorem coversEnds_run (p : List Wildcard) (cs : List Char) :
    coversEnds (run :: p) cs = fromHere (coversEnds p cs) := rfl

theorem coversEnds_item {item : Wildcard} (h : item ≠ run) (p : List Wildcard) (cs : List Char) :
    coversEnds (item :: p) cs = stepOver item cs (coversEnds p cs) := by
  cases item <;> first | rfl | contradiction

theorem coversEnds_nil (p : List Wildcard) : coversEnds p [] = [covers p []] := by
  have h : ∃ b, coversEnds p [] = [b] := by
    induction p with
    | nil => exact ⟨true, rfl⟩
    | cons item p ih =>
      obtain ⟨b, hb⟩ := ih
      by_cases h : item = run
      · rw [h, coversEnds_run, hb]
        exact ⟨_, rfl⟩
      · rw [coversEnds_item h]
        exact ⟨_, rfl⟩
  obtain ⟨b, hb⟩ := h
  rw [covers, hb]
  rfl

theorem coversEnds_cons (p : List Wildcard) (c : Char) (cs : List Char) :
    coversEnds p (c :: cs) = covers p (c :: cs) :: coversEnds p cs := by
  have h : ∃ b, coversEnds p (c :: cs) = b :: coversEnds p cs := by
    induction p with
    | nil => exact ⟨false, rfl⟩
    | cons item p ih =>
      obtain ⟨b, hb⟩ := ih
      by_cases h : item = run
      · rw [h, coversEnds_run, coversEnds_run, hb]
        exact ⟨_, rfl⟩
      · rw [coversEnds_item h, coversEnds_item h, hb]
        exact ⟨_, rfl⟩
  obtain ⟨b, hb⟩ := h
  rw [covers, hb]
  rfl

theorem covers_nil (cs : List Char) : covers [] cs = cs.isEmpty := by
  cases cs <;> rfl

theorem covers_run_nil (p : List Wildcard) : covers (run :: p) [] = covers p [] := by
  rw [covers, coversEnds_run, coversEnds_nil]
  simp [fromHere]

/-- A star stands for nothing, or for a character and what it stands for after that. -/
theorem covers_run_cons (p : List Wildcard) (c : Char) (cs : List Char) :
    covers (run :: p) (c :: cs) = (covers p (c :: cs) || covers (run :: p) cs) := by
  rw [covers, coversEnds_run, coversEnds_cons]
  rfl

/-- Any other item stands for one character. -/
theorem covers_item_nil {item : Wildcard} (h : item ≠ run) (p : List Wildcard) :
    covers (item :: p) [] = false := by
  rw [covers, coversEnds_item h]
  rfl

theorem covers_item_cons {item : Wildcard} (h : item ≠ run) (p : List Wildcard) (c : Char)
    (cs : List Char) : covers (item :: p) (c :: cs) = (item.accepts c && covers p cs) := by
  rw [covers, coversEnds_item h, coversEnds_cons]
  rfl

end Wildcard

end DomainCodegen.Text
