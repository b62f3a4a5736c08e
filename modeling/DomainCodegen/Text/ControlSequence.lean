/-!
# Control sequences

An escape character, an opening bracket, parameters and a letter make a terminal act instead of
showing them. `withoutControls` leaves such sequences out of a text, each of them once and from the
front; an escape character that starts no whole sequence is a character like any other.
-/

namespace DomainCodegen.Text

def isControlParameter (c : Char) : Bool := c.isDigit || c = ';' || c = '?'

/-- What follows a control sequence, from its parameters on. -/
def afterControl? (cs : List Char) : Option (List Char) :=
  match cs.dropWhile isControlParameter with
  | c :: r => if c.isAlpha then some r else none
  | [] => none

theorem length_of_afterControl? {cs rest : List Char} (h : afterControl? cs = some rest) :
    rest.length < cs.length := by
  have hd := (List.dropWhile_sublist isControlParameter (l := cs)).length_le
  unfold afterControl? at h
  split at h <;> grind

def withoutControls : List Char → List Char
  | [] => []
  | '\x1b' :: '[' :: r =>
    match _h : afterControl? r with
    | some rest => withoutControls rest
    | none => '\x1b' :: withoutControls ('[' :: r)
  | c :: r => c :: withoutControls r
  termination_by cs => cs.length
  decreasing_by
    · have := length_of_afterControl? _h
      simp only [List.length_cons]
      omega
    · simp only [List.length_cons]
      omega
    · simp only [List.length_cons]
      omega

/-- A text without escape characters has no control sequences. -/
theorem withoutControls_eq_self {cs : List Char} (h : '\x1b' ∉ cs) : withoutControls cs = cs := by
  induction cs with
  | nil => rw [withoutControls]
  | cons c r ih =>
    rw [withoutControls, ih fun hr => h (List.mem_cons_of_mem c hr)]
    rintro rest rfl
    exact absurd List.mem_cons_self h

/-- A text as a terminal may show it. -/
def plain (s : String) : String := String.ofList (withoutControls s.toList)

example : plain "a\x1b[1;31mb\x1b\x1b[0m[0mc\x1b[" = "ab\x1b[0mc\x1b[" := by cbv

end DomainCodegen.Text
