import DomainCodegen.Text.Blank
import Mathlib.Data.List.DropRight

/-!
# Stripped texts

A text is stripped when stripping it changes nothing, that is when neither its first nor its last
character is a blank (`strip_eq_self_iff`). What stripping leaves is stripped (`strip_strip`), and
so is a stripped text that goes on and ends in something other than a blank (`stripped_append`).

The words between blanks are read off the front of a text (`blankWords_cons`).
-/

namespace DomainCodegen.Text

variable {cs more : List Char} {s t : String}

theorem strip_eq (cs : List Char) : strip cs = (cs.dropWhile isBlank).rdropWhile isBlank := rfl

/-- The first character that stripping leaves is none of the blanks. -/
theorem head?_strip : ∀ c ∈ (strip cs).head?, isBlank c = false := by
  intro c hc
  have hprefix : strip cs <+: cs.dropWhile isBlank := List.rdropWhile_prefix _ _
  have hd : (cs.dropWhile isBlank).head? = some c := by
    obtain ⟨rest, hr⟩ := hprefix
    rw [← hr, List.head?_append, Option.mem_def.mp hc]
    rfl
  have hnot := List.head?_dropWhile_not isBlank cs
  rwa [hd] at hnot

/-- The last character that stripping leaves is none of the blanks. -/
theorem getLast?_strip : ∀ c ∈ (strip cs).getLast?, isBlank c = false := by
  intro c hc
  have hne : strip cs ≠ [] := by
    intro hn
    rw [hn] at hc
    cases hc
  have hnot := List.rdropWhile_last_not isBlank (cs.dropWhile isBlank) hne
  rw [Option.mem_def, List.getLast?_eq_getLast_of_ne_nil hne, Option.some_inj] at hc
  rw [← hc]
  exact Bool.not_eq_true _ ▸ hnot

theorem strip_eq_self_iff :
    strip cs = cs ↔
      (∀ c ∈ cs.head?, isBlank c = false) ∧ ∀ c ∈ cs.getLast?, isBlank c = false := by
  constructor
  · intro h
    rw [← h]
    exact ⟨head?_strip, getLast?_strip⟩
  · rintro ⟨hh, hl⟩
    have hd : cs.dropWhile isBlank = cs := by
      cases cs with
      | nil => rfl
      | cons c r => rw [List.dropWhile_cons, hh c rfl, if_neg Bool.false_ne_true]
    rw [strip_eq, hd, List.rdropWhile_eq_self_iff]
    intro hne
    rw [hl _ (List.getLast?_eq_getLast_of_ne_nil hne)]
    exact Bool.false_ne_true

theorem strip_strip (cs : List Char) : strip (strip cs) = strip cs :=
  strip_eq_self_iff.mpr ⟨head?_strip, getLast?_strip⟩

theorem stripped_stripped (s : String) : stripped (stripped s) = stripped s := by
  unfold stripped
  rw [String.toList_ofList, strip_strip]

theorem stripped_eq_self_iff : stripped s = s ↔ strip s.toList = s.toList := by
  unfold stripped
  rw [← String.toList_inj, String.toList_ofList]

/-- A stripped text with a stripped text behind it is stripped. -/
theorem stripped_append (hs : stripped s = s) (hne : s ≠ "") (ht : stripped t = t) (hne' : t ≠ "") :
    stripped (s ++ t) = s ++ t := by
  rw [stripped_eq_self_iff, strip_eq_self_iff] at hs ht ⊢
  have hn : s.toList ≠ [] := by simpa using hne
  have hn' : t.toList ≠ [] := by simpa using hne'
  rw [String.toList_append, List.head?_append_of_ne_nil _ hn, List.getLast?_append_of_ne_nil _ hn']
  exact ⟨hs.1, ht.2⟩

/-! ## Words -/

/-- The words of a text with characters before it. They are a part of its first word if the text
starts with no blank. -/
def wordsBehind (x : List Char) (first : Option Char) : List (List Char) → List (List Char)
  | [] => [x]
  | w :: words => if first.all isBlank then x :: w :: words else (x ++ w) :: words

theorem wordsBehind_of_blank {first : Option Char} (h : first.all isBlank = true)
    (x : List Char) (words : List (List Char)) : wordsBehind x first words = x :: words := by
  cases words with
  | nil => rfl
  | cons w words => exact if_pos h

theorem wordsBehind_of_not_blank {first : Option Char} (h : first.all isBlank = false)
    (x w : List Char) (words : List (List Char)) :
    wordsBehind x first (w :: words) = (x ++ w) :: words := if_neg (by simp [h])

theorem wordsBehind_wordsBehind {c : Char} (hc : isBlank c = false) (x : List Char)
    (first : Option Char) (words : List (List Char)) :
    wordsBehind x (some c) (wordsBehind [c] first words) = wordsBehind (x ++ [c]) first words := by
  have hopen : ∀ w words, wordsBehind x (some c) (w :: words) = (x ++ w) :: words :=
    wordsBehind_of_not_blank (show (some c).all isBlank = false from hc) x
  cases words with
  | nil => exact hopen [c] []
  | cons w words =>
    cases hf : first.all isBlank with
    | true => rw [wordsBehind_of_blank hf, wordsBehind_of_blank hf, hopen]
    | false =>
      rw [wordsBehind_of_not_blank hf, wordsBehind_of_not_blank hf, hopen, List.append_assoc]

theorem blankWords_cons (c : Char) (r : List Char) :
    blankWords (c :: r) =
      if isBlank c then blankWords r else wordsBehind [c] r.head? (blankWords r) := by
  conv_lhs => unfold blankWords
  congr
  cases r with
  | nil => rfl
  | cons d r => cases blankWords (d :: r) <;> rfl

theorem not_blank_of_mem_blankWords {w : List Char} (h : w ∈ blankWords cs) :
    ∀ c ∈ w, isBlank c = false := by
  induction cs generalizing w with
  | nil => cases h
  | cons c r ih =>
    rw [blankWords_cons] at h
    cases hc : isBlank c with
    | true =>
      rw [hc, if_pos rfl] at h
      exact ih h
    | false =>
    rw [hc, if_neg Bool.false_ne_true] at h
    have hone : ∀ d ∈ [c], isBlank d = false := by simpa using hc
    cases hwords : blankWords r with
    | nil =>
      rw [hwords] at h
      rw [List.mem_singleton.mp h]
      exact hone
    | cons v words =>
      rw [hwords] at h ih
      cases hf : r.head?.all isBlank with
      | true =>
        rw [wordsBehind_of_blank hf] at h
        rcases List.mem_cons.mp h with rfl | h
        · exact hone
        · exact ih h
      | false =>
        rw [wordsBehind_of_not_blank hf] at h
        rcases List.mem_cons.mp h with rfl | h
        · exact List.forall_mem_append.mpr ⟨hone, ih List.mem_cons_self⟩
        · exact ih (List.mem_cons_of_mem _ h)

end DomainCodegen.Text
