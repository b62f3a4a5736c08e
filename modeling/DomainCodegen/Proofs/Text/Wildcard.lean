import DomainCodegen.Disk.Search
import Mathlib.Data.List.Infix

/-!
# Patterns for an ending

A star in front of characters that stand for themselves covers exactly the texts that end in those
characters (`covers_star_iff`).
-/

namespace DomainCodegen.Text.Wildcard

open Disk (isWild)

variable {p : List Wildcard} {cs ending : List Char}

theorem items_cons_of_not_wild {c : Char} (h : isWild c = false) (cs : List Char) :
    items (c :: cs) = char c :: items cs := by
  obtain ⟨⟨hstar, hmark⟩, hbracket⟩ : (c ≠ '*' ∧ c ≠ '?') ∧ c ≠ '[' := by simpa [isWild] using h
  rw [items] <;> assumption

theorem items_of_not_wild (h : ∀ c ∈ cs, isWild c = false) : items cs = cs.map char := by
  induction cs with
  | nil => simp [items]
  | cons c r ih =>
    obtain ⟨hc, hr⟩ := List.forall_mem_cons.mp h
    rw [items_cons_of_not_wild hc, ih hr, List.map_cons]

/-- Characters cover themselves only. -/
theorem covers_chars_iff : covers (ending.map char) cs = true ↔ cs = ending := by
  induction ending generalizing cs with
  | nil => rw [List.map_nil, covers_nil, List.isEmpty_iff]
  | cons c r ih =>
    have hne : char c ≠ run := nofun
    cases cs with
    | nil => simp [covers_item_nil hne]
    | cons d s => simp [covers_item_cons hne, accepts, ih]

/-- What follows a star covers an end of the text. -/
theorem covers_run_iff :
    covers (run :: p) cs = true ↔ ∃ rest, rest <:+ cs ∧ covers p rest = true := by
  induction cs with
  | nil => simp [covers_run_nil]
  | cons c r ih =>
    rw [covers_run_cons, Bool.or_eq_true, ih]
    simp only [List.suffix_cons_iff, or_and_right, exists_or, exists_eq_left]

theorem covers_star_iff (h : ∀ c ∈ ending, isWild c = false) :
    covers (items ('*' :: ending)) cs = true ↔ ending <:+ cs := by
  rw [items, items_of_not_wild h, covers_run_iff]
  simp only [covers_chars_iff, exists_eq_right]

end DomainCodegen.Text.Wildcard
