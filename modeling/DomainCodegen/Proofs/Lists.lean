import Mathlib.Data.List.Nodup

/-!
# Lists

Taking out doubles leaves none, and what a function that can fail collects from a list is what it
gives for the elements, if it gives something for all of them.
-/

namespace DomainCodegen

theorem nodup_eraseDups {α : Type} [DecidableEq α] : ∀ xs : List α, xs.eraseDups.Nodup
  | [] => List.nodup_nil
  | x :: xs => by
    rw [List.eraseDups_cons, List.nodup_cons, List.mem_eraseDups]
    exact ⟨by simp, nodup_eraseDups _⟩
termination_by xs => xs.length
decreasing_by exact Nat.lt_succ_of_le (List.length_filter_le _ _)

section Collecting

variable {α β ε : Type} {f : α → Except ε (List β)} {xs : List α}

theorem exists_mapM_iff :
    (∃ yss, xs.mapM f = .ok yss) ↔ ∀ x ∈ xs, ∃ ys, f x = .ok ys := by
  induction xs with
  | nil => exact ⟨fun _ => nofun, fun _ => ⟨[], rfl⟩⟩
  | cons x r ih =>
    rw [List.forall_mem_cons, ← ih, List.mapM_cons]
    cases hx : f x with
    | error e => exact ⟨nofun, fun h => nomatch h.1⟩
    | ok ys =>
    cases hr : r.mapM f with
    | error e => exact ⟨nofun, fun h => nomatch h.2⟩
    | ok yss => exact ⟨fun _ => ⟨⟨ys, rfl⟩, yss, rfl⟩, fun _ => ⟨ys :: yss, rfl⟩⟩

/-- What a function collects from a list is what it gives for the elements. -/
theorem mem_flatten_of_mapM {yss : List (List β)} {y : β} (h : xs.mapM f = .ok yss) :
    y ∈ yss.flatten ↔ ∃ x ∈ xs, ∃ ys, f x = .ok ys ∧ y ∈ ys := by
  induction xs generalizing yss with
  | nil =>
    cases h
    simp
  | cons x r ih =>
    rw [List.mapM_cons] at h
    cases hx : f x with
    | error e => rw [hx] at h; cases h
    | ok ys =>
    cases hr : r.mapM f with
    | error e => rw [hx, hr] at h; cases h
    | ok rest =>
    rw [hx, hr] at h
    cases h
    rw [List.flatten_cons, List.mem_append, ih hr, List.exists_mem_cons_iff, hx]
    simp

end Collecting

end DomainCodegen
