import DomainCodegen.Members
import Mathlib.Data.List.Nodup

/-!
# Members with different names

A look-up among members finds those that are there, and exactly those where no name stands twice.
Setting names one after the other that are new and different lists them in that order
(`foldl_set`).
-/

namespace DomainCodegen.Members

variable {α : Type} {name : String} {value : α} {all added : List (String × α)}

theorem mem_of_lookup (h : all.lookup name = some value) : (name, value) ∈ all := by
  obtain ⟨before, after, rfl, -⟩ := List.lookup_eq_some_iff.mp h
  exact List.mem_append_right _ List.mem_cons_self

theorem lookup_eq_some_iff_mem (hn : (all.map Prod.fst).Nodup) :
    all.lookup name = some value ↔ (name, value) ∈ all := by
  refine ⟨mem_of_lookup, fun hm => ?_⟩
  obtain ⟨before, after, rfl⟩ := List.append_of_mem hm
  refine List.lookup_eq_some_iff.mpr ⟨before, after, rfl, fun p hp => ?_⟩
  rw [bne_iff_ne]
  rintro rfl
  rw [List.map_append, List.map_cons] at hn
  exact List.disjoint_of_nodup_append hn (List.mem_map_of_mem hp) List.mem_cons_self

/-- A name that is not there goes to the end. -/
theorem set_of_notMem (value : α) (h : name ∉ all.map Prod.fst) :
    set name value all = all ++ [(name, value)] := by
  induction all with
  | nil => rfl
  | cons e r ih =>
    obtain ⟨hne, hr⟩ := not_or.mp (mt List.mem_cons.mpr h)
    rw [set, if_neg (Ne.symm hne), ih hr]
    rfl

theorem foldl_set (h : ((all ++ added).map Prod.fst).Nodup) :
    added.foldl (fun all e => set e.1 e.2 all) all = all ++ added := by
  induction added generalizing all with
  | nil => exact (List.append_nil all).symm
  | cons e r ih =>
    have hnew : e.1 ∉ all.map Prod.fst := by
      rw [List.map_append, List.map_cons] at h
      exact fun hm => List.disjoint_of_nodup_append h hm List.mem_cons_self
    have hsplit : all ++ e :: r = (all ++ [e]) ++ r := by simp
    rw [List.foldl_cons, set_of_notMem e.2 hnew, hsplit, ih]
    rwa [← hsplit]

end DomainCodegen.Members
