import DomainCodegen.Proofs.Name
import Mathlib

/-!
# Names that are converted twice

The conversion to a class leaves the class of a name alone (`classChars_classChars`), and it does
not look at the size of a first letter (`classChars_modifyHead_toLower`). So of several conversions
the last one decides, and two names have one class exactly if they have one field. The letters and
digits of a name are those of its class, in the same order (`naming_laws`).
-/

namespace DomainCodegen.Name

variable {cs : List Char} {f : Char → Char}

/-! ## First letters -/

theorem isPlain_cons (c : Char) (r : List Char) :
    isPlain (c :: r) = (c.isAlpha && (matched r).all Char.isAlphanum) := by
  cases r with
  | nil =>
    by_cases hc : c = '\n'
    · subst hc
      rfl
    · simp [isPlain, matched, hc]
  | cons d r =>
    unfold isPlain matched
    rw [List.getLast?_cons_cons]
    split_ifs <;> rfl

theorem isPlain_modifyHead (hf : ∀ c, (f c).isAlpha = c.isAlpha) :
    isPlain (cs.modifyHead f) = isPlain cs := by
  cases cs with
  | nil => rfl
  | cons c r => rw [List.modifyHead_cons, isPlain_cons, isPlain_cons, hf]

theorem StartsLarge.modifyHead_toUpper (h : StartsLarge cs) : cs.modifyHead Char.toUpper = cs := by
  cases cs with
  | nil => rfl
  | cons c r =>
    rw [List.modifyHead_cons, Char.toUpper_eq_of_not_isLower (Bool.eq_false_iff.mp (h c rfl))]

/-! ## Words -/

theorem isAlphanum_toLower_eq (c : Char) : c.toLower.isAlphanum = c.isAlphanum := by
  cases hc : c.isAlphanum with
  | true => exact isAlphanum_toLower hc
  | false =>
    have hupper : ¬ c.isUpper := fun h => by
      rw [isAlphanum_of_isUpper h] at hc
      cases hc
    rw [Char.toLower_eq_of_not_isUpper hupper, hc]

theorem humps_modifyHead_toLower (cs : List Char) :
    humps false (cs.modifyHead Char.toLower) = humps false cs := by
  cases cs with
  | nil => rfl
  | cons c r =>
    rw [List.modifyHead_cons, humps, humps, isAlphanum_toLower_eq, if_neg Bool.false_ne_true,
      if_neg Bool.false_ne_true, Char.toUpper_toLower_eq_toUpper, Char.isAlpha_toLower_eq_isAlpha]

/-- The letters and digits are kept in order, whatever their size. -/
theorem map_toLower_humps (afterLetter : Bool) (cs : List Char) :
    (humps afterLetter cs).map Char.toLower = (cs.filter Char.isAlphanum).map Char.toLower := by
  induction cs generalizing afterLetter with
  | nil => rfl
  | cons c r ih =>
    rw [humps]
    split
    · next hc =>
      have hsize : (if afterLetter then c else c.toUpper).toLower = c.toLower := by
        split
        · rfl
        · exact Char.toLower_toUpper_eq_toLower c
      rw [List.filter_cons_of_pos hc, List.map_cons, List.map_cons, ih, hsize]
    · next hc => rw [List.filter_cons_of_neg hc, ih]

/-- A text of words is made of them again, also behind a letter where it was so at first. -/
theorem humps_humps {before again : Bool} (h : before = true → again = true) (cs : List Char) :
    humps again (humps before cs) = humps before cs := by
  induction cs generalizing before again with
  | nil => rfl
  | cons c r ih =>
    rw [humps]
    split
    · next hc =>
      cases before with
      | true =>
        rw [h rfl, humps, if_pos rfl, if_pos hc, if_pos rfl, ih id]
      | false =>
        have hstays : (if again then c.toUpper else c.toUpper.toUpper) = c.toUpper := by
          rw [Char.toUpper_toUpper_eq_toUpper, ite_self]
        rw [if_neg Bool.false_ne_true, humps, if_pos (isAlphanum_toUpper hc), hstays,
          Char.isAlpha_toUpper_eq_isAlpha, ih id]
    · exact ih nofun

/-! ## Classes and fields -/

/-- The size of the first letter does not matter. -/
theorem classChars_modifyHead_toLower (cs : List Char) :
    classChars (cs.modifyHead Char.toLower) = classChars cs := by
  unfold classChars
  rw [isPlain_modifyHead Char.isAlpha_toLower_eq_isAlpha, humps_modifyHead_toLower]
  split
  · cases cs with
    | nil => rfl
    | cons c r => exact congrArg (· :: r) (Char.toUpper_toLower_eq_toUpper c)
  · rfl

theorem classChars_classChars (cs : List Char) : classChars (classChars cs) = classChars cs := by
  have hlarge : (classChars cs).modifyHead Char.toUpper = classChars cs :=
    startsLarge_classChars.modifyHead_toUpper
  rw [classChars.eq_def (classChars cs), hlarge]
  split
  · rfl
  · next hplain =>
    -- a name that is plain has a plain class, so these are words
    have hwords : classChars cs = humps false cs := by
      refine if_neg fun h => hplain ?_
      rw [classChars, if_pos h, isPlain_modifyHead Char.isAlpha_toUpper_eq_isAlpha, h]
    rw [hwords, humps_humps id]

theorem map_toLower_classChars (hl : cs.getLast? ≠ some '\n') :
    (classChars cs).map Char.toLower = (cs.filter Char.isAlphanum).map Char.toLower := by
  unfold classChars
  split
  · next hplain =>
    rw [List.filter_eq_self.mpr (isAlphanum_of_isPlain hl hplain)]
    cases cs with
    | nil => rfl
    | cons c r =>
      exact congrArg (· :: r.map Char.toLower) (Char.toLower_toUpper_eq_toLower c)
  · exact map_toLower_humps false cs

theorem className_className (s : String) : className (className s) = className s := by
  rw [className.eq_def (className s), className, String.toList_ofList, classChars_classChars]

theorem className_fieldName (s : String) : className (fieldName s) = className s := by
  rw [className, fieldName, String.toList_ofList, fieldChars, classChars_modifyHead_toLower,
    classChars_classChars, className]

theorem fieldName_className (s : String) : fieldName (className s) = fieldName s := by
  rw [fieldName, fieldChars, className, String.toList_ofList, classChars_classChars, fieldName,
    fieldChars]

/-- The last of two conversions decides, so that names agree in their classes exactly if they agree
in their fields. The class of a name without a line feed at its end has no other characters than
letters and digits, and up to their size they are those of the name in the same order. -/
theorem naming_laws (s : String) :
    className (className s) = className s ∧ className (fieldName s) = className s ∧
    fieldName (className s) = fieldName s ∧
    (∀ t, className s = className t ↔ fieldName s = fieldName t) ∧
    (s.toList.getLast? ≠ some '\n' →
      (∀ c ∈ (className s).toList, c.isAlphanum = true) ∧
      (className s).toList.map Char.toLower =
        (s.toList.filter Char.isAlphanum).map Char.toLower) := by
  refine ⟨className_className s, className_fieldName s, fieldName_className s, fun t => ?_,
    fun hl => ?_⟩
  · constructor
    · intro h
      rw [← fieldName_className s, h, fieldName_className]
    · intro h
      rw [← className_fieldName s, h, className_fieldName]
  · rw [className, String.toList_ofList]
    exact ⟨isAlphanum_of_mem_classChars hl, map_toLower_classChars hl⟩

/-- A name that starts with a digit is cut into words, and so is its class. -/
theorem naming_laws_digit :
    className "3rd place-order SN" = "3RdPlaceOrderSN" ∧
    className "3RdPlaceOrderSN" = "3RdPlaceOrderSN" ∧
    (className "3rd place-order SN").toList.map Char.toLower =
      ("3rd place-order SN".toList.filter Char.isAlphanum).map Char.toLower := by
  have hclass : className "3rd place-order SN" = "3RdPlaceOrderSN" := by decide
  obtain ⟨hagain, -, -, -, hletters⟩ := naming_laws "3rd place-order SN"
  rw [hclass] at hagain
  exact ⟨hclass, hagain, (hletters (by decide)).2⟩

end DomainCodegen.Name
