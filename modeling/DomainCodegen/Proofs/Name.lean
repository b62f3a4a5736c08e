import DomainCodegen.Name
import DomainCodegen.Proofs.Text.Blank

/-!
# Identifiers from names

The class and the field that a stripped name gives consist of letters and digits, so another word
can follow them. With such a word behind it an identifier stays one (`isIdentifier_append`), and
when the word has a capital the result is no reserved word, whatever the identifier was. A field
differs from the class of the same name in its first letter only, and tells two names apart exactly
if their classes do (`fieldName_append_inj`).
-/

namespace DomainCodegen.Name

variable {cs ds : List Char} {s t u v name : String}

/-! ## Letters and digits -/

theorem isUpper_iff {c : Char} : c.isUpper = true ↔ 65 ≤ c.val.toNat ∧ c.val.toNat ≤ 90 := by
  show decide (65 ≤ c.val ∧ c.val ≤ 90) = true ↔ _
  rw [decide_eq_true_iff]
  exact and_congr UInt32.le_iff_toNat_le UInt32.le_iff_toNat_le

theorem isLower_iff {c : Char} : c.isLower = true ↔ 97 ≤ c.val.toNat ∧ c.val.toNat ≤ 122 := by
  show (decide (97 ≤ c.val) && decide (c.val ≤ 122)) = true ↔ _
  rw [Bool.and_eq_true, decide_eq_true_iff, decide_eq_true_iff]
  exact and_congr UInt32.le_iff_toNat_le UInt32.le_iff_toNat_le

theorem toNat_toUpper (c : Char) :
    c.toUpper.val.toNat = if c.isLower then c.val.toNat - 32 else c.val.toNat := by
  unfold Char.toUpper
  split
  · next hc =>
    have hl : 97 ≤ c.val.toNat := hc.1
    have hu : c.val.toNat ≤ 122 := hc.2
    rw [if_pos (isLower_iff.mpr ⟨hl, hu⟩), UInt32.toNat_add,
      show ('A'.val - 'a'.val).toNat = 2 ^ 32 - 32 from rfl]
    omega
  · next hc => rw [if_neg fun h => hc (isLower_iff.mp h)]

theorem toNat_toLower (c : Char) :
    c.toLower.val.toNat = if c.isUpper then c.val.toNat + 32 else c.val.toNat := by
  unfold Char.toLower
  split
  · next hc =>
    have hu : c.val.toNat ≤ 90 := hc.2
    rw [if_pos (isUpper_iff.mpr hc), UInt32.toNat_add,
      show ('a'.val - 'A'.val).toNat = 32 from rfl]
    omega
  · next hc => rw [if_neg fun h => hc (isUpper_iff.mp h)]

theorem eq_of_toNat_eq {c d : Char} (h : c.val.toNat = d.val.toNat) : c = d :=
  Char.ext (UInt32.toNat_inj.mp h)

theorem isAlphanum_of_isUpper {c : Char} (h : c.isUpper = true) : c.isAlphanum = true := by
  show ((c.isUpper || c.isLower) || c.isDigit) = true
  rw [h]
  rfl

theorem isAlphanum_of_isLower {c : Char} (h : c.isLower = true) : c.isAlphanum = true := by
  show ((c.isUpper || c.isLower) || c.isDigit) = true
  rw [h, Bool.or_true]
  rfl

theorem isAlphanum_toUpper {c : Char} (h : c.isAlphanum = true) : c.toUpper.isAlphanum = true := by
  have hn := toNat_toUpper c
  split at hn
  · next hc =>
    have hbounds := isLower_iff.mp hc
    exact isAlphanum_of_isUpper (isUpper_iff.mpr (by omega))
  · rwa [eq_of_toNat_eq hn]

theorem isAlphanum_toLower {c : Char} (h : c.isAlphanum = true) : c.toLower.isAlphanum = true := by
  have hn := toNat_toLower c
  split at hn
  · next hc =>
    have hbounds := isUpper_iff.mp hc
    exact isAlphanum_of_isLower (isLower_iff.mpr (by omega))
  · rwa [eq_of_toNat_eq hn]

theorem isLower_toUpper (c : Char) : c.toUpper.isLower = false := by
  rw [Bool.eq_false_iff, ne_eq, isLower_iff, toNat_toUpper]
  split
  · next hc =>
    have hbounds := isLower_iff.mp hc
    omega
  · next hc => exact fun h => hc (isLower_iff.mpr h)

theorem isUpper_toLower (c : Char) : c.toLower.isUpper = false := by
  rw [Bool.eq_false_iff, ne_eq, isUpper_iff, toNat_toLower]
  split
  · next hc =>
    have hbounds := isUpper_iff.mp hc
    omega
  · next hc => exact fun h => hc (isUpper_iff.mpr h)

/-- Characters that are not small letters stay apart in their small forms. -/
theorem toLower_inj {c d : Char} (hc : c.isLower = false) (hd : d.isLower = false)
    (h : c.toLower = d.toLower) : c = d := by
  have hn : c.toLower.val.toNat = d.toLower.val.toNat := by rw [h]
  rw [toNat_toLower, toNat_toLower] at hn
  rw [Bool.eq_false_iff, ne_eq, isLower_iff] at hc hd
  refine eq_of_toNat_eq ?_
  split at hn
  · next hcu =>
    have hbounds := isUpper_iff.mp hcu
    split at hn <;> omega
  · split at hn
    · next hdu =>
      have hbounds := isUpper_iff.mp hdu
      omega
    · exact hn

theorem forall_mem_modifyHead {p : Char → Prop} {f : Char → Char} (hf : ∀ c, p c → p (f c))
    (h : ∀ c ∈ cs, p c) : ∀ c ∈ cs.modifyHead f, p c := by
  cases cs with
  | nil => exact nofun
  | cons d r =>
    obtain ⟨hd, hr⟩ := List.forall_mem_cons.mp h
    exact List.forall_mem_cons.mpr ⟨hf d hd, hr⟩

theorem isAlphanum_of_mem_humps (afterLetter : Bool) :
    ∀ c ∈ humps afterLetter cs, c.isAlphanum = true := by
  induction cs generalizing afterLetter with
  | nil => exact nofun
  | cons d r ih =>
    unfold humps
    split
    · next hd =>
      refine List.forall_mem_cons.mpr ⟨?_, ih _⟩
      split
      · exact hd
      · exact isAlphanum_toUpper hd
    · exact ih false

/-- Only a line feed is left out of the text that is matched. -/
theorem mem_matched {c : Char} (h : c ∈ cs) : c ∈ matched cs ∨ c = '\n' := by
  unfold matched
  split
  · next hl =>
    rw [← List.dropLast_append_getLast? _ hl, List.mem_append, List.mem_singleton] at h
    exact h
  · exact .inl h

theorem matched_eq_self (h : cs.getLast? ≠ some '\n') : matched cs = cs := if_neg h

theorem isAlphanum_of_isPlain (hl : cs.getLast? ≠ some '\n') (h : isPlain cs = true) :
    ∀ c ∈ cs, c.isAlphanum = true := by
  rw [isPlain, matched_eq_self hl] at h
  cases cs with
  | nil => exact nofun
  | cons d r =>
    obtain ⟨hd, hr⟩ := Bool.and_eq_true_iff.mp h
    refine List.forall_mem_cons.mpr ⟨?_, List.all_eq_true.mp hr⟩
    rw [Char.isAlphanum, hd, Bool.true_or]

theorem isAlphanum_of_mem_classChars (hl : cs.getLast? ≠ some '\n') :
    ∀ c ∈ classChars cs, c.isAlphanum = true := by
  unfold classChars
  split
  · next h => exact forall_mem_modifyHead (fun c => isAlphanum_toUpper) (isAlphanum_of_isPlain hl h)
  · exact isAlphanum_of_mem_humps false

theorem getLast?_ne_of_stripped (h : Text.stripped name = name) :
    name.toList.getLast? ≠ some '\n' := by
  intro hl
  have hblank := (Text.strip_eq_self_iff.mp (Text.stripped_eq_self_iff.mp h)).2 '\n' hl
  exact absurd hblank (by decide)

/-- The class of a stripped name consists of letters and digits. -/
theorem isAlphanum_of_mem_className (h : Text.stripped name = name) :
    ∀ c ∈ (className name).toList, c.isAlphanum = true := by
  rw [className, String.toList_ofList]
  exact isAlphanum_of_mem_classChars (getLast?_ne_of_stripped h)

/-- The field of a stripped name consists of letters and digits. -/
theorem isAlphanum_of_mem_fieldName (h : Text.stripped name = name) :
    ∀ c ∈ (fieldName name).toList, c.isAlphanum = true := by
  rw [fieldName, String.toList_ofList]
  exact forall_mem_modifyHead (fun c => isAlphanum_toLower)
    (isAlphanum_of_mem_classChars (getLast?_ne_of_stripped h))

/-! ## Identifiers -/

theorem isIdentifierPart_of_isIdentifierStart {c : Char} (h : isIdentifierStart c = true) :
    isIdentifierPart c = true := by
  unfold isIdentifierStart at h
  unfold isIdentifierPart Char.isAlphanum
  simp only [Bool.or_eq_true] at h ⊢
  tauto

theorem isDigit_of_isIdentifierStart {c : Char} (h : isIdentifierStart c = true) :
    c.isDigit = false := by
  refine Bool.eq_false_iff.mpr fun hd => ?_
  obtain ⟨hl, hu⟩ : 48 ≤ c.val.toNat ∧ c.val.toNat ≤ 57 := by
    have hbounds := Bool.and_eq_true_iff.mp hd
    exact ⟨UInt32.le_iff_toNat_le.mp (of_decide_eq_true hbounds.1),
      UInt32.le_iff_toNat_le.mp (of_decide_eq_true hbounds.2)⟩
  have hupper : c.isUpper = false :=
    Bool.eq_false_iff.mpr fun hc => by have := isUpper_iff.mp hc; omega
  have hlower : c.isLower = false :=
    Bool.eq_false_iff.mpr fun hc => by have := isLower_iff.mp hc; omega
  have hother : c ≠ '_' ∧ c ≠ '$' := by
    constructor <;> (rintro rfl; revert hd; decide)
  have halpha : c.isAlpha = false := by
    show (c.isUpper || c.isLower) = false
    rw [hupper, hlower]
    rfl
  simp [isIdentifierStart, halpha, hother] at h

theorem isIdentifierPart_of_hasIdentifierForm (h : hasIdentifierForm cs = true) :
    ∀ c ∈ matched cs, isIdentifierPart c = true := by
  unfold hasIdentifierForm at h
  split at h
  · cases h
  · next c r hcs =>
    obtain ⟨hc, hr⟩ := Bool.and_eq_true_iff.mp h
    rw [hcs]
    exact List.forall_mem_cons.mpr
      ⟨isIdentifierPart_of_isIdentifierStart hc, List.all_eq_true.mp hr⟩

/-- Of a text that passes for an identifier only a line feed at the end is no part of one. -/
theorem mem_of_isIdentifier (h : isIdentifier s = true) :
    ∀ c ∈ s.toList, isIdentifierPart c = true ∨ c = '\n' := by
  have hform := isIdentifierPart_of_hasIdentifierForm (Bool.and_eq_true_iff.mp h).1
  exact fun c hc => (mem_matched hc).imp (hform c) id

/-! ## Words behind identifiers -/

theorem getLast?_ne_of_forall {p : Char → Bool} (hp : p '\n' = false) (h : ∀ c ∈ cs, p c = true) :
    cs.getLast? ≠ some '\n' := by
  intro hl
  have hc := h '\n' (List.mem_of_getLast? hl)
  rw [hp] at hc
  cases hc

/-- No reserved word has a capital. -/
theorem isUpper_of_mem_reservedWords :
    ∀ w ∈ reservedWords, ∀ c ∈ w.toList, c.isUpper = false := by
  have hall : reservedWords.all (fun w => w.toList.all fun c => !c.isUpper) = true := by decide
  intro w hw c hc
  simpa using List.all_eq_true.mp (List.all_eq_true.mp hall w hw) c hc

/-- A word that can stand behind an identifier: letters and digits with a capital among them. -/
structure IsSuffix (t : String) : Prop where
  alphanum : ∀ c ∈ t.toList, c.isAlphanum = true
  capital : ∃ c ∈ t.toList, c.isUpper = true

instance (t : String) : Decidable (IsSuffix t) :=
  decidable_of_iff (t.toList.all Char.isAlphanum = true ∧ t.toList.any Char.isUpper = true)
    ⟨fun ⟨ha, hc⟩ => ⟨List.all_eq_true.mp ha, List.any_eq_true.mp hc⟩,
      fun ⟨ha, hc⟩ => ⟨List.all_eq_true.mpr ha, List.any_eq_true.mpr hc⟩⟩

/-- An identifier of letters and digits with a suffix behind it is an identifier. -/
theorem isIdentifier_append (h : isIdentifier s = true)
    (hs : ∀ c ∈ s.toList, c.isAlphanum = true) (ht : IsSuffix t) :
    isIdentifier (s ++ t) = true := by
  have hform : hasIdentifierForm s.toList = true := (Bool.and_eq_true_iff.mp h).1
  rw [hasIdentifierForm, matched_eq_self (getLast?_ne_of_forall (by decide) hs)] at hform
  have hall : ∀ c ∈ s.toList ++ t.toList, c.isAlphanum = true := by
    intro c hc
    rcases List.mem_append.mp hc with hc | hc
    · exact hs c hc
    · exact ht.alphanum c hc
  have hform' : hasIdentifierForm (s ++ t).toList = true := by
    rw [hasIdentifierForm, String.toList_append,
      matched_eq_self (getLast?_ne_of_forall (by decide) hall)]
    cases hcs : s.toList with
    | nil =>
      rw [hcs] at hform
      cases hform
    | cons c r =>
      rw [hcs] at hform hall
      obtain ⟨hc, -⟩ := Bool.and_eq_true_iff.mp hform
      refine Bool.and_eq_true_iff.mpr ⟨hc, List.all_eq_true.mpr fun d hd => ?_⟩
      rw [isIdentifierPart, hall d (List.mem_cons_of_mem _ hd), Bool.true_or, Bool.true_or]
  have hfree : reservedWords.contains (s ++ t) = false := by
    rw [List.contains_eq_mem, decide_eq_false_iff_not]
    intro hm
    obtain ⟨c, hc, hu⟩ := ht.capital
    have hmem : c ∈ (s ++ t).toList := by
      rw [String.toList_append]
      exact List.mem_append_right _ hc
    rw [isUpper_of_mem_reservedWords _ hm c hmem] at hu
    cases hu
  rw [isIdentifier, hform', hfree]
  rfl

/-! ## Classes and fields of one name -/

/-- A text that does not start with a small letter. -/
def StartsLarge (cs : List Char) : Prop := ∀ c ∈ cs.head?, c.isLower = false

theorem startsLarge_cons {c : Char} (h : c.isLower = false) : StartsLarge (c :: cs) :=
  fun _ hd => Option.some_inj.mp hd ▸ h

theorem startsLarge_humps : StartsLarge (humps false cs) := by
  induction cs with
  | nil => exact nofun
  | cons c r ih =>
    unfold humps
    split
    · exact startsLarge_cons (isLower_toUpper c)
    · exact ih

theorem startsLarge_classChars : StartsLarge (classChars cs) := by
  unfold classChars
  split
  · cases cs with
    | nil => exact nofun
    | cons c r => exact startsLarge_cons (isLower_toUpper c)
  · exact startsLarge_humps

theorem StartsLarge.append (h : StartsLarge cs) (hne : cs ≠ []) : StartsLarge (cs ++ ds) := by
  cases cs with
  | nil => exact absurd rfl hne
  | cons c r => exact startsLarge_cons (h c rfl)

theorem modifyHead_toLower_inj (hcs : StartsLarge cs) (hds : StartsLarge ds) :
    cs.modifyHead Char.toLower = ds.modifyHead Char.toLower ↔ cs = ds := by
  refine ⟨fun h => ?_, fun h => h ▸ rfl⟩
  cases cs with
  | nil =>
    cases ds with
    | nil => rfl
    | cons d r => cases h
  | cons c r =>
    cases ds with
    | nil => cases h
    | cons d r' =>
      obtain ⟨hhead, rfl⟩ := List.cons.inj h
      rw [toLower_inj (hcs c rfl) (hds d rfl) hhead]

theorem classChars_ne_nil (h : className s ≠ "") : classChars s.toList ≠ [] := by
  intro hnil
  rw [className, hnil] at h
  exact h rfl

theorem toList_fieldName_append (h : className s ≠ "") :
    (fieldName s ++ u).toList = (classChars s.toList ++ u.toList).modifyHead Char.toLower := by
  rw [fieldName, String.toList_append, String.toList_ofList, fieldChars]
  obtain ⟨c, r, hcs⟩ := List.exists_cons_of_ne_nil (classChars_ne_nil h)
  rw [hcs]
  rfl

/-- A text that does not start with a capital. -/
def StartsSmall (s : String) : Prop := s.toList.head?.any Char.isUpper = false

instance (s : String) : Decidable (StartsSmall s) := inferInstanceAs (Decidable (_ = false))

theorem startsSmall_fieldName_append (h : className s ≠ "") : StartsSmall (fieldName s ++ u) := by
  obtain ⟨c, r, hcs⟩ := List.exists_cons_of_ne_nil (classChars_ne_nil h)
  rw [StartsSmall, toList_fieldName_append h, hcs]
  exact isUpper_toLower c

theorem startsSmall_fieldName (h : className s ≠ "") : StartsSmall (fieldName s) := by
  have happend := @startsSmall_fieldName_append s "" h
  rwa [String.append_empty] at happend

/-- Two fields have one name exactly if the classes of the same names do, also with words behind
them. -/
theorem fieldName_append_inj (hs : className s ≠ "") (ht : className t ≠ "") :
    fieldName s ++ u = fieldName t ++ v ↔ className s ++ u = className t ++ v := by
  have hlarge {s u : String} (h : className s ≠ "") :
      StartsLarge (classChars s.toList ++ u.toList) :=
    startsLarge_classChars.append (classChars_ne_nil h)
  rw [← String.toList_inj, toList_fieldName_append hs, toList_fieldName_append ht,
    modifyHead_toLower_inj (hlarge hs) (hlarge ht), ← String.toList_inj, String.toList_append,
    String.toList_append, className, className, String.toList_ofList, String.toList_ofList]

end DomainCodegen.Name
