import DomainCodegen.Disk.Basic
import DomainCodegen.Proofs.Text.Encoding
import Mathlib.Data.List.Infix

/-!
# Paths that the system takes

A path is refused before anything is looked up if one of its names holds a NUL, or a lone surrogate,
which has no bytes. Such characters stay in a path that goes on, and none come to a path from the
names that are put beside a file. A path without them is taken (`unfit?_eq_none_iff`), and the same
path can be resolved (`resolve_eq_ok_iff`).
-/

namespace DomainCodegen

namespace Path

variable {p q home : Path} {kind : Char → Bool} {names : List String} {name : String}

/-! ## Kinds of characters -/

theorem hasAny_iff : p.hasAny kind = true ↔ ∃ name ∈ p.names, name.toList.any kind = true :=
  List.any_eq_true

theorem hasAny_eq_false_iff :
    p.hasAny kind = false ↔ ∀ name ∈ p.names, name.toList.any kind = false := by
  simp only [hasAny, List.any_eq_false, Bool.not_eq_true]

theorem hasAny_mono (h : p.hasAny kind = false) (hsub : q.names ⊆ p.names) :
    q.hasAny kind = false :=
  hasAny_eq_false_iff.mpr fun name hm => hasAny_eq_false_iff.mp h name (hsub hm)

theorem hasAny_parent (h : p.hasAny kind = false) : p.parent.hasAny kind = false :=
  hasAny_mono h (List.dropLast_subset p.names)

theorem name_mem (hne : p.name ≠ "") : p.name ∈ p.names := by
  unfold name at hne ⊢
  cases hl : p.names.getLast? with
  | none => rw [hl] at hne; exact absurd rfl hne
  | some last => exact List.mem_of_getLast? hl

theorem hasAny_of_name (h : p.name.toList.any kind = true) : p.hasAny kind = true := by
  refine hasAny_iff.mpr ⟨p.name, name_mem ?_, h⟩
  intro hempty
  rw [hempty] at h
  cases h

theorem any_name (h : p.hasAny kind = false) : p.name.toList.any kind = false :=
  eq_false_of_ne_true fun hany => by
    rw [hasAny_of_name hany] at h
    cases h

/-- A character of a path is in the last name or before it. -/
theorem hasAny_cases (h : p.hasAny kind = true) :
    p.parent.hasAny kind = true ∨ p.name.toList.any kind = true := by
  obtain ⟨name, hm, hkind⟩ := hasAny_iff.mp h
  have hne : p.names ≠ [] := List.ne_nil_of_mem hm
  have hname : p.name = p.names.getLast hne := by
    unfold Path.name
    rw [List.getLast?_eq_getLast_of_ne_nil hne, Option.getD_some]
  rw [← List.dropLast_append_getLast hne, List.mem_append, List.mem_singleton] at hm
  rcases hm with hm | rfl
  · exact .inl (hasAny_iff.mpr ⟨name, hm, hkind⟩)
  · exact .inr (by rwa [hname])

theorem join_of_isAbsolute (h : q.isAbsolute = true) : p.join q = q := if_pos h

theorem join_of_not_isAbsolute (h : q.isAbsolute = false) :
    p.join q = { p with names := p.names ++ q.names } := if_neg (by simp [h])

theorem hasAny_join (hp : p.hasAny kind = false) (hq : q.hasAny kind = false) :
    (p.join q).hasAny kind = false := by
  cases ha : q.isAbsolute with
  | true => rwa [join_of_isAbsolute ha]
  | false =>
    rw [join_of_not_isAbsolute ha]
    unfold hasAny at hp hq ⊢
    rw [List.any_append, hp, hq]
    rfl

/-- A path seen from another one holds the characters that it holds itself. -/
theorem hasAny_of_join (h : (p.join q).hasAny kind = false) : q.hasAny kind = false := by
  cases hq : q.isAbsolute with
  | true => rwa [join_of_isAbsolute hq] at h
  | false =>
    rw [join_of_not_isAbsolute hq] at h
    exact hasAny_mono h (List.subset_append_right _ _)

theorem hasAny_join_parent (h : (home.join p).hasAny kind = false) :
    (home.join p.parent).hasAny kind = false := by
  cases habs : p.isAbsolute with
  | true =>
    have hpar : p.parent.isAbsolute = true := habs
    rw [join_of_isAbsolute habs] at h
    rw [join_of_isAbsolute hpar]
    exact hasAny_parent h
  | false =>
    have hpar : p.parent.isAbsolute = false := habs
    rw [join_of_not_isAbsolute habs] at h
    rw [join_of_not_isAbsolute hpar]
    refine hasAny_mono h fun name hm => ?_
    rw [List.mem_append] at hm ⊢
    exact hm.imp_right List.mem_of_mem_dropLast

theorem mem_of_mem_normalFrom {back : List String} (h : name ∈ normalFrom back names) :
    name ∈ back ∨ name ∈ names := by
  induction names generalizing back with
  | nil => exact .inl (List.mem_reverse.mp h)
  | cons first r ih =>
    unfold normalFrom at h
    split at h
    · exact (ih h).imp List.mem_of_mem_tail (List.mem_cons_of_mem _)
    · rcases ih h with hm | hm
      · exact (List.mem_cons.mp hm).elim (fun he => .inr (he ▸ List.mem_cons_self)) .inl
      · exact .inr (List.mem_cons_of_mem _ hm)

theorem hasAny_normal (h : (home.join p).hasAny kind = false) :
    (normal home p).hasAny kind = false :=
  hasAny_mono h fun _ hm => (mem_of_mem_normalFrom hm).resolve_left nofun

/-! ## Characters that have no place in a path -/

/-- A kind of characters with no ASCII character but NUL. -/
def IsExotic (kind : Char → Bool) : Prop :=
  ∀ c : Char, 0 < c.toNat → c.toNat < 0x80 → kind c = false

/-- Whether a character is ASCII, but not NUL. -/
def isCommon (c : Char) : Bool := 0 < c.toNat && c.toNat < 0x80

theorem IsExotic.any_eq_false {cs : List Char} (hk : IsExotic kind) (h : cs.all isCommon = true) :
    cs.any kind = false := by
  refine List.any_eq_false.mpr fun c hc => ne_true_of_eq_false ?_
  have hcommon : isCommon c = true := List.all_eq_true.mp h c hc
  simp only [isCommon, Bool.and_eq_true, decide_eq_true_eq] at hcommon
  exact hk c hcommon.1 hcommon.2

theorem isExotic_nul : IsExotic (· == '\x00') := by
  intro c hpos _
  rw [beq_eq_false_iff_ne]
  rintro rfl
  exact absurd hpos (by decide)

theorem forall_mem_intercalate {P : Char → Prop} (hslash : P '/') :
    (∀ c ∈ ("/".intercalate names).toList, P c) ↔ ∀ name ∈ names, ∀ c ∈ name.toList, P c := by
  induction names with
  | nil => exact iff_of_true nofun nofun
  | cons first r ih =>
    cases r with
    | nil => simp
    | cons second r =>
      rw [String.intercalate_cons_cons, String.toList_append, String.toList_append,
        List.forall_mem_append, List.forall_mem_append, ih, List.forall_mem_cons (a := first)]
      have hsep : ∀ c ∈ "/".toList, P c := List.forall_mem_singleton.mpr hslash
      exact ⟨fun h => ⟨h.1.1, h.2⟩, fun h => ⟨⟨h.1, hsep⟩, h.2⟩⟩

variable [Surrogates]

/-- Whether a character has no place in a path. -/
def isUnfit (c : Char) : Bool := c == '\x00' || Text.isSurrogate c

theorem isExotic_surrogate : IsExotic Text.isSurrogate := by
  intro c _ hlt
  refine Text.not_isSurrogate ?_
  unfold isPrivateUse
  simp only [decide_eq_false_iff_not]
  omega

theorem isExotic_unfit : IsExotic isUnfit := by
  intro c hpos hlt
  unfold isUnfit
  rw [isExotic_surrogate c hpos hlt, Bool.or_false]
  exact isExotic_nul c hpos hlt

/-- Whether a name of a path has no bytes. -/
def hasSurrogate (p : Path) : Bool := p.hasAny Text.isSurrogate

/-- Whether the system does not take a path. -/
def hasUnfit (p : Path) : Bool := p.hasAny isUnfit

theorem hasUnfit_eq_false_iff :
    p.hasUnfit = false ↔ p.hasSurrogate = false ∧ p.hasNul = false := by
  unfold hasUnfit hasSurrogate hasNul
  simp only [hasAny_eq_false_iff, List.any_eq_false, isUnfit, Bool.or_eq_true, not_or]
  exact ⟨fun h => ⟨fun n hn c hc => (h n hn c hc).2, fun n hn c hc => (h n hn c hc).1⟩,
    fun h n hn c hc => ⟨h.2 n hn c hc, h.1 n hn c hc⟩⟩

/-! ## The text of a path -/

theorem hasSurrogate_text_iff (p : Path) :
    Text.hasSurrogate p.text = false ↔ p.hasSurrogate = false := by
  have hslash : Text.isSurrogate '/' = false := isExotic_surrogate '/' (by decide) (by decide)
  have hdot : Text.isSurrogate '.' = false := isExotic_surrogate '.' (by decide) (by decide)
  rw [Text.hasSurrogate_eq_false_iff]
  unfold hasSurrogate text
  simp only [hasAny_eq_false_iff, List.any_eq_false, Bool.not_eq_true]
  split
  next hcurrent =>
    subst hcurrent
    exact iff_of_true (List.forall_mem_singleton.mpr hdot) nofun
  next =>
    have hstart : ∀ c ∈ p.start.text.toList, Text.isSurrogate c = false := by
      cases p.start with
      | here => exact nofun
      | slash => exact List.forall_mem_singleton.mpr hslash
      | twoSlashes =>
        exact List.forall_mem_cons.mpr ⟨hslash, List.forall_mem_singleton.mpr hslash⟩
    rw [String.toList_append, List.forall_mem_append, forall_mem_intercalate hslash]
    exact and_iff_right hstart

end Path

namespace Disk

variable {p : Path} {fault : Fault} {back names : List String} {start : Path.Start}

theorem mem_climb {name : String} (h : name ∈ climb start back) : name = ".." ∨ name ∈ back := by
  unfold climb at h
  split at h
  · split at h
    · exact .inl (List.mem_singleton.mp h)
    · cases h
  · split at h
    · exact List.mem_cons.mp h
    · exact .inr (List.mem_cons_of_mem _ h)

variable [Surrogates]

theorem unfit?_eq_none_iff : unfit? p = none ↔ p.hasUnfit = false := by
  rw [Path.hasUnfit_eq_false_iff, ← Path.hasSurrogate_text_iff]
  unfold unfit?
  cases he : Text.encodeUtf8 (Text.codePoints p.text) with
  | error error =>
    refine iff_of_false nofun fun h => ?_
    rw [Text.encodeUtf8_codePoints_iff.mpr ⟨h.1, rfl⟩] at he
    cases he
  | ok bytes =>
    rw [and_iff_right (Text.encodeUtf8_codePoints_iff.mp he).1]
    cases p.hasNul <;> simp

theorem unfit?_eq_nul_iff :
    unfit? p = some .nulInPath ↔ p.hasSurrogate = false ∧ p.hasNul = true := by
  rw [← Path.hasSurrogate_text_iff]
  unfold unfit?
  cases he : Text.encodeUtf8 (Text.codePoints p.text) with
  | error error =>
    refine iff_of_false nofun fun h => ?_
    rw [Text.encodeUtf8_codePoints_iff.mpr ⟨h.1, rfl⟩] at he
    cases he
  | ok bytes =>
    rw [and_iff_right (Text.encodeUtf8_codePoints_iff.mp he).1]
    cases p.hasNul <;> simp

theorem unfit?_cases (h : unfit? p = some fault) :
    fault = .nulInPath ∨ ∃ error, fault = .notEncodable error := by
  unfold unfit? at h
  split at h
  next error _ => exact .inr ⟨error, (Option.some.inj h).symm⟩
  · split at h <;> cases h
    exact .inl rfl

/-- Names can be looked up in turn exactly if the system takes all of them. -/
theorem unfitOnWay?_eq_none_iff (hback : ∀ name ∈ back, name.toList.any Path.isUnfit = false) :
    unfitOnWay? start back names = none ↔
      ∀ name ∈ names, name.toList.any Path.isUnfit = false := by
  induction names generalizing back with
  | nil => exact iff_of_true rfl nofun
  | cons name r ih =>
    have hup : "..".toList.any Path.isUnfit = false := Path.isExotic_unfit.any_eq_false (by decide)
    rw [List.forall_mem_cons, unfitOnWay?]
    split
    next hname =>
      rw [hname, and_iff_right hup]
      refine ih fun other hm => ?_
      rcases mem_climb hm with rfl | hm
      · exact hup
      · exact hback other hm
    next =>
      have hfit : unfit? { start, names := (name :: back).reverse } = none ↔
          name.toList.any Path.isUnfit = false := by
        rw [unfit?_eq_none_iff, Path.hasUnfit, Path.hasAny_eq_false_iff]
        simp only [List.mem_reverse, List.forall_mem_cons]
        exact and_iff_left hback
      split
      next fault hfault =>
        refine iff_of_false nofun fun h => ?_
        rw [hfit.mpr h.1] at hfault
        cases hfault
      next hnone =>
        have hname := hfit.mp hnone
        rw [ih (List.forall_mem_cons.mpr ⟨hname, hback⟩), and_iff_right hname]

variable {disk : Disk} {root : Path}

/-- A path can be resolved exactly if the system takes it. -/
theorem resolve_eq_ok_iff :
    disk.resolve p = .ok root ↔
      p.hasUnfit = false ∧ root = ⟨.slash, (Path.normal disk.homePath p).names⟩ := by
  have hway : unfitOnWay? (if p.isAbsolute then .slash else .here) [] p.names = none ↔
      p.hasUnfit = false :=
    (unfitOnWay?_eq_none_iff (List.forall_mem_nil _)).trans Path.hasAny_eq_false_iff.symm
  unfold resolve
  split
  next fault hfault =>
    refine iff_of_false nofun fun h => ?_
    rw [hway.mpr h.1] at hfault
    cases hfault
  next hnone =>
    rw [and_iff_right (hway.mp hnone)]
    exact ⟨fun h => (Except.ok.inj h).symm, fun h => congrArg _ h.symm⟩

end Disk

end DomainCodegen
