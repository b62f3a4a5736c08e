import DomainCodegen.Proofs.Path

/-!
# The place of a path

A path without `..` names one place, whatever is on the disk; the disk only decides whether the
place can be reached. In a well-formed disk `look_of_fits` reads off what stands there, and
`locate_of_directories` says that inside a directory that is there nothing but the path itself can
stand in the way.
-/

namespace DomainCodegen

theorem Path.text_of_isAbsolute {p : Path} (h : p.isAbsolute = true) :
    p.text = p.start.text ++ "/".intercalate p.names := by
  unfold text
  rw [if_neg]
  rintro rfl
  cases h

section Limits

variable [Surrogates]

/-- The limits of the system: no character that it does not take, and neither the text nor a name
too long. -/
structure Path.Fits (p : Path) : Prop where
  noUnfit : p.hasUnfit = false
  text_le : p.text.utf8ByteSize ≤ Disk.pathLimit
  name_le : ∀ name ∈ p.names, name.utf8ByteSize ≤ Disk.nameLimit

theorem Path.fits_iff {p : Path} :
    p.Fits ↔ p.hasUnfit = false ∧ p.text.utf8ByteSize ≤ Disk.pathLimit ∧
      ∀ name ∈ p.names, name.utf8ByteSize ≤ Disk.nameLimit :=
  ⟨fun h => ⟨h.noUnfit, h.text_le, h.name_le⟩, fun h => ⟨h.1, h.2.1, h.2.2⟩⟩

instance {p : Path} : Decidable p.Fits := decidable_of_iff _ Path.fits_iff.symm

theorem Path.Fits.parent {p : Path} (h : p.Fits) (habs : p.isAbsolute = true) : p.parent.Fits where
  noUnfit := hasAny_parent h.noUnfit
  text_le := by
    have hle := h.text_le
    have habs' : p.parent.isAbsolute = true := habs
    rw [text_of_isAbsolute habs, String.utf8ByteSize_append] at hle
    rw [text_of_isAbsolute habs', String.utf8ByteSize_append]
    show p.start.text.utf8ByteSize + ("/".intercalate p.names.dropLast).utf8ByteSize ≤ _
    rcases List.eq_nil_or_concat p.names with hn | ⟨front, name, hn⟩
    · rw [hn] at hle ⊢
      exact hle
    · rw [List.concat_eq_append] at hn
      rw [hn] at hle ⊢
      rw [List.dropLast_concat]
      by_cases hf : front = []
      · rw [hf, String.intercalate_nil]
        exact le_trans (by simp) hle
      · rw [String.intercalate_append_of_ne_nil hf (by simp), String.utf8ByteSize_append,
          String.utf8ByteSize_append] at hle
        omega
  name_le name hn := h.name_le name (List.dropLast_subset p.names hn)

end Limits

namespace Disk

/-- Every entry stands in a directory. -/
def WellFormed (disk : Disk) : Prop :=
  ∀ place name, (disk.get? (place ++ [name])).isSome → disk.get? place = some .directory

/-- The place that a path names if no `..` is in it. -/
def placeOf (disk : Disk) (p : Path) : Location := disk.startOf p ++ p.names

/-- No `..` is in a path, and it starts from a directory. -/
structure Straight (disk : Disk) (p : Path) : Prop where
  up_notMem : ".." ∉ disk.placeOf p
  start : disk.get? (disk.startOf p) = some .directory

variable {disk : Disk} {p : Path} {place start : Location} {names : List String}

@[simp]
theorem get?_nil (disk : Disk) : disk.get? [] = some .directory := by
  unfold get?
  rw [if_pos rfl]

theorem startOf_of_isAbsolute (h : p.isAbsolute = true) : disk.startOf p = [] := by
  unfold startOf
  rw [if_pos h]

theorem placeOf_of_isAbsolute (h : p.isAbsolute = true) : disk.placeOf p = p.names := by
  unfold placeOf
  rw [startOf_of_isAbsolute h, List.nil_append]

theorem straight_of_isAbsolute (h : p.isAbsolute = true) (hup : ".." ∉ p.names) :
    disk.Straight p where
  up_notMem := by rwa [placeOf_of_isAbsolute h]
  start := by rw [startOf_of_isAbsolute h, get?_nil]

theorem Straight.names_up_notMem (hs : disk.Straight p) : ".." ∉ p.names := fun h =>
  hs.up_notMem (List.mem_append_right _ h)

/-! ## Entries and the directories above them -/

/-- Above an entry there are directories all the way. -/
theorem WellFormed.directory_of_prefix (wf : disk.WellFormed) {front : Location}
    (h : front <+: place) (hne : front ≠ place) (hp : (disk.get? place).isSome) :
    disk.get? front = some .directory := by
  obtain ⟨rest, rfl⟩ := h
  induction rest using List.reverseRecOn with
  | nil => exact absurd (List.append_nil front).symm hne
  | append_singleton rest name ih =>
    rw [← List.append_assoc] at hp
    have hd := wf _ _ hp
    by_cases hr : rest = []
    · rwa [hr, List.append_nil] at hd
    · exact ih (by simpa using hr) (by rw [hd]; rfl)

theorem isSome_get?_of_mem {e : Location × Entry} (h : e ∈ disk.entries) :
    (disk.get? e.1).isSome := by
  unfold get?
  split
  · rfl
  · exact List.lookup_isSome_iff.mpr ⟨e, h, beq_self_eq_true _⟩

theorem wellFormed_iff :
    disk.WellFormed ↔ ∀ e ∈ disk.entries, disk.get? e.1.dropLast = some .directory := by
  constructor
  · intro wf e he
    rcases List.eq_nil_or_concat e.1 with hn | ⟨place, name, hn⟩
    · rw [hn]
      exact get?_nil disk
    · have hs := isSome_get?_of_mem he
      rw [hn] at hs ⊢
      rw [List.concat_eq_append, List.dropLast_concat]
      exact wf place name (by rwa [List.concat_eq_append] at hs)
  · intro h place name hs
    unfold get? at hs
    rw [if_neg (by simp), List.lookup_isSome_iff] at hs
    obtain ⟨e, he, hk⟩ := hs
    have := h e he
    rwa [← eq_of_beq hk, List.dropLast_concat] at this

instance : Decidable disk.WellFormed := decidable_of_iff _ wellFormed_iff.symm

/-! ## Walking -/

/-- Where all directories on the way are there, only a name that is too long stops a walk. -/
theorem walk_of_directories (hup : ".." ∉ names)
    (hway : ∀ front, front <+: names → front ≠ names →
      disk.get? (start ++ front) = some .directory) :
    disk.walk start names =
      if ∀ name ∈ names, name.utf8ByteSize ≤ nameLimit then .ok (start ++ names)
      else .error .nameTooLong := by
  induction names generalizing start with
  | nil => simp [walk_nil]
  | cons name r ih =>
    obtain ⟨hne, hup⟩ : ".." ≠ name ∧ ".." ∉ r := by simpa using hup
    have hd : disk.get? start = some .directory := by
      simpa using hway [] List.nil_prefix (by simp)
    rw [walk_cons, hd]
    simp only [if_neg (Ne.symm hne)]
    by_cases hl : nameLimit < name.utf8ByteSize
    · rw [if_pos hl, if_neg fun h => absurd (h name List.mem_cons_self) (by omega)]
    · have hle : name.utf8ByteSize ≤ nameLimit := by omega
      rw [if_neg hl, ih hup fun front hf hnf => ?_]
      · simp [hle]
      · simpa using hway (name :: front) (by simpa using hf) (by simpa using hnf)

/-- A walk that succeeds went through directories only. -/
theorem walk_eq_ok (hup : ".." ∉ names) (h : disk.walk start names = .ok place) :
    place = start ++ names ∧ (∀ name ∈ names, name.utf8ByteSize ≤ nameLimit) ∧
      ∀ front, front <+: names → front ≠ names →
        disk.get? (start ++ front) = some .directory := by
  induction names generalizing start with
  | nil =>
    obtain rfl : start = place := by simpa [walk_nil] using h
    exact ⟨by simp, by simp, fun front hf hne => absurd (List.prefix_nil.mp hf) hne⟩
  | cons name r ih =>
    obtain ⟨hne, hup⟩ : ".." ≠ name ∧ ".." ∉ r := by simpa using hup
    rw [walk_cons] at h
    split at h
    · cases h
    · cases h
    · next hd =>
      rw [if_neg (Ne.symm hne)] at h
      split at h
      · cases h
      · next hl =>
        obtain ⟨rfl, hr, hway⟩ := ih hup h
        refine ⟨by simp, by simpa using ⟨by omega, hr⟩, fun front hf hnf => ?_⟩
        cases front with
        | nil => simpa using hd
        | cons first front =>
          obtain ⟨rfl, hfr⟩ := List.cons_prefix_cons.mp hf
          simpa using hway front hfr (by simpa using hnf)

/-- What stops a walk. -/
theorem walk_eq_error {reason : Reason} (hup : ".." ∉ names)
    (h : disk.walk start names = .error reason) :
    (reason = .missing ∧ ∃ front, front <+: names ∧ disk.get? (start ++ front) = none) ∨
    (reason = .notDirectory ∧
      ∃ front bytes, front <+: names ∧ disk.get? (start ++ front) = some (.file bytes)) ∨
    (reason = .nameTooLong ∧ ∃ name ∈ names, nameLimit < name.utf8ByteSize) := by
  induction names generalizing start with
  | nil => cases h
  | cons name r ih =>
    obtain ⟨hne, hup⟩ : ".." ≠ name ∧ ".." ∉ r := by simpa using hup
    rw [walk_cons] at h
    split at h
    · next hd =>
      cases h
      exact .inl ⟨rfl, [], List.nil_prefix, by simpa using hd⟩
    · next bytes hd =>
      cases h
      exact .inr (.inl ⟨rfl, [], bytes, List.nil_prefix, by simpa using hd⟩)
    · rw [if_neg (Ne.symm hne)] at h
      split at h
      · next hl =>
        cases h
        exact .inr (.inr ⟨rfl, name, List.mem_cons_self, hl⟩)
      · rcases ih hup h with ⟨rfl, front, hf, hd⟩ | ⟨rfl, front, bytes, hf, hd⟩ | ⟨rfl, n, hn, hl⟩
        · exact .inl ⟨rfl, name :: front, by simpa using hf, by simpa using hd⟩
        · exact .inr (.inl ⟨rfl, name :: front, bytes, by simpa using hf, by simpa using hd⟩)
        · exact .inr (.inr ⟨rfl, n, List.mem_cons_of_mem _ hn, hl⟩)

theorem WellFormed.directories_of_prefix (wf : disk.WellFormed) {front rest : Location}
    (hp : (disk.get? (start ++ rest)).isSome) (hf : front <+: rest) (hne : front ≠ rest) :
    disk.get? (start ++ front) = some .directory :=
  wf.directory_of_prefix ((List.prefix_append_right_inj start).mpr hf) (by simpa using hne) hp

/-! ## Locating -/

variable [Surrogates]

theorem locate_eq_ok (hs : disk.Straight p) (h : disk.locate p = .ok place) :
    place = disk.placeOf p ∧ p.Fits ∧ ∀ front, front <+: p.names → front ≠ p.names →
      disk.get? (disk.startOf p ++ front) = some .directory := by
  unfold locate at h
  split at h
  · cases h
  split at h
  · cases h
  next hn ht =>
  cases hw : disk.walk (disk.startOf p) p.names with
  | error reason => rw [hw] at h; cases h
  | ok reached =>
    rw [hw] at h
    cases h
    obtain ⟨rfl, hl, hway⟩ := walk_eq_ok hs.names_up_notMem hw
    exact ⟨rfl, ⟨unfit?_eq_none_iff.mp hn, by omega, hl⟩, hway⟩

/-- Whether the system takes a path at all. -/
def accept (p : Path) : Except Fault Unit :=
  match unfit? p with
  | some fault => .error fault
  | none =>
    if pathLimit < p.text.utf8ByteSize then .error (.refused .nameTooLong p)
    else if ∀ name ∈ p.names, name.utf8ByteSize ≤ nameLimit then .ok ()
    else .error (.refused .nameTooLong p)

theorem accept_eq_ok_iff : accept p = .ok () ↔ p.Fits := by
  unfold accept
  constructor
  · intro h
    split at h
    · cases h
    split at h
    · cases h
    split at h
    · next hn ht hl => exact ⟨unfit?_eq_none_iff.mp hn, by omega, hl⟩
    · cases h
  · rintro ⟨hn, ht, hl⟩
    simp only [unfit?_eq_none_iff.mpr hn]
    rw [if_neg (by omega), if_pos hl]

/-- In a directory that is there, only the path itself decides. -/
theorem locate_of_directories (hs : disk.Straight p)
    (hway : ∀ front, front <+: p.names → front ≠ p.names →
      disk.get? (disk.startOf p ++ front) = some .directory) :
    disk.locate p = (accept p).map fun _ => disk.placeOf p := by
  unfold locate accept
  rw [walk_of_directories hs.names_up_notMem hway]
  cases unfit? p with
  | some fault => rfl
  | none =>
    dsimp only
    split
    · rfl
    split <;> rfl

/-- In a well-formed disk a look at a path that fits shows what stands at its place. -/
theorem look_of_fits (wf : disk.WellFormed) (hs : disk.Straight p) (hf : p.Fits) :
    disk.look p = .ok (disk.get? (disk.placeOf p)) := by
  unfold look
  cases hl : disk.locate p with
  | ok place =>
    obtain ⟨rfl, -, -⟩ := locate_eq_ok hs hl
    rfl
  | error fault =>
    have hnone : disk.get? (disk.placeOf p) = none := by
      by_contra h
      rw [locate_of_directories hs fun front =>
        wf.directories_of_prefix (Option.isSome_iff_ne_none.mpr h), accept_eq_ok_iff.mpr hf] at hl
      cases hl
    unfold locate at hl
    simp only [unfit?_eq_none_iff.mpr hf.noUnfit] at hl
    rw [if_neg (by have := hf.text_le; omega)] at hl
    cases hw : disk.walk (disk.startOf p) p.names with
    | ok place => rw [hw] at hl; cases hl
    | error reason =>
      rw [hw] at hl
      cases hl
      rw [hnone]
      rcases walk_eq_error hs.names_up_notMem hw with ⟨rfl, -⟩ | ⟨rfl, -⟩ | ⟨-, name, hn, hlong⟩
      · rfl
      · rfl
      · exact absurd (hf.name_le name hn) (by omega)

theorem holds_of_fits (wf : disk.WellFormed) (hs : disk.Straight p) (hf : p.Fits) :
    disk.holds p = .ok (disk.get? (disk.placeOf p)).isSome := by
  unfold holds
  rw [look_of_fits wf hs hf]
  rfl

/-- A path that does not fit leads to nothing. -/
theorem look_of_not_fits (hs : disk.Straight p) (hf : ¬ p.Fits) :
    disk.look p = .ok none ∨ ∃ fault, disk.look p = .error fault := by
  unfold look
  cases hl : disk.locate p with
  | ok place => exact absurd (locate_eq_ok hs hl).2.1 hf
  | error fault =>
    by_cases ha : fault.isAbsence
    · exact .inl (by simp [ha])
    · exact .inr ⟨fault, by simp [ha]⟩

end Disk

end DomainCodegen
