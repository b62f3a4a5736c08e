import DomainCodegen.Disk.File
import DomainCodegen.Proofs.Disk.Growth

/-!
# What lasts on a disk

Directories stay directories and files stay files where directories are made and files are written.
So a path that leads to a file keeps leading to one (`Lasts.isFile`), with no condition on the disk
or on the path, which may hold `..` and names of any length. A file that was put where nothing was
(`Extra`) can be written and taken away again, and nothing else has changed.
-/

namespace DomainCodegen.Disk

variable {disk after later : Disk} {p path target temporary : Path} {place start origin : Location}
  {names : List String} {bytes old : List UInt8}

/-! ## Directories that stay -/

/-- Every directory is still one. -/
structure Stands (disk after : Disk) : Prop where
  home : after.home = disk.home
  directory : ∀ place, disk.get? place = some .directory → after.get? place = some .directory

/-- Every directory is still one, and so is every file. -/
structure Lasts (disk after : Disk) : Prop extends Stands disk after where
  file : ∀ place bytes, disk.get? place = some (.file bytes) →
    ∃ bytes', after.get? place = some (.file bytes')

theorem Stands.startOf_eq (h : Stands disk after) (p : Path) :
    after.startOf p = disk.startOf p := by
  unfold startOf
  rw [h.home]

/-- A walk that a missing name or a file does not stop ends as it did. -/
theorem Stands.walk_eq (h : Stands disk after) (hm : disk.walk start names ≠ .error .missing)
    (hn : disk.walk start names ≠ .error .notDirectory) :
    after.walk start names = disk.walk start names := by
  induction names generalizing start with
  | nil => rfl
  | cons name r ih =>
    rw [walk_cons] at hm hn
    rw [walk_cons, walk_cons]
    cases he : disk.get? start with
    | none =>
      rw [he] at hm
      exact absurd rfl hm
    | some entry =>
    cases entry with
    | file bytes =>
      rw [he] at hn
      exact absurd rfl hn
    | directory =>
      rw [he] at hm hn
      rw [h.directory start he]
      dsimp only at hm hn ⊢
      by_cases hup : name = ".."
      · rw [if_pos hup] at hm hn
        rw [if_pos hup, if_pos hup]
        exact ih hm hn
      rw [if_neg hup] at hm hn
      rw [if_neg hup, if_neg hup]
      by_cases hl : nameLimit < name.utf8ByteSize
      · rw [if_pos hl, if_pos hl]
      · rw [if_neg hl] at hm hn
        rw [if_neg hl, if_neg hl]
        exact ih hm hn

/-- A path that leads somewhere still leads there, and one at which the system cannot look stays
such. -/
theorem Stands.locate_eq [Surrogates] (h : Stands disk after)
    (ha : ∀ fault, disk.locate p = .error fault → fault.isAbsence = false) :
    after.locate p = disk.locate p := by
  unfold Disk.locate at ha ⊢
  rw [h.startOf_eq]
  split
  · rfl
  next hn =>
  split
  · rfl
  next ht =>
  simp only [hn] at ha
  rw [if_neg ht] at ha
  rw [h.walk_eq]
  · intro hw
    cases ha _ (by rw [hw]; rfl)
  · intro hw
    cases ha _ (by rw [hw]; rfl)

theorem Stands.locate [Surrogates] (h : Stands disk after) (hl : disk.locate p = .ok place) :
    after.locate p = .ok place := by
  rw [h.locate_eq (by rw [hl]; exact nofun), hl]

theorem Lasts.refl (disk : Disk) : Lasts disk disk where
  home := rfl
  directory _ hd := hd
  file _ bytes hf := ⟨bytes, hf⟩

theorem Lasts.trans (h : Lasts disk after) (h' : Lasts after later) : Lasts disk later where
  home := h'.home.trans h.home
  directory place hd := h'.directory place (h.directory place hd)
  file place bytes hf := by
    obtain ⟨bytes', hf'⟩ := h.file place bytes hf
    exact h'.file place bytes' hf'

theorem isFile_of_locate [Surrogates] (hl : disk.locate p = .ok place)
    (hf : disk.get? place = some (.file bytes)) : disk.isFile p = .ok true := by
  unfold isFile look
  rw [hl]
  dsimp only
  rw [hf]
  rfl

theorem locate_of_isFile [Surrogates] (h : disk.isFile p = .ok true) :
    ∃ place bytes, disk.locate p = .ok place ∧ disk.get? place = some (.file bytes) := by
  unfold isFile look at h
  cases hl : disk.locate p with
  | error fault =>
    rw [hl] at h
    dsimp only at h
    split at h <;> cases h
  | ok place =>
    rw [hl] at h
    cases he : disk.get? place with
    | none => simp [he, Except.map] at h
    | some entry =>
      cases entry with
      | directory => simp [he, Except.map] at h
      | file bytes => exact ⟨place, bytes, rfl, he⟩

/-! ## What was not there before -/

theorem Lasts.isSome (h : Lasts disk after) (hs : (disk.get? place).isSome) :
    (after.get? place).isSome := by
  cases he : disk.get? place with
  | none =>
    rw [he] at hs
    cases hs
  | some entry =>
  cases entry with
  | directory => rw [h.directory place he]; rfl
  | file bytes =>
    obtain ⟨bytes', hb⟩ := h.file place bytes he
    rw [hb]
    rfl

theorem Lasts.eq_none (h : Lasts disk after) (hn : after.get? place = none) :
    disk.get? place = none := by
  by_contra hs
  have := h.isSome (Option.isSome_iff_ne_none.mpr hs)
  rw [hn] at this
  cases this

/-- A way that is open was open. -/
theorem Lasts.of_open (h : Lasts disk after) (ho : after.Open place) : disk.Open place := by
  intro front hf bytes hb
  obtain ⟨bytes', hb'⟩ := h.file front bytes hb
  exact ho front hf bytes' hb'

theorem Lasts.homePath_eq (h : Lasts disk after) : after.homePath = disk.homePath := by
  unfold homePath
  rw [h.home]

theorem Lasts.resolve_eq [Surrogates] (h : Lasts disk after) (p : Path) :
    after.resolve p = disk.resolve p := by
  unfold resolve
  rw [h.homePath_eq]

theorem Same.lasts (h : Same disk after) : Lasts disk after where
  home := h.home
  directory place hd := by rw [h.entry, hd]
  file place bytes hf := ⟨bytes, by rw [h.entry, hf]⟩

/-- Nothing was at a path at which nothing is now. -/
theorem Lasts.holds_false [Surrogates] (h : Lasts disk after) (hh : after.holds p = .ok false) :
    disk.holds p = .ok false := by
  unfold holds look at hh ⊢
  cases hl : disk.locate p with
  | ok place =>
    rw [h.locate hl] at hh
    have hn : after.get? place = none := by simpa [Except.map] using hh
    dsimp only
    rw [h.eq_none hn]
    rfl
  | error fault =>
    by_cases ha : fault.isAbsence = true
    · simp [ha, Except.map]
    · have hstay : after.locate p = disk.locate p := by
        refine h.locate_eq fun met hmet => ?_
        rw [hl] at hmet
        cases hmet
        simpa using ha
      rw [hstay, hl] at hh
      simp [ha, Except.map] at hh

/-! ## Single entries -/

theorem lasts_set_directory (h : disk.get? place = none) :
    Lasts disk (disk.set place .directory) := by
  have hne : place ≠ [] := ne_nil_of_not_directory (by rw [h]; exact nofun)
  refine ⟨⟨rfl, fun other hd => ?_⟩, fun other bytes hf => ⟨bytes, ?_⟩⟩
  · rw [get?_set hne, hd]
    split <;> rfl
  · rw [get?_set hne, if_neg, hf]
    rintro rfl
    rw [h] at hf
    cases hf

/-- A file that is written over is still a file. -/
theorem lasts_set_file (h : disk.get? place ≠ some .directory) :
    Lasts disk (disk.set place (.file bytes)) := by
  have hne := ne_nil_of_not_directory h
  refine ⟨⟨rfl, fun other hd => ?_⟩, fun other old hf => ?_⟩
  · rw [get?_set hne, if_neg, hd]
    rintro rfl
    exact h hd
  · rw [get?_set hne]
    split
    · exact ⟨bytes, rfl⟩
    · exact ⟨old, hf⟩

/-- A file that is written over was a file before. -/
theorem lasts_of_set (hf : disk.get? place = some (.file old)) :
    Lasts (disk.set place (.file bytes)) disk := by
  have hne : place ≠ [] := ne_nil_of_not_directory (by rw [hf]; exact nofun)
  refine ⟨⟨rfl, fun other hd => ?_⟩, fun other new ho => ?_⟩
  · rw [get?_set hne] at hd
    split at hd
    · cases hd
    · exact hd
  · rw [get?_set hne] at ho
    split at ho
    · next he => exact ⟨old, he ▸ hf⟩
    · exact ⟨new, ho⟩

/-! ## Making directories -/

theorem makeMissing_lasts (disk : Disk) (path : Path) (place : Location) (names : List String) :
    Lasts disk (disk.makeMissing path place names).2 := by
  induction names generalizing disk path place with
  | nil => exact Lasts.refl disk
  | cons name r ih =>
    unfold makeMissing
    dsimp only
    split
    · exact ih _ _ _
    split
    · exact Lasts.refl disk
    split
    · exact ih _ _ _
    · exact Lasts.refl disk
    · next hn => exact (lasts_set_directory hn).trans (ih _ _ _)

variable [Surrogates]

theorem makeDirectories_lasts (disk : Disk) (p : Path) : Lasts disk
    (disk.makeDirectories p).2 := by
  unfold makeDirectories
  cases hm : disk.makeDirectory p with
  | ok made =>
    unfold makeDirectory at hm
    split at hm
    · cases hm
    split at hm
    · cases hm
    next hn =>
    cases hm
    exact lasts_set_directory (by simpa using hn)
  | error fault =>
    split
    · next heq => cases heq
    · exact makeMissing_lasts disk _ _ _
    · exact Lasts.refl disk

/-! ## Writing files -/

theorem writeFile_eq_ok (h : disk.writeFile p bytes = .ok after) :
    ∃ place, disk.locate p = .ok place ∧ disk.get? place ≠ some .directory ∧
      after = disk.set place (.file bytes) := by
  unfold writeFile at h
  split at h
  · cases h
  next place hl =>
  split at h
  · cases h
  next hd =>
  cases h
  exact ⟨place, hl, hd, rfl⟩

theorem writeFile_lasts (h : disk.writeFile p bytes = .ok after) :
    Lasts disk after := by
  obtain ⟨place, -, hd, rfl⟩ := writeFile_eq_ok h
  exact lasts_set_file hd

theorem createFile_eq_ok (h : disk.createFile p = .ok after) :
    ∃ place, disk.locate p = .ok place ∧ disk.get? place = none ∧
      after = disk.set place (.file []) := by
  unfold createFile at h
  split at h
  · cases h
  next place hl =>
  split at h
  · cases h
  next hn =>
  cases h
  exact ⟨place, hl, by simpa using hn, rfl⟩

theorem moveFile_eq_ok (h : disk.moveFile path target = .ok after) :
    ∃ origin place bytes, disk.locate path = .ok origin ∧
      disk.get? origin = some (.file bytes) ∧ disk.locate target = .ok place ∧
      disk.get? place ≠ some .directory ∧
      after = (disk.erase origin).set place (.file bytes) := by
  unfold moveFile at h
  cases hf : disk.fileAt path with
  | error fault => rw [hf] at h; cases h
  | ok bytes =>
  cases ho : disk.locate path with
  | error fault => rw [hf, ho] at h; cases h
  | ok origin =>
  cases hp : disk.locate target with
  | error fault => rw [hf, ho, hp] at h; cases h
  | ok place =>
  rw [hf, ho, hp] at h
  dsimp only at h
  split at h
  · cases h
  split at h
  · cases h
  next hd =>
  cases h
  refine ⟨origin, place, bytes, rfl, ?_, rfl, hd, rfl⟩
  unfold fileAt at hf
  rw [ho] at hf
  dsimp only at hf
  split at hf <;> cases hf
  assumption

/-! ## Temporary files -/

omit [Surrogates] in
/-- A file that stands where nothing was leads no path anywhere else. -/
theorem stands_of_set_file (hn : disk.get? origin = none) :
    Stands (disk.set origin (.file bytes)) disk := by
  have hne : origin ≠ [] := ne_nil_of_not_directory (by rw [hn]; exact nofun)
  refine ⟨rfl, fun place hd => ?_⟩
  rw [get?_set hne] at hd
  split at hd
  · cases hd
  · exact hd

theorem removeFile_of_locate (h : disk.locate p = .ok place) :
    disk.removeFile p = disk.erase place := by
  unfold removeFile
  rw [h]

/-- A disk with one more file than another one, at a path at which nothing was. -/
structure Extra (disk : Disk) (temporary : Path) (origin : Location)
    (bytes : List UInt8)
    (after : Disk) : Prop where
  locate : disk.locate temporary = .ok origin
  free : disk.get? origin = none
  same : Same (disk.set origin (.file bytes)) after

theorem extra_set (hl : disk.locate temporary = .ok origin)
    (hn : disk.get? origin = none) :
    Extra disk temporary origin bytes (disk.set origin (.file bytes)) :=
  ⟨hl, hn, Same.refl _⟩

theorem Extra.lasts (h : Extra disk temporary origin bytes after) : Lasts disk after :=
  (lasts_set_file (by rw [h.free]; exact nofun)).trans h.same.lasts

theorem Extra.stands (h : Extra disk temporary origin bytes after) :
    Stands after disk where
  home := h.same.symm.home
  directory place hd := by
    rw [h.same.entry] at hd
    exact (stands_of_set_file h.free).directory place hd

theorem Extra.ne_nil (h : Extra disk temporary origin bytes after) : origin ≠ [] :=
  ne_nil_of_not_directory (by rw [h.free]; exact nofun)

theorem Extra.get?_eq (h : Extra disk temporary origin bytes after)
    (place : Location) :
    after.get? place = if place = origin then some (.file bytes) else disk.get? place := by
  rw [h.same.entry, get?_set h.ne_nil]

theorem Extra.get?_origin (h : Extra disk temporary origin bytes after) :
    after.get? origin = some (.file bytes) := by
  rw [h.get?_eq, if_pos rfl]

theorem Extra.same_erase (h : Extra disk temporary origin bytes after) :
    Same disk (after.erase origin) :=
  (same_erase_set h.free).trans (Disk.same_erase h.ne_nil h.same)

/-- Nothing is left of a file that is taken away again. -/
theorem Extra.same_removeFile (h : Extra disk temporary origin bytes after) :
    Same disk (after.removeFile temporary) := by
  rw [removeFile_of_locate (h.lasts.locate h.locate)]
  exact h.same_erase

/-- A file that was made at a path can be written there. -/
theorem Extra.writeFile (h : Extra disk temporary origin bytes after)
    (new : List UInt8) :
    ∃ later, after.writeFile temporary new = .ok later ∧
      Extra disk temporary origin new later := by
  refine ⟨after.set origin (.file new), ?_, h.locate, h.free,
    (same_set_set h.ne_nil).trans (same_set h.ne_nil h.same)⟩
  unfold Disk.writeFile
  rw [h.lasts.locate h.locate]
  refine if_neg ?_
  rw [h.get?_origin]
  exact nofun

end DomainCodegen.Disk
