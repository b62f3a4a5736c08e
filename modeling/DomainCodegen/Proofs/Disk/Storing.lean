import DomainCodegen.Proofs.Disk.Saving

/-!
# Storing a text

On any disk and by any path, a text is stored where the path leads or it is not (`Stored`). Saving
through a temporary file stores it or leaves the disk alone (`saveThrough_cases`). Whatever is saved
or backed up and whether or not that succeeds, everything lasts, and a text that was saved is at its
path (`save_kept`).
-/

namespace DomainCodegen.Disk

variable [Surrogates]

variable {disk after later : Disk} {p temporary : Path} {place origin : Location}
  {mode : SaveMode} {content : String} {bytes : List UInt8}

/-! ## Writing at the place of a path -/

/-- A text has been written where a path leads. -/
structure Stored (mode : SaveMode) (p : Path) (content : String) (place : Location)
    (bytes : List UInt8) (disk after : Disk) : Prop where
  encode : mode.encode content = .ok bytes
  locate : disk.locate p = .ok place
  get?_ne : disk.get? place ≠ some .directory
  same : Same (disk.set place (.file bytes)) after

theorem Stored.get?_eq (h : Stored mode p content place bytes disk after) (other : Location) :
    after.get? other = if other = place then some (.file bytes) else disk.get? other := by
  rw [h.same.entry, get?_set (ne_nil_of_not_directory h.get?_ne)]

theorem Stored.lasts (h : Stored mode p content place bytes disk after) : Lasts disk after :=
  (lasts_set_file h.get?_ne).trans h.same.lasts

theorem Stored.locate_after (h : Stored mode p content place bytes disk after) :
    after.locate p = .ok place :=
  h.lasts.locate h.locate

theorem Stored.isFile (h : Stored mode p content place bytes disk after) :
    after.isFile p = .ok true :=
  isFile_of_locate h.locate_after (by rw [h.get?_eq, if_pos rfl])

/-- A move of a file that stood where nothing was leaves no trace of it. -/
theorem Extra.moveFile (h : Extra disk temporary origin bytes after)
    (he : mode.encode content = .ok bytes) (hm : after.moveFile temporary p = .ok later) :
    ∃ place, Stored mode p content place bytes disk later := by
  obtain ⟨origin', place, bytes', ho, hb, hp, hd, rfl⟩ := moveFile_eq_ok hm
  obtain rfl : origin = origin' := by
    rw [h.lasts.locate h.locate] at ho
    exact Except.ok.inj ho
  obtain rfl : bytes = bytes' := by simpa [h.get?_origin] using hb
  have hplace : disk.get? place ≠ some .directory := fun hdir =>
    hd (h.lasts.directory place hdir)
  exact ⟨place, he, h.stands.locate hp, hplace,
    same_set (ne_nil_of_not_directory hplace) h.same_erase⟩

/-- Saving through a temporary file fails and leaves the disk alone, or the text is written. -/
theorem saveThrough_cases (disk : Disk) (mode : SaveMode) (p : Path) (content : String) :
    (∃ fault after, disk.saveThrough mode p content = (.error fault, after) ∧ Same disk after) ∨
    ∃ place bytes after, disk.saveThrough mode p content = (.ok (), after) ∧
      Stored mode p content place bytes disk after := by
  unfold saveThrough
  cases disk.freeTemporary p with
  | error fault => exact .inl ⟨_, _, rfl, Same.refl disk⟩
  | ok temporary =>
  dsimp only
  cases hc : disk.createFile temporary with
  | error fault => exact .inl ⟨_, _, rfl, Same.refl disk⟩
  | ok created =>
  obtain ⟨origin, hl, hn, rfl⟩ := createFile_eq_ok hc
  have hcreated : Extra disk temporary origin [] _ := extra_set hl hn
  dsimp only
  cases he : mode.encode content with
  | error fault => exact .inl ⟨_, _, rfl, hcreated.same_removeFile⟩
  | ok bytes =>
  obtain ⟨written, hw, hwritten⟩ := hcreated.writeFile bytes
  simp only [hw]
  cases hm : written.moveFile temporary p with
  | error fault => exact .inl ⟨_, _, rfl, hwritten.same_removeFile⟩
  | ok moved =>
    obtain ⟨place, hstored⟩ := hwritten.moveFile he hm
    exact .inr ⟨place, bytes, moved, rfl, hstored⟩

/-- A file that is opened can be written. -/
theorem writeFile_set (hl : disk.locate p = .ok place) (hd : disk.get? place ≠ some .directory) :
    (disk.set place (.file [])).writeFile p bytes =
      .ok ((disk.set place (.file [])).set place (.file bytes)) := by
  unfold writeFile
  rw [(lasts_set_file hd).locate hl]
  refine if_neg ?_
  rw [get?_set (ne_nil_of_not_directory hd), if_pos rfl]
  exact nofun

/-- The plain way to write fails and leaves the disk alone or the file empty, or the text is
written. -/
theorem saveInPlace_cases (disk : Disk) (mode : SaveMode) (p : Path) (content : String) :
    (∃ fault, disk.saveInPlace mode p content = (.error fault, disk)) ∨
    ∃ place, disk.locate p = .ok place ∧ disk.get? place ≠ some .directory ∧
      ((∃ fault, disk.saveInPlace mode p content =
        (.error fault, disk.set place (.file []))) ∨
      ∃ bytes after, disk.saveInPlace mode p content = (.ok (), after) ∧
        Stored mode p content place bytes disk after) := by
  unfold saveInPlace
  by_cases hm : mode.isRefusedAtOnce = true
  · obtain ⟨fault, he⟩ : ∃ fault, mode.encode content = .error fault :=
      encode_of_isRefusedAtOnce hm
    rw [if_pos hm, he]
    exact .inl ⟨fault, rfl⟩
  rw [if_neg hm]
  cases ho : disk.writeFile p [] with
  | error fault => exact .inl ⟨_, rfl⟩
  | ok opened =>
  obtain ⟨place, hl, hd, rfl⟩ := writeFile_eq_ok ho
  refine .inr ⟨place, hl, hd, ?_⟩
  dsimp only
  cases he : mode.encode content with
  | error fault => exact .inl ⟨fault, rfl⟩
  | ok bytes =>
    simp only [writeFile_set hl hd]
    exact .inr ⟨bytes, _, rfl, he, hl, hd, same_set_set (ne_nil_of_not_directory hd)⟩

theorem saveInPlace_eq_ok (h : disk.saveInPlace mode p content = (.ok (), after)) :
    ∃ place bytes, Stored mode p content place bytes disk after := by
  rcases saveInPlace_cases disk mode p content with
    ⟨fault, he⟩ | ⟨place, -, -, ⟨fault, he⟩ | ⟨bytes, after', he, hs⟩⟩ <;> rw [he] at h <;> cases h
  exact ⟨place, bytes, hs⟩

/-- The plain way to write succeeds wherever the text can be encoded and no directory is in the
way. -/
theorem saveInPlace_of_encode (he : mode.encode content = .ok bytes)
    (hl : disk.locate p = .ok place) (hd : disk.get? place ≠ some .directory) :
    ∃ after, disk.saveInPlace mode p content = (.ok (), after) ∧
      Same (disk.set place (.file bytes)) after := by
  have hm : ¬ mode.isRefusedAtOnce = true := fun hm => by
    obtain ⟨fault, hf⟩ : ∃ fault, mode.encode content = .error fault :=
      encode_of_isRefusedAtOnce hm
    rw [he] at hf
    cases hf
  have ho : disk.writeFile p [] = .ok (disk.set place (.file [])) := by
    unfold writeFile
    rw [hl]
    exact if_neg hd
  refine ⟨(disk.set place (.file [])).set place (.file bytes), ?_,
    same_set_set (ne_nil_of_not_directory hd)⟩
  unfold saveInPlace
  rw [if_neg hm, ho]
  simp only [he, writeFile_set hl hd]

/-! ## What saving keeps -/

/-- What an attempt to write a file leaves: everything lasts, and the file is there if the attempt
succeeded. -/
structure Kept (p : Path) (disk : Disk) (r : Except SaveFault Unit × Disk) : Prop where
  lasts : Lasts disk r.2
  isFile : r.1 = .ok () → r.2.isFile p = .ok true

theorem kept_of_error {fault : SaveFault} (h : Lasts disk after) :
    Kept p disk (.error fault, after) :=
  ⟨h, nofun⟩

theorem Stored.kept (h : Stored mode p content place bytes disk after) :
    Kept p disk (.ok (), after) :=
  ⟨h.lasts, fun _ => h.isFile⟩

theorem Kept.of_lasts {r : Except SaveFault Unit × Disk} (h : Lasts disk after)
    (hk : Kept p after r) : Kept p disk r :=
  ⟨h.trans hk.lasts, hk.isFile⟩

theorem saveThrough_kept (disk : Disk) (mode : SaveMode) (p : Path) (content : String) :
    Kept p disk (disk.saveThrough mode p content) := by
  rcases saveThrough_cases disk mode p content with
    ⟨fault, after, h, hs⟩ | ⟨place, bytes, after, h, hs⟩ <;> rw [h]
  · exact kept_of_error hs.lasts
  · exact hs.kept

theorem saveInPlace_kept (disk : Disk) (mode : SaveMode) (p : Path) (content : String) :
    Kept p disk (disk.saveInPlace mode p content) := by
  rcases saveInPlace_cases disk mode p content with
    ⟨fault, h⟩ | ⟨place, -, hd, ⟨fault, h⟩ | ⟨bytes, after, h, hs⟩⟩ <;> rw [h]
  · exact kept_of_error (Lasts.refl disk)
  · exact kept_of_error (lasts_set_file hd)
  · exact hs.kept

theorem save_kept (disk : Disk) (mode : SaveMode) (p : Path) (content : String) :
    Kept p disk (disk.save mode p content) := by
  have hm := makeDirectories_lasts disk p.parent
  rw [save_eq]
  rcases hr : disk.makeDirectories p.parent with ⟨fault | u, made⟩ <;> rw [hr] at hm
  · exact kept_of_error hm
  · show Kept p disk (made.saveHere mode p content)
    unfold saveHere
    split
    · exact Kept.of_lasts hm (saveThrough_kept made mode p content)
    · exact Kept.of_lasts hm (saveInPlace_kept made mode p content)

theorem backUp_lasts (disk : Disk) (p : Path) : Lasts disk (disk.backUp p).2 := by
  unfold backUp
  split
  · exact Lasts.refl disk
  split
  · exact Lasts.refl disk
  split
  · exact Lasts.refl disk
  split
  · exact Lasts.refl disk
  · next hw => exact writeFile_lasts hw

end DomainCodegen.Disk
