import DomainCodegen.Proofs.Disk.FreeName
import DomainCodegen.Proofs.Disk.Lasting

/-!
# Saving and backing up

In a directory that is there, saving a text changes no entry but the one of its target:
`saveHere_spec` gives the result of saving and the bytes that are written, with or without a
temporary file. `save_cases` and `backUp_cases` are what the rest of the development knows about the
two operations.
-/

namespace DomainCodegen.Disk

variable [Surrogates]

variable {disk after : Disk} {p temporary : Path} {place top dir : Location} {name other : String}
  {bytes : List UInt8} {mode : SaveMode} {content : String}

/-! ## Directories that are there -/

/-- A directory of a well-formed disk. -/
structure Room (disk : Disk) (dir : Location) : Prop where
  wellFormed : disk.WellFormed
  directory : disk.get? dir = some .directory

omit [Surrogates] in
theorem Room.set (hr : disk.Room dir) (h : disk.get? (dir ++ [name]) ≠ some .directory) :
    (disk.set (dir ++ [name]) (.file bytes)).Room dir where
  wellFormed := hr.wellFormed.set hr.directory (.inl h)
  directory := by rw [get?_set_append, if_neg (by simp), hr.directory]

omit [Surrogates] in
/-- Whether a path stands beside others in a directory does not depend on the disk. -/
theorem Beside.of_room (h : disk.Beside dir name p) (hr : after.Room dir)
    (hh : after.home = disk.home) : after.Beside dir name p := by
  obtain ⟨front, hn, hd⟩ := h.names
  have hstart : after.startOf p = disk.startOf p := by
    unfold startOf
    rw [hh]
  have hplace : after.placeOf p = disk.placeOf p := by
    unfold placeOf
    rw [hstart]
  refine ⟨⟨?_, ?_⟩, h.nonempty, front, hn, by rw [hstart, hd]⟩
  · rw [hplace]
    exact h.straight.up_notMem
  · rw [hstart]
    by_cases he : disk.startOf p = dir
    · rw [he, hr.directory]
    · exact hr.wellFormed.directory_of_prefix ⟨front, hd⟩ he (by rw [hr.directory]; rfl)

/-! ## Single operations -/

theorem Beside.locate_of_accept (hr : disk.Room dir) (h : disk.Beside dir name p)
    (ha : accept p = .ok ()) : disk.locate p = .ok (dir ++ [name]) := by
  rw [h.locate hr.wellFormed hr.directory, ha]
  rfl

theorem Beside.locate_of_refuse {fault : Fault} (hr : disk.Room dir) (h : disk.Beside dir name p)
    (ha : accept p = .error fault) : disk.locate p = .error fault := by
  rw [h.locate hr.wellFormed hr.directory, ha]
  rfl

theorem Beside.fileAt (hr : disk.Room dir) (h : disk.Beside dir name p) :
    disk.fileAt p = match accept p, disk.get? (dir ++ [name]) with
      | .error fault, _ => .error fault
      | .ok (), none => .error (.refused .missing p)
      | .ok (), some .directory => .error (.refused .isDirectory p)
      | .ok (), some (.file bytes) => .ok bytes := by
  unfold Disk.fileAt
  cases ha : accept p with
  | error fault => rw [h.locate_of_refuse hr ha]
  | ok u =>
    rw [h.locate_of_accept hr ha]
    dsimp only
    rcases disk.get? (dir ++ [name]) with _ | _ | _ <;> rfl

theorem Beside.writeFile (hr : disk.Room dir) (h : disk.Beside dir name p) :
    disk.writeFile p bytes = match accept p with
      | .error fault => .error fault
      | .ok () =>
        if disk.get? (dir ++ [name]) = some .directory then .error (.refused .isDirectory p)
        else .ok (disk.set (dir ++ [name]) (.file bytes)) := by
  unfold Disk.writeFile
  cases ha : accept p with
  | error fault => rw [h.locate_of_refuse hr ha]
  | ok u => rw [h.locate_of_accept hr ha]

/-- A name at which nothing is found, of a path that is taken, is free. -/
theorem Beside.get?_eq_none (hr : disk.Room dir) (h : disk.Beside dir name p)
    (ha : accept p = .ok ()) (hh : disk.holds p = .ok false) :
    disk.get? (dir ++ [name]) = none := by
  unfold holds at hh
  rw [h.look hr.wellFormed hr.directory, ha] at hh
  simpa [Except.map] using hh

theorem Beside.createFile (hr : disk.Room dir) (h : disk.Beside dir name p)
    (hh : disk.holds p = .ok false) :
    disk.createFile p = match accept p with
      | .error fault => .error fault
      | .ok () => .ok (disk.set (dir ++ [name]) (.file [])) := by
  unfold Disk.createFile
  cases ha : accept p with
  | error fault => rw [h.locate_of_refuse hr ha]
  | ok u =>
    simp only [h.locate_of_accept hr ha, h.get?_eq_none hr ha hh, Option.isSome_none,
      Bool.false_eq_true, if_false]

/-- A file moves within a directory unless a directory is in its new place. -/
theorem Beside.moveFile {source : Path} (hr : disk.Room dir) (h : disk.Beside dir name p)
    (hs : disk.Beside dir other source) (ha : accept source = .ok ())
    (hb : disk.get? (dir ++ [other]) = some (.file bytes)) :
    disk.moveFile source p = match accept p with
      | .error fault => .error (fault.ofMove source p)
      | .ok () =>
        if disk.get? (dir ++ [name]) = some .directory then
          .error (.moveRefused .isDirectory source p)
        else .ok ((disk.erase (dir ++ [other])).set (dir ++ [name]) (.file bytes)) := by
  have hfile : disk.fileAt source = .ok bytes := by rw [hs.fileAt hr, ha, hb]
  have hname : ¬ (p.name = "" ∨ p.name = "..") := by
    rw [h.name_eq]
    rintro (he | he)
    · exact h.nonempty he
    · refine h.straight.up_notMem ?_
      rw [h.place, he]
      simp
  unfold Disk.moveFile
  rw [hfile, hs.locate_of_accept hr ha]
  cases hp : accept p with
  | error fault => rw [h.locate_of_refuse hr hp]
  | ok u =>
    rw [h.locate_of_accept hr hp]
    exact if_neg hname

/-! ## Saving in a directory that is there -/

/-- The disk with new bytes in a file, if there are any. -/
def withFile (disk : Disk) (place : Location) : Option (List UInt8) → Disk
  | none => disk
  | some bytes => disk.set place (.file bytes)

/-- What saving comes to: its result, and the bytes that are in the target now if it was opened. -/
abbrev Saved := Except SaveFault Unit × Option (List UInt8)

def savedThrough (disk : Disk) (mode : SaveMode) (p : Path) (content : String) : Saved :=
  match disk.freeTemporary p with
  | .error fault => (.error fault, none)
  | .ok temporary =>
    match accept temporary, mode.encode content, accept p with
    | .error fault, _, _ => (.error (.disk fault), none)
    | .ok (), .error fault, _ => (.error fault, none)
    | .ok (), .ok _, .error fault => (.error (.disk (fault.ofMove temporary p)), none)
    | .ok (), .ok bytes, .ok () =>
      if disk.get? (disk.placeOf p) = some .directory then
        (.error (.disk (.moveRefused .isDirectory temporary p)), none)
      else (.ok (), some bytes)

def savedInPlace (disk : Disk) (mode : SaveMode) (p : Path) (content : String) : Saved :=
  if mode.isRefusedAtOnce then ((mode.encode content).map fun _ => (), none)
  else
    match accept p with
    | .error fault => (.error (.disk fault), none)
    | .ok () =>
      if disk.get? (disk.placeOf p) = some .directory then
        (.error (.disk (.refused .isDirectory p)), none)
      else
        match mode.encode content with
        | .error fault => (.error fault, some [])
        | .ok bytes => (.ok (), some bytes)

/-- Where the directory is there already, saving is one of the two ways to write the file. -/
def saveHere (disk : Disk) (mode : SaveMode) (p : Path) (content : String) :
    Except SaveFault Unit × Disk :=
  if mode.atomic then disk.saveThrough mode p content else disk.saveInPlace mode p content

def savedHere (disk : Disk) (mode : SaveMode) (p : Path) (content : String) : Saved :=
  if mode.atomic then disk.savedThrough mode p content else disk.savedInPlace mode p content

theorem Extra.room (h : Extra disk temporary (dir ++ [other]) bytes after) (hr : disk.Room dir) :
    after.Room dir where
  wellFormed := h.same.wellFormed (hr.set (by rw [h.free]; exact nofun)).wellFormed
  directory := h.lasts.directory dir hr.directory

/-- A temporary file moves to another name unless a directory has it. -/
theorem Extra.moveFile_eq (h : Extra disk temporary (dir ++ [other]) bytes after)
    (hr : disk.Room dir) (ht : disk.Beside dir other temporary) (hb : disk.Beside dir name p)
    (ha : accept temporary = .ok ()) (hne : name ≠ other) :
    after.moveFile temporary p = match accept p with
      | .error fault => .error (fault.ofMove temporary p)
      | .ok () =>
        if disk.get? (dir ++ [name]) = some .directory then
          .error (.moveRefused .isDirectory temporary p)
        else .ok ((after.erase (dir ++ [other])).set (dir ++ [name]) (.file bytes)) := by
  have hroom : after.Room dir := h.room hr
  have hthere : after.get? (dir ++ [name]) = disk.get? (dir ++ [name]) := by
    rw [h.get?_eq, if_neg (by simpa using hne)]
  rw [(hb.of_room hroom h.same.home).moveFile hroom (ht.of_room hroom h.same.home) ha
    h.get?_origin, hthere]

theorem saveThrough_spec (hr : disk.Room dir) (h : disk.Beside dir name p) :
    (disk.saveThrough mode p content).1 = (disk.savedThrough mode p content).1 ∧
      Same (disk.withFile (dir ++ [name]) (disk.savedThrough mode p content).2)
        (disk.saveThrough mode p content).2 := by
  unfold saveThrough savedThrough
  obtain ⟨fault, hfirst⟩ | ⟨k, -, hfree, hfirst⟩ := freeTemporary_cases h <;> simp only [hfirst]
  · exact ⟨trivial, Same.refl disk⟩
  have hb := h.temporary k
  generalize temporaryPath disk.homePath p k = temporary at hb hfree ⊢
  rw [hb.createFile hr hfree]
  cases ha : accept temporary with
  | error fault => exact ⟨rfl, Same.refl disk⟩
  | ok u =>
  -- the temporary file is there from here on
  have hcreated : Extra disk temporary (dir ++ [temporaryName name k]) [] _ :=
    extra_set (hb.locate_of_accept hr ha) (hb.get?_eq_none hr ha hfree)
  cases mode.encode content with
  | error fault => exact ⟨rfl, hcreated.same_removeFile⟩
  | ok bytes =>
  obtain ⟨written, hw, hwritten⟩ := hcreated.writeFile bytes
  have hne : name ≠ temporaryName name k := (temporaryName_ne_self name k).symm
  simp only [hw, hwritten.moveFile_eq hr hb h ha hne, h.place]
  cases accept p with
  | error fault => exact ⟨rfl, hwritten.same_removeFile⟩
  | ok u =>
    by_cases hd : disk.get? (dir ++ [name]) = some .directory
    · simp only [if_pos hd]
      exact ⟨trivial, hwritten.same_removeFile⟩
    · simp only [if_neg hd]
      exact ⟨trivial, same_set append_singleton_ne_nil hwritten.same_erase⟩

theorem saveInPlace_spec (hr : disk.Room dir) (h : disk.Beside dir name p) :
    (disk.saveInPlace mode p content).1 = (disk.savedInPlace mode p content).1 ∧
      Same (disk.withFile (dir ++ [name]) (disk.savedInPlace mode p content).2)
        (disk.saveInPlace mode p content).2 := by
  unfold saveInPlace savedInPlace
  by_cases hm : mode.isRefusedAtOnce = true
  · rw [if_pos hm, if_pos hm]
    exact ⟨rfl, Same.refl disk⟩
  rw [if_neg hm, if_neg hm, h.writeFile hr, h.place]
  cases ha : accept p with
  | error fault => exact ⟨rfl, Same.refl disk⟩
  | ok u =>
  by_cases hd : disk.get? (dir ++ [name]) = some .directory
  · simp only [if_pos hd]
    exact ⟨trivial, Same.refl disk⟩
  simp only [if_neg hd]
  cases mode.encode content with
  | error fault => exact ⟨rfl, Same.refl _⟩
  | ok bytes =>
    have ho : (disk.set (dir ++ [name]) (.file [])).Room dir := hr.set hd
    have hfile : (disk.set (dir ++ [name]) (.file [])).get? (dir ++ [name]) ≠
        some .directory := by simp
    simp only [(h.of_room ho rfl).writeFile ho, ha, if_neg hfile]
    exact ⟨trivial, same_set_set append_singleton_ne_nil⟩

theorem saveHere_spec (hr : disk.Room dir) (h : disk.Beside dir name p) :
    (disk.saveHere mode p content).1 = (disk.savedHere mode p content).1 ∧
      Same (disk.withFile (dir ++ [name]) (disk.savedHere mode p content).2)
        (disk.saveHere mode p content).2 := by
  unfold saveHere savedHere
  split
  · exact saveThrough_spec hr h
  · exact saveInPlace_spec hr h

theorem encode_of_isRefusedAtOnce (h : mode.isRefusedAtOnce = true) :
    ∃ fault, mode.encode content = .error fault := by
  unfold SaveMode.isRefusedAtOnce at h
  unfold SaveMode.encode
  cases he : mode.encoding with
  | error fault => exact ⟨.noEncoding fault, rfl⟩
  | ok encoding => rw [he] at h; cases h

theorem savedThrough_cases (disk : Disk) (mode : SaveMode) (p : Path) (content : String) :
    (∃ fault, disk.savedThrough mode p content = (.error fault, none)) ∨
    p.Fits ∧ disk.get? (disk.placeOf p) ≠ some .directory ∧
      ∃ bytes, mode.encode content = .ok bytes ∧
        disk.savedThrough mode p content = (.ok (), some bytes) := by
  unfold savedThrough
  cases disk.freeTemporary p with
  | error fault => exact .inl ⟨fault, rfl⟩
  | ok temporary =>
  dsimp only
  cases accept temporary with
  | error fault => exact .inl ⟨.disk fault, rfl⟩
  | ok u =>
  cases mode.encode content with
  | error fault => exact .inl ⟨fault, rfl⟩
  | ok bytes =>
  cases ha : accept p with
  | error fault => exact .inl ⟨.disk (fault.ofMove temporary p), rfl⟩
  | ok u =>
  dsimp only
  by_cases hd : disk.get? (disk.placeOf p) = some .directory
  · exact .inl ⟨_, if_pos hd⟩
  · exact .inr ⟨accept_eq_ok_iff.mp ha, hd, bytes, rfl, if_neg hd⟩

theorem savedInPlace_cases (disk : Disk) (mode : SaveMode) (p : Path) (content : String) :
    (∃ fault, disk.savedInPlace mode p content = (.error fault, none)) ∨
    p.Fits ∧ disk.get? (disk.placeOf p) ≠ some .directory ∧
      ((∃ fault, disk.savedInPlace mode p content = (.error fault, some [])) ∨
      ∃ bytes, mode.encode content = .ok bytes ∧
        disk.savedInPlace mode p content = (.ok (), some bytes)) := by
  unfold savedInPlace
  by_cases hm : mode.isRefusedAtOnce = true
  · obtain ⟨fault, he⟩ : ∃ fault, mode.encode content = .error fault :=
      encode_of_isRefusedAtOnce hm
    rw [if_pos hm, he]
    exact .inl ⟨fault, rfl⟩
  rw [if_neg hm]
  cases ha : accept p with
  | error fault => exact .inl ⟨.disk fault, rfl⟩
  | ok u =>
  by_cases hd : disk.get? (disk.placeOf p) = some .directory
  · exact .inl ⟨_, if_pos hd⟩
  refine .inr ⟨accept_eq_ok_iff.mp ha, hd, ?_⟩
  simp only [if_neg hd]
  cases mode.encode content with
  | error fault => exact .inl ⟨fault, rfl⟩
  | ok bytes => exact .inr ⟨bytes, rfl, rfl⟩

/-- Saving writes nothing, or empties the target and fails, or writes the whole text; it writes
neither over a directory nor to a path that does not fit. -/
theorem savedHere_cases (disk : Disk) (mode : SaveMode) (p : Path) (content : String) :
    (∃ fault, disk.savedHere mode p content = (.error fault, none)) ∨
    p.Fits ∧ disk.get? (disk.placeOf p) ≠ some .directory ∧
      ((∃ fault, disk.savedHere mode p content = (.error fault, some [])) ∨
      ∃ bytes, mode.encode content = .ok bytes ∧
        disk.savedHere mode p content = (.ok (), some bytes)) := by
  unfold savedHere
  split
  · exact (savedThrough_cases disk mode p content).imp_right
      fun ⟨hfits, hd, hsaved⟩ => ⟨hfits, hd, .inr hsaved⟩
  · exact savedInPlace_cases disk mode p content

/-! ## Saving with the directories -/

theorem save_eq (disk : Disk) (mode : SaveMode) (p : Path) (content : String) :
    disk.save mode p content = match disk.makeDirectories p.parent with
      | (.error fault, made) => (.error (.disk fault), made)
      | (.ok (), made) => made.saveHere mode p content := rfl

/-- Saving fails before the target is looked at, or comes to what it does in the directory. -/
theorem save_cases (wf : disk.WellFormed) (h : disk.Beside dir name p) (mode : SaveMode)
    (content : String) :
    ∃ made, Grows dir disk made ∧
      ((∃ fault, disk.save mode p content = (.error (.disk fault), made) ∧ made.WellFormed ∧
        ¬ (p.parent.Fits ∧ disk.Open dir)) ∨
      (p.parent.Fits ∧ disk.Open dir ∧ made.Room dir ∧
        (disk.save mode p content).1 = (made.savedHere mode p content).1 ∧
        Same (made.withFile (dir ++ [name]) (made.savedHere mode p content).2)
          (disk.save mode p content).2)) := by
  have hm := makeDirectories_made wf h.parent_straight
  rw [h.parent_place] at hm
  rw [save_eq]
  rcases hr : disk.makeDirectories p.parent with ⟨fault | u, made⟩
  · rw [hr] at hm
    exact ⟨made, hm.grows, .inl ⟨fault, rfl, hm.wellFormed, fun hp => nomatch hm.ok_iff.mpr hp⟩⟩
  · rw [hr] at hm
    have hroom : made.Room dir := ⟨hm.wellFormed, hm.directory rfl⟩
    obtain ⟨hfits, ho⟩ := hm.ok_iff.mp rfl
    exact ⟨made, hm.grows, .inr ⟨hfits, ho, hroom,
      saveHere_spec hroom (h.of_room hroom hm.grows.home)⟩⟩

/-! ## Backing up -/

/-- A backup is a copy of the file at a name that was free. -/
theorem backUp_cases (hr : disk.Room dir) (h : disk.Beside dir name p) :
    (∃ fault, disk.backUp p = (.error fault, disk)) ∨
    ∃ k bytes, disk.get? (dir ++ [name]) = some (.file bytes) ∧
      disk.get? (dir ++ [backupName name k]) = none ∧
      disk.backUp p =
        (.ok (backupPath p k), disk.set (dir ++ [backupName name k]) (.file bytes)) := by
  unfold backUp
  rw [if_neg (by rw [h.name_eq]; exact h.nonempty)]
  obtain ⟨k, -, ⟨hfree, hfirst⟩ | ⟨fault, -, hfirst⟩⟩ :=
    firstFree_firstAt (backupName_injective name) h.backup
  swap
  · rw [hfirst]
    exact .inl ⟨_, rfl⟩
  rw [hfirst]
  cases hb : disk.fileAt p with
  | error fault => exact .inl ⟨_, rfl⟩
  | ok bytes =>
  cases ha : accept (backupPath p k) with
  | error fault =>
    simp only [(h.backup k).writeFile hr, ha]
    exact .inl ⟨_, rfl⟩
  | ok u =>
  have hnone : disk.get? (dir ++ [backupName name k]) = none :=
    (h.backup k).get?_eq_none hr ha hfree
  refine .inr ⟨k, bytes, ?_, hnone, ?_⟩
  · rw [h.fileAt hr] at hb
    split at hb <;> cases hb
    assumption
  · simp only [(h.backup k).writeFile hr, ha, hnone]
    rfl

end DomainCodegen.Disk
