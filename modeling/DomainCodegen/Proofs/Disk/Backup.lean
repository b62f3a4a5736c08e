import DomainCodegen.Proofs.Disk.Atomic

/-!
# Backups

A backup goes to the first of its names at which nothing is, whatever the path looks like
(`backUp_first`); the search for it always ends (`firstBackup`). A `History` is a file with all its
older versions in its backups, one after the other; writing over the file after backing it up makes
a longer one (`History.step`).
-/

namespace DomainCodegen.Disk

variable {disk after later : Disk} {p : Path} {place other start x y : Location}
  {front : List String} {name : String} {mode : SaveMode} {content : String}
  {bytes current : List UInt8} {older : List (List UInt8)}

/-! ## The last name of a path -/

theorem walk_append (disk : Disk) (start : Location) (front names : List String) :
    disk.walk start (front ++ names) =
      (disk.walk start front).bind fun place => disk.walk place names := by
  induction front generalizing start with
  | nil => rfl
  | cons name r ih =>
    rw [List.cons_append, walk_cons, walk_cons]
    rcases disk.get? start with _ | _ | _
    · rfl
    · rfl
    · dsimp only
      by_cases hup : name = ".."
      · rw [if_pos hup, if_pos hup, ih]
      rw [if_neg hup, if_neg hup]
      by_cases hl : nameLimit < name.utf8ByteSize
      · rw [if_pos hl, if_pos hl]
        rfl
      · rw [if_neg hl, if_neg hl, ih]

/-- The last name of a walk is looked up in a directory. -/
theorem walk_concat_eq_ok (h : disk.walk start (front ++ [name]) = .ok place) :
    ∃ dir, disk.walk start front = .ok dir ∧
      place = if name = ".." then dir.dropLast else dir ++ [name] := by
  rw [walk_append] at h
  cases hw : disk.walk start front with
  | error reason => rw [hw] at h; cases h
  | ok dir =>
  rw [hw] at h
  refine ⟨dir, rfl, ?_⟩
  simpa [endOf] using (endOf_of_walk h).1

theorem locate_withName [Surrogates] (h : disk.locate (p.withName name) = .ok place) :
    ∃ dir, disk.walk (disk.startOf p) p.names.dropLast = .ok dir ∧
      place = if name = ".." then dir.dropLast else dir ++ [name] :=
  walk_concat_eq_ok (walk_of_locate h)

theorem withName_name (hne : p.names ≠ []) : p.withName p.name = p := by
  unfold Path.withName Path.name
  rw [List.getLast?_eq_getLast_of_ne_nil hne, Option.getD_some, List.dropLast_append_getLast]

/-- Neighbours of different names lead to different places. -/
theorem ne_of_locate_withName [Surrogates] {a b : String} (hx : disk.locate (p.withName a) = .ok x)
    (hy : disk.locate (p.withName b) = .ok y) (hab : a ≠ b) (hb : b ≠ "..") : x ≠ y := by
  obtain ⟨dir, hd, rfl⟩ := locate_withName hx
  obtain ⟨dir', hd', rfl⟩ := locate_withName hy
  obtain rfl : dir = dir' := by
    rw [hd] at hd'
    exact Except.ok.inj hd'
  rw [if_neg hb]
  split
  · intro he
    have := congrArg List.length he
    rw [List.length_dropLast, List.length_append, List.length_singleton] at this
    omega
  · simpa using hab

theorem backupName_ne_up (name : String) (k : Nat) : backupName name k ≠ ".." :=
  backupName_ne (by simp)

section Copies

variable [Surrogates]

/-- The backups of a file are not where the file is. -/
theorem ne_backup (hne : p.names ≠ []) {k : Nat} (hp : disk.locate p = .ok x)
    (hb : disk.locate (backupPath p k) = .ok y) : x ≠ y := by
  rw [← withName_name hne] at hp
  exact ne_of_locate_withName hp hb (backupName_ne_self p.name k).symm (backupName_ne_up _ _)

theorem backup_ne_backup {i k : Nat} (hi : disk.locate (backupPath p i) = .ok x)
    (hk : disk.locate (backupPath p k) = .ok y) (hne : i ≠ k) : x ≠ y :=
  ne_of_locate_withName hi hk (fun h => hne (backupName_injective _ h)) (backupName_ne_up _ _)

/-! ## Backing up -/

theorem fileAt_eq_ok_iff : disk.fileAt p = .ok bytes ↔
    ∃ place, disk.locate p = .ok place ∧ disk.get? place = some (.file bytes) := by
  unfold fileAt
  cases disk.locate p with
  | error fault => simp
  | ok place => rcases h : disk.get? place with _ | _ | _ <;> simp [h]

/-- The search for the name of a backup always ends. -/
theorem firstBackup (disk : Disk) (p : Path) :
    ∃ k, disk.FirstAt (backupPath p) k (disk.firstFree (backupPath p)) := by
  obtain ⟨dir, hdir⟩ : ∃ dir, ∀ reached,
      disk.walk (disk.startOf p) p.names.dropLast = .ok reached → reached = dir := by
    cases disk.walk (disk.startOf p) p.names.dropLast with
    | error reason => exact ⟨[], nofun⟩
    | ok dir => exact ⟨dir, fun reached h => (Except.ok.inj h).symm⟩
  have hmem : ∀ i, disk.holds (backupPath p i) = .ok true →
      dir ++ [backupName p.name i] ∈ disk.entries.map Prod.fst := by
    intro i hi
    obtain ⟨place, hl, hs⟩ := exists_place_of_holds hi
    obtain ⟨reached, hw, hplace⟩ : ∃ reached, _ ∧
        place = if backupName p.name i = ".." then reached.dropLast
          else reached ++ [backupName p.name i] := locate_withName hl
    rw [if_neg (backupName_ne_up p.name i), hdir reached hw] at hplace
    rw [hplace] at hs
    exact mem_entries_of_isSome (by simp) hs
  exact firstFree_firstAt_of_mem (backupName_injective p.name) hmem

/-- Backing up leaves the disk alone, or it copies the file to the first of the names of its backups
at which nothing is. -/
theorem backUp_first (disk : Disk) (p : Path) :
    ∃ k, (∀ j < k, disk.holds (backupPath p j) = .ok true) ∧
      disk.holds (backupPath p k) ≠ .ok true ∧
      ((∃ fault, disk.backUp p = (.error fault, disk)) ∨
      ∃ place bytes, p.names ≠ [] ∧ disk.fileAt p = .ok bytes ∧
        disk.holds (backupPath p k) = .ok false ∧ disk.locate (backupPath p k) = .ok place ∧
        disk.get? place = none ∧
        disk.backUp p = (.ok (backupPath p k), disk.set place (.file bytes))) := by
  obtain ⟨k, htaken, hk⟩ := firstBackup disk p
  have hfree : disk.holds (backupPath p k) ≠ .ok true := by
    rcases hk with ⟨h, -⟩ | ⟨fault, h, -⟩ <;> rw [h] <;> simp
  refine ⟨k, htaken, hfree, ?_⟩
  unfold backUp
  by_cases hname : p.name = ""
  · exact .inl ⟨_, if_pos hname⟩
  have hne : p.names ≠ [] := fun h => hname (by unfold Path.name; rw [h]; rfl)
  rw [if_neg hname]
  rcases hk with ⟨hfalse, hfirst⟩ | ⟨fault, -, hfirst⟩ <;> rw [hfirst]
  swap
  · exact .inl ⟨_, rfl⟩
  cases hf : disk.fileAt p with
  | error fault => exact .inl ⟨_, rfl⟩
  | ok bytes =>
  dsimp only
  cases hw : disk.writeFile (backupPath p k) bytes with
  | error fault => exact .inl ⟨_, rfl⟩
  | ok copied =>
    obtain ⟨place, hl, -, rfl⟩ := writeFile_eq_ok hw
    have hnone : disk.get? place = none := by
      unfold holds look at hfalse
      rw [hl] at hfalse
      simpa [Except.map] using hfalse
    exact .inr ⟨place, bytes, hne, rfl, hfalse, hl, hnone, rfl⟩

/-! ## Histories -/

/-- A file and its older versions, which are in its backups; the other backups are free. -/
structure History (p : Path) (older : List (List UInt8)) (current : List UInt8)
    (disk : Disk) :
    Prop where
  file : disk.fileAt p = .ok current
  backup : ∀ i (h : i < older.length), disk.fileAt (backupPath p i) = .ok older[i]
  free : ∀ k, older.length ≤ k → disk.holds (backupPath p k) ≠ .ok true

theorem holds_of_fileAt (h : disk.fileAt p = .ok bytes) : disk.holds p = .ok true := by
  obtain ⟨place, hl, hb⟩ := fileAt_eq_ok_iff.mp h
  unfold holds look
  rw [hl]
  dsimp only
  rw [hb]
  rfl

/-- The next backup is the first that is free. -/
theorem History.backUp_cases (h : History p older current disk) :
    (∃ fault, disk.backUp p = (.error fault, disk)) ∨
    ∃ place, p.names ≠ [] ∧ disk.locate (backupPath p older.length) = .ok place ∧
      disk.get? place = none ∧
      disk.backUp p =
        (.ok (backupPath p older.length), disk.set place (.file current)) := by
  obtain ⟨k, htaken, hfree, hcases⟩ := backUp_first disk p
  have hle : older.length ≤ k := by
    by_contra hlt
    exact hfree (holds_of_fileAt (h.backup k (by omega)))
  have hge : k ≤ older.length := by
    by_contra hlt
    exact h.free older.length le_rfl (htaken _ (by omega))
  obtain rfl : k = older.length := by omega
  refine hcases.imp_right ?_
  rintro ⟨place, bytes, hne, hf, -, hrest⟩
  obtain rfl : current = bytes := by
    rw [h.file] at hf
    exact Except.ok.inj hf
  exact ⟨place, hne, hrest⟩

/-- A text that is saved to a file that is there changes nothing but the file. -/
theorem same_of_save (hne : p.names ≠ []) (hl : disk.locate p = .ok place)
    (h : disk.save mode p content = (.ok (), after)) :
    ∃ bytes, mode.encode content = .ok bytes ∧ Same (disk.set place (.file bytes)) after ∧
      disk.get? place ≠ some .directory := by
  obtain ⟨made, place', bytes, hg, hs⟩ := save_eq_ok h
  have hmade : Same disk made := hg.same fun other => directory_of_onWay_parent hl hne
  obtain rfl : place = place' := by
    have hl' := hs.locate
    rw [hmade.lasts.locate hl] at hl'
    exact Except.ok.inj hl'
  have hd : disk.get? place ≠ some .directory := by
    rw [← hmade.entry]
    exact hs.get?_ne
  exact ⟨bytes, hs.encode, (same_set (ne_nil_of_not_directory hd) hmade).trans hs.same, hd⟩

end Copies

/-- A file has new content, and its old content stands where nothing was. -/
structure Exchanged (disk after : Disk) (place spare : Location) (old new : List UInt8) :
    Prop where
  home : after.home = disk.home
  file : disk.get? place = some (.file old)
  free : disk.get? spare = none
  entry : ∀ other, after.get? other =
    if other = place then some (.file new)
    else if other = spare then some (.file old) else disk.get? other

section Exchanged

variable {spare : Location} {new : List UInt8} (he : Exchanged disk after place spare current new)

include he

theorem Exchanged.place_ne : place ≠ spare := by
  rintro rfl
  have hfree := he.free
  rw [he.file] at hfree
  cases hfree

theorem Exchanged.lasts : Lasts disk after where
  home := he.home
  directory other hd := by
    rw [he.entry, if_neg, if_neg, hd]
    · rintro rfl
      rw [he.free] at hd
      cases hd
    · rintro rfl
      rw [he.file] at hd
      cases hd
  file other bytes hf := by
    rw [he.entry]
    split
    · exact ⟨_, rfl⟩
    split
    · exact ⟨_, rfl⟩
    · exact ⟨_, hf⟩

theorem Exchanged.stands : Stands after disk where
  home := he.home.symm
  directory other hd := by
    rw [he.entry] at hd
    split at hd
    · cases hd
    split at hd
    · cases hd
    · exact hd

/-- With the old content in the next backup the history goes on. -/
theorem History.exchanged [Surrogates] (h : History p older current disk) (hne : p.names ≠ [])
    (hl : disk.locate p = .ok place)
    (hspare : disk.locate (backupPath p older.length) = .ok spare) :
    History p (older ++ [current]) new after where
  file := fileAt_eq_ok_iff.mpr ⟨place, he.lasts.locate hl, by rw [he.entry, if_pos rfl]⟩
  backup i hi := by
    rw [List.length_append, List.length_singleton] at hi
    by_cases hlast : i = older.length
    · subst hlast
      refine fileAt_eq_ok_iff.mpr ⟨spare, he.lasts.locate hspare, ?_⟩
      rw [he.entry, if_neg he.place_ne.symm, if_pos rfl, List.getElem_concat_length rfl]
    · have hi' : i < older.length := by omega
      obtain ⟨other, hlo, hfo⟩ := fileAt_eq_ok_iff.mp (h.backup i hi')
      refine fileAt_eq_ok_iff.mpr ⟨other, he.lasts.locate hlo, ?_⟩
      rw [he.entry, if_neg (ne_backup hne hl hlo).symm,
        if_neg (backup_ne_backup hlo hspare hlast), hfo, List.getElem_append_left hi']
  free k hk hh := by
    rw [List.length_append, List.length_singleton] at hk
    obtain ⟨other, hlo, hso⟩ := exists_place_of_holds hh
    have hlo' := he.stands.locate hlo
    rw [he.entry, if_neg (ne_backup hne hl hlo').symm,
      if_neg (backup_ne_backup hlo' hspare (by omega))] at hso
    refine h.free k (by omega) ?_
    unfold holds look
    rw [hlo']
    simp [Except.map, hso]

end Exchanged

/-- A file that is backed up and then written over has one version more. -/
theorem History.step [Surrogates] {backup : Path} (h : History p older current disk)
    (hb : disk.backUp p = (.ok backup, later))
    (hs : later.save mode p content = (.ok (), after)) :
    ∃ bytes, mode.encode content = .ok bytes ∧ backup = backupPath p older.length ∧
      History p (older ++ [current]) bytes after := by
  rcases h.backUp_cases with ⟨fault, he⟩ | ⟨spare, hne, hspare, hnone, he⟩ <;> rw [he] at hb
  · cases hb
  obtain ⟨rfl, rfl⟩ : backupPath p older.length = backup ∧
      disk.set spare (.file current) = later := by
    simpa using hb
  obtain ⟨place, hl, hfile⟩ := fileAt_eq_ok_iff.mp h.file
  have hspared : disk.get? spare ≠ some .directory := by
    rw [hnone]
    exact nofun
  obtain ⟨bytes, hencode, hsame, hd⟩ := same_of_save hne ((lasts_set_file hspared).locate hl) hs
  have hexchanged : Exchanged disk after place spare current bytes := by
    refine ⟨hsame.home, hfile, hnone, fun other => ?_⟩
    rw [hsame.entry, get?_set (ne_nil_of_not_directory hd),
      get?_set (ne_nil_of_not_directory hspared)]
  exact ⟨bytes, hencode, rfl, h.exchanged hexchanged hne hl hspare⟩

end DomainCodegen.Disk
