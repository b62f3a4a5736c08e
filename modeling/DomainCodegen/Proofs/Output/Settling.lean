import DomainCodegen.Output.Writing
import DomainCodegen.Proofs.Disk.Saving

/-!
# What a job does to the disk

A job changes its target, adds backups of it where nothing was, and makes the directories on the
way. Nothing else changes, whatever fails (`settle_changes`). Where a file may be overwritten only
after a backup, `settle_keeps` finds the bytes of every file again.
-/

namespace DomainCodegen.Output

open Disk

variable {disk after later : Disk} {options : OutputOptions} {job : Job} {jobs : List Job}
  {p : Path} {dir place : Location} {name content : String} {bytes : List UInt8} {mode : SaveMode}
  {own own' : Location → Prop}

/-! ## Targets -/

/-- A job that writes a file of a name in a directory, by an absolute path. -/
structure Job.Targets (job : Job) (dir : Location) (name : String) : Prop where
  isAbsolute : job.path.isAbsolute = true
  names : job.path.names = dir ++ [name]
  up_notMem : ".." ∉ dir ++ [name]
  nonempty : name ≠ ""

theorem Job.Targets.beside (h : job.Targets dir name) (disk : Disk) :
    disk.Beside dir name job.path where
  straight := straight_of_isAbsolute h.isAbsolute (by rw [h.names]; exact h.up_notMem)
  nonempty := h.nonempty
  names := ⟨dir, h.names, by rw [startOf_of_isAbsolute h.isAbsolute]; rfl⟩

/-! ## Touching -/

/-- A disk changes at its own places only, except that directories appear on the way to `dir`. No
directory goes away. -/
structure Touches (own : Location → Prop) (dir : Location) (disk after : Disk) : Prop where
  home : after.home = disk.home
  wellFormed : after.WellFormed
  directory : ∀ place, disk.get? place = some .directory → after.get? place = some .directory
  entry : ∀ place, ¬ own place → after.get? place = disk.get? place ∨
    (place <+: dir ∧ disk.get? place = none ∧ after.get? place = some .directory)

theorem touches_of_grows (h : Grows dir disk after) (wf : after.WellFormed) :
    Touches own dir disk after :=
  ⟨h.home, wf, fun _ => h.directory, fun place _ => h.entry place⟩

theorem Touches.refl (wf : disk.WellFormed) : Touches own dir disk disk :=
  touches_of_grows (Grows.refl dir disk) wf

theorem Touches.same (h : Touches own dir disk after) (hs : Same after later) :
    Touches own dir disk later := by
  refine ⟨hs.home.trans h.home, hs.wellFormed h.wellFormed, fun place hd => ?_, fun place ho => ?_⟩
  · rw [hs.entry]
    exact h.directory place hd
  · rw [hs.entry]
    exact h.entry place ho

theorem Touches.mono (h : Touches own dir disk after) (ho : ∀ place, own place → own' place) :
    Touches own' dir disk after :=
  ⟨h.home, h.wellFormed, h.directory, fun place hn => h.entry place fun hp => hn (ho place hp)⟩

theorem Touches.trans (h : Touches own dir disk after) (h' : Touches own dir after later) :
    Touches own dir disk later := by
  refine ⟨h'.home.trans h.home, h'.wellFormed, fun place hd =>
    h'.directory place (h.directory place hd), fun place ho => ?_⟩
  rcases h.entry place ho with he | ⟨hp, hn, hd⟩ <;>
    rcases h'.entry place ho with he' | ⟨hp', hn', hd'⟩
  · exact .inl (he'.trans he)
  · exact .inr ⟨hp', he ▸ hn', hd'⟩
  · exact .inr ⟨hp, hn, he'.trans hd⟩
  · exact .inr ⟨hp, hn, hd'⟩

/-- Other files stay as they are. -/
theorem Touches.file_iff (h : Touches own dir disk after) (ho : ¬ own place) :
    after.get? place = some (.file bytes) ↔ disk.get? place = some (.file bytes) := by
  rcases h.entry place ho with he | ⟨-, hn, hd⟩
  · rw [he]
  · simp [hn, hd]

theorem touches_set (hr : disk.Room dir) (hd : disk.get? (dir ++ [name]) ≠ some .directory) :
    Touches (· = dir ++ [name]) dir disk (disk.set (dir ++ [name]) (.file bytes)) := by
  refine ⟨rfl, (hr.set hd).wellFormed, fun place hp => ?_, fun place ho => .inl ?_⟩
  · rw [get?_set_append, if_neg, hp]
    rintro rfl
    exact hd hp
  · rw [get?_set_append, if_neg ho]

/-! ## Saving and backing up -/

variable [Surrogates]

theorem save_touches (wf : disk.WellFormed) (h : disk.Beside dir name p) :
    Touches (· = dir ++ [name]) dir disk (disk.save mode p content).2 := by
  obtain ⟨made, hg, ⟨fault, hs, hwf, -⟩ | ⟨-, -, hr, -, hs⟩⟩ := save_cases wf h mode content
  · rw [hs]
    exact touches_of_grows hg hwf
  · refine Touches.same ((touches_of_grows hg hr.wellFormed).trans ?_) hs
    rcases savedHere_cases made mode p content with
      ⟨fault, he⟩ | ⟨-, hd, ⟨fault, he⟩ | ⟨bytes, -, he⟩⟩ <;> rw [he]
    · exact Touches.refl hr.wellFormed
    · rw [(h.of_room hr hg.home).place] at hd
      exact touches_set hr hd
    · rw [(h.of_room hr hg.home).place] at hd
      exact touches_set hr hd

/-- A path that does not fit is not written to. -/
theorem save_of_not_fits (wf : disk.WellFormed) (h : disk.Beside dir name p)
    (hf : ¬ p.Fits) :
    (∃ fault, (disk.save mode p content).1 = .error fault) ∧
      Grows dir disk (disk.save mode p content).2 := by
  obtain ⟨made, hg, ⟨fault, hs, -⟩ | ⟨-, -, -, hs, hsame⟩⟩ := save_cases wf h mode content
  · rw [hs]
    exact ⟨⟨_, rfl⟩, hg⟩
  · rcases savedHere_cases made mode p content with ⟨fault, he⟩ | ⟨hfits, -⟩
    · rw [he] at hs hsame
      exact ⟨⟨fault, hs⟩, hg.trans hsame.grows⟩
    · exact absurd hfits hf

/-- Something at a path stands in a directory. -/
theorem room_of_holds (wf : disk.WellFormed) (h : disk.Beside dir name p)
    (hh : disk.holds p = .ok true) : disk.Room dir := by
  obtain ⟨place, hl, hs⟩ := exists_place_of_holds hh
  obtain ⟨rfl, -, -⟩ := locate_eq_ok h.straight hl
  rw [h.place] at hs
  exact ⟨wf, wf dir name hs⟩

/-- The places of the backups of a file. -/
def IsBackup (dir : Location) (name : String) (place : Location) : Prop :=
  ∃ k, place = dir ++ [backupName name k]

/-- The places of the backups of a file at which nothing is. -/
def IsFreeBackup (disk : Disk) (dir : Location) (name : String) (place : Location) : Prop :=
  IsBackup dir name place ∧ disk.get? place = none

theorem backUp_touches (hr : disk.Room dir) (h : disk.Beside dir name p) :
    Touches (IsFreeBackup disk dir name) dir disk (disk.backUp p).2 := by
  rcases backUp_cases hr h with ⟨fault, hb⟩ | ⟨k, bytes, -, hn, hb⟩ <;> rw [hb]
  · exact Touches.refl hr.wellFormed
  · refine (touches_set hr (by rw [hn]; exact nofun)).mono ?_
    rintro place rfl
    exact ⟨⟨k, rfl⟩, hn⟩

/-! ## One job -/

/-- What a result says of the disk. -/
def Result.outcome (r : Result) : Status × Option Path := (r.status, r.backup)

/-- The outcome of an attempt, which has failed if it has no result of its own. -/
def attempted : Except SaveFault Result → Status × Option Path
  | .ok r => r.outcome
  | .error _ => (.failed, none)

theorem settle_of_error {e : Artifact.RenderError} (h : job.content = .error e) :
    (job.settle options disk).1.outcome = (.failed, none) ∧ (job.settle options disk).2 = disk := by
  unfold Job.settle Job.write
  simp only [h]
  by_cases ha : e.cause.isOfArtifact = true
  · simp only [if_pos ha]
    exact ⟨rfl, trivial⟩
  · simp only [if_neg ha]
    exact ⟨rfl, trivial⟩

theorem settle_of_ok (h : job.content = .ok content) :
    (job.settle options disk).1.outcome = attempted (job.put options content disk).1 ∧
      (job.settle options disk).2 = (job.put options content disk).2 := by
  unfold Job.settle Job.write
  simp only [h]
  rcases job.put options content disk with ⟨fault | result, after⟩
  · by_cases ha : fault.isOfFile = true
    · simp only [if_pos ha]
      exact ⟨rfl, trivial⟩
    · simp only [if_neg ha]
      exact ⟨rfl, trivial⟩
  · exact ⟨rfl, rfl⟩

theorem put_identity {r : Result} (h : (job.put options content disk).1 = .ok r) :
    r.path = job.path ∧ r.className = job.className := by
  unfold Job.put Job.replace at h
  split at h
  · cases h
  · split at h <;> cases h
    exact ⟨rfl, rfl⟩
  · split at h
    · split at h
      · cases h
      · split at h <;> cases h
        exact ⟨rfl, rfl⟩
    · cases h
      exact ⟨rfl, rfl⟩

/-- The places of a job: its target and the backups of it. -/
def Owns (dir : Location) (name : String) (place : Location) : Prop :=
  place = dir ++ [name] ∨ IsBackup dir name place

/-- The places of a job that it may change: its target and the free ones of its backups. -/
def Changes (disk : Disk) (dir : Location) (name : String) (place : Location) : Prop :=
  place = dir ++ [name] ∨ IsFreeBackup disk dir name place

omit [Surrogates] in
theorem Changes.owns (h : Changes disk dir name place) : Owns dir name place :=
  h.imp_right And.left

theorem backUpIf_touches (hr : disk.Room dir) (h : disk.Beside dir name p)
    (wanted : Bool) :
    Touches (IsFreeBackup disk dir name) dir disk (backUpIf wanted disk p).2 := by
  unfold backUpIf
  have hb := backUp_touches hr h
  split
  · rcases he : disk.backUp p with ⟨fault | backup, backed⟩ <;>
    · rw [he] at hb
      exact hb
  · exact Touches.refl hr.wellFormed

/-- The outcome of saving a text, given the one in case of success. -/
def savedAs (success : Status × Option Path) : Except SaveFault Unit → Status × Option Path
  | .ok () => success
  | .error _ => (.failed, none)

theorem put_of_free (h : disk.holds job.path = .ok false) :
    attempted (job.put options content disk).1 =
        savedAs (.created, none) (disk.save (saveMode options) job.path content).1 ∧
      (job.put options content disk).2 = (disk.save (saveMode options) job.path content).2 := by
  unfold Job.put
  rw [h]
  rcases disk.save (saveMode options) job.path content with ⟨fault | u, after⟩ <;> exact ⟨rfl, rfl⟩

theorem put_of_taken (h : disk.holds job.path = .ok true) :
    job.put options content disk =
      if options.overwrite then job.replace options content disk
      else (.ok (job.result .skipped (some Job.skippedMessage) none), disk) := by
  unfold Job.put
  rw [h]

theorem put_of_fault {fault : Fault} (h : disk.holds job.path = .error fault) :
    job.put options content disk = (.error (.disk fault), disk) := by
  unfold Job.put
  rw [h]

theorem replace_of_error {fault : SaveFault}
    (h : backUpIf options.backup disk job.path = (.error fault, after)) :
    job.replace options content disk = (.error fault, after) := by
  unfold Job.replace
  rw [h]

theorem replace_of_ok {backup : Option Path}
    (h : backUpIf options.backup disk job.path = (.ok backup, after)) :
    attempted (job.replace options content disk).1 =
        savedAs (.updated, backup) (after.save (saveMode options) job.path content).1 ∧
      (job.replace options content disk).2 =
        (after.save (saveMode options) job.path content).2 := by
  unfold Job.replace
  rw [h]
  dsimp only
  rcases after.save (saveMode options) job.path content with ⟨fault | u, last⟩ <;> exact ⟨rfl, rfl⟩

theorem write_of_put {result : Result} (hc : job.content = .ok content)
    (h : (job.put options content disk).1 = .ok result) :
    (job.write options disk).1 = .ok result := by
  unfold Job.write
  simp only [hc]
  rcases hp : job.put options content disk with ⟨fault | r, after⟩ <;> rw [hp] at h <;> cases h
  rfl

/-- A file that is saved where nothing is has been created. -/
theorem put_of_saved (hh : disk.holds job.path = .ok false)
    (hs : (disk.save (saveMode options) job.path content).1 = .ok ()) :
    (job.put options content disk).1 = .ok (job.result .created none none) := by
  unfold Job.put
  rw [hh]
  rcases hsave : disk.save (saveMode options) job.path content with ⟨fault | u, after⟩
  · rw [hsave] at hs
    cases hs
  · rfl

theorem replace_of_saved {backup : Option Path}
    (hb : backUpIf options.backup disk job.path = (.ok backup, after))
    (hs : (after.save (saveMode options) job.path content).1 = .ok ()) :
    (job.replace options content disk).1 =
      .ok (job.result .updated (backup.map backupMessage) backup) := by
  unfold Job.replace
  rw [hb]
  dsimp only
  rcases hsave : after.save (saveMode options) job.path content with ⟨fault | u, last⟩
  · rw [hsave] at hs
    cases hs
  · rfl

/-- A file that is replaced has been backed up, if that is asked for, and then saved. -/
theorem replace_eq_ok {result : Result}
    (h : job.replace options content disk = (.ok result, after)) :
    ∃ backup later, backUpIf options.backup disk job.path = (.ok backup, later) ∧
      later.save (saveMode options) job.path content = (.ok (), after) ∧
      result.outcome = (.updated, backup) := by
  unfold Job.replace at h
  rcases hb : backUpIf options.backup disk job.path with ⟨fault | backup, later⟩ <;> rw [hb] at h
  · cases h
  dsimp only at h
  rcases hs : later.save (saveMode options) job.path content with ⟨fault | u, last⟩ <;>
    rw [hs] at h <;> cases h
  exact ⟨backup, later, rfl, hs, rfl⟩

/-- A result that is no failure comes from the text of the job. -/
theorem put_of_write {result : Result}
    (h : job.write options disk = (.ok result, after))
    (hs : result.status ≠ .failed) :
    ∃ content, job.content = .ok content ∧ job.put options content disk = (.ok result, after) := by
  unfold Job.write at h
  cases hc : job.content with
  | error e =>
    rw [hc] at h
    dsimp only at h
    split at h <;> cases h
    exact absurd rfl hs
  | ok content =>
    rw [hc] at h
    refine ⟨content, rfl, ?_⟩
    rcases hp : job.put options content disk with ⟨fault | r, last⟩ <;> simp only [hp] at h
    · split at h <;> cases h
      exact absurd rfl hs
    · cases h
      rfl

theorem replace_touches (hr : disk.Room dir) (ht : job.Targets dir name) :
    Touches (Changes disk dir name) dir disk (job.replace options content disk).2 := by
  have hb := (backUpIf_touches hr (ht.beside disk) options.backup).mono fun place =>
    Or.inr (a := place = dir ++ [name])
  rcases he : backUpIf options.backup disk job.path with ⟨fault | backup, backed⟩ <;> rw [he] at hb
  · rw [replace_of_error he]
    exact hb
  · rw [(replace_of_ok he).2]
    exact hb.trans ((save_touches hb.wellFormed (ht.beside backed)).mono fun place => Or.inl)

theorem put_touches (wf : disk.WellFormed) (ht : job.Targets dir name) :
    Touches (Changes disk dir name) dir disk (job.put options content disk).2 := by
  cases hh : disk.holds job.path with
  | error fault =>
    rw [put_of_fault hh]
    exact Touches.refl wf
  | ok taken =>
  cases taken with
  | false =>
    rw [(put_of_free hh).2]
    exact (save_touches wf (ht.beside disk)).mono fun place => Or.inl
  | true =>
    rw [put_of_taken hh]
    split
    · exact replace_touches (room_of_holds wf (ht.beside disk) hh) ht
    · exact Touches.refl wf

/-- A job changes nothing but its target and free backups of it, and makes directories on the
way. -/
theorem settle_changes (wf : disk.WellFormed) (ht : job.Targets dir name) :
    Touches (Changes disk dir name) dir disk (job.settle options disk).2 := by
  cases hc : job.content with
  | error e =>
    rw [(settle_of_error hc).2]
    exact Touches.refl wf
  | ok content =>
    rw [(settle_of_ok hc).2]
    exact put_touches wf ht

theorem settle_touches (wf : disk.WellFormed) (ht : job.Targets dir name) :
    Touches (Owns dir name) dir disk (job.settle options disk).2 :=
  (settle_changes wf ht).mono fun _ => Changes.owns

/-! ## Keeping files -/

theorem file_iff_of_save (wf : disk.WellFormed) (h : disk.Beside dir name p)
    (hp : place ≠ dir ++ [name]) :
    (disk.save mode p content).2.get? place = some (.file bytes) ↔
      disk.get? place = some (.file bytes) :=
  (save_touches wf h).file_iff hp

/-- A file is not lost where nothing was found at the target: it is another one, or the target is
at a path that does not fit. -/
theorem save_keeps (wf : disk.WellFormed) (h : disk.Beside dir name p)
    (hh : disk.holds p = .ok false) (hf : disk.get? place = some (.file bytes)) :
    (disk.save mode p content).2.get? place = some (.file bytes) := by
  by_cases hp : place = dir ++ [name]
  · by_cases hfits : p.Fits
    · rw [holds_of_fits wf h.straight hfits, h.place, ← hp, hf] at hh
      cases hh
    · exact (save_of_not_fits wf h hfits).2.file_iff.mpr hf
  · exact (file_iff_of_save wf h hp).mpr hf

theorem replace_keeps (hr : disk.Room dir) (ht : job.Targets dir name)
    (hb : options.backup = true) (hf : disk.get? place = some (.file bytes)) :
    (job.replace options content disk).2.get? place = some (.file bytes) ∨
    (place = dir ++ [name] ∧ ∃ k, (job.replace options content disk).2.get?
      (dir ++ [backupName name k]) = some (.file bytes)) := by
  have hbeside := ht.beside disk
  rcases backUp_cases hr hbeside with ⟨fault, he⟩ | ⟨k, old, hold, hnone, he⟩
  · have hi : backUpIf options.backup disk job.path = (.error fault, disk) := by
      unfold backUpIf
      rw [if_pos hb, he]
    rw [replace_of_error hi]
    exact .inl hf
  have hi : backUpIf options.backup disk job.path =
      (.ok (some (backupPath job.path k)),
        disk.set (dir ++ [backupName name k]) (.file old)) := by
    unfold backUpIf
    rw [if_pos hb, he]
  rw [(replace_of_ok hi).2]
  have hwf : (disk.set (dir ++ [backupName name k]) (.file old)).WellFormed :=
    (hr.set (by rw [hnone]; exact nofun)).wellFormed
  by_cases hp : place = dir ++ [name]
  · obtain rfl : old = bytes := by simpa [← hp, hf] using hold.symm
    refine .inr ⟨hp, k, (file_iff_of_save hwf (ht.beside _) ?_).mpr ?_⟩
    · simpa using backupName_ne_self name k
    · exact get?_set_self
  · refine .inl ((file_iff_of_save hwf (ht.beside _) hp).mpr ?_)
    rw [get?_set_append, if_neg, hf]
    rintro rfl
    rw [hnone] at hf
    cases hf

/-- After a job that backs up what it overwrites, every file is where it was, or it was the target
and its bytes are in a backup. -/
theorem settle_keeps (wf : disk.WellFormed) (ht : job.Targets dir name)
    (hpolicy : options.overwrite = false ∨ options.backup = true)
    (hf : disk.get? place = some (.file bytes)) :
    (job.settle options disk).2.get? place = some (.file bytes) ∨
    (options.overwrite = true ∧ place = dir ++ [name] ∧
      ∃ k, (job.settle options disk).2.get? (dir ++ [backupName name k]) = some (.file bytes)) := by
  cases hc : job.content with
  | error e =>
    rw [(settle_of_error hc).2]
    exact .inl hf
  | ok content =>
  rw [(settle_of_ok hc).2]
  cases hh : disk.holds job.path with
  | error fault =>
    rw [put_of_fault hh]
    exact .inl hf
  | ok taken =>
  cases taken with
  | false =>
    rw [(put_of_free hh).2]
    exact .inl (save_keeps wf (ht.beside disk) hh hf)
  | true =>
    rw [put_of_taken hh]
    by_cases ho : options.overwrite = true
    · rw [if_pos ho]
      have hb : options.backup = true := hpolicy.resolve_left (by simp [ho])
      exact (replace_keeps (room_of_holds wf (ht.beside disk) hh) ht hb hf).imp_right
        fun h => ⟨ho, h⟩
    · rw [if_neg ho]
      exact .inl hf

/-! ## All jobs -/

theorem writeAll_cons (options : OutputOptions) (job : Job) (jobs : List Job)
    (disk : Disk) :
    writeAll options (job :: jobs) disk =
      ((job.settle options disk).1 :: (writeAll options jobs (job.settle options disk).2).1,
        (writeAll options jobs (job.settle options disk).2).2) := rfl

theorem writeAll_concat (options : OutputOptions) (jobs : List Job) (job : Job)
    (disk : Disk) :
    writeAll options (jobs ++ [job]) disk =
      ((writeAll options jobs disk).1 ++
          [(job.settle options (writeAll options jobs disk).2).1],
        (job.settle options (writeAll options jobs disk).2).2) := by
  induction jobs generalizing disk with
  | nil => rfl
  | cons first r ih => rw [List.cons_append, writeAll_cons, ih, writeAll_cons, List.cons_append]

/-- What every job keeps true, all of them do. -/
theorem writeAll_induction {P : Disk → Prop}
    (hstep : ∀ job ∈ jobs, ∀ disk, P disk → P (job.settle options disk).2) (h : P disk) :
    P (writeAll options jobs disk).2 := by
  induction jobs generalizing disk with
  | nil => exact h
  | cons job r ih =>
    rw [writeAll_cons]
    exact ih (fun j hj => hstep j (List.mem_cons_of_mem _ hj))
      (hstep job List.mem_cons_self disk h)

end DomainCodegen.Output
