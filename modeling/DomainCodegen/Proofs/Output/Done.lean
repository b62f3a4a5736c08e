import DomainCodegen.Proofs.Disk.Ready
import DomainCodegen.Proofs.Output.Containment
import DomainCodegen.Proofs.Output.Isolation

/-!
# Jobs that are done

A job that has been done once has nothing left to add, whatever it came to and whatever else has
been done since: what it could not write it still cannot write, and the directories that it can make
are there (`done_of_settle`, `Job.Done.lasts`). Doing it again adds nothing to the disk
(`settle_repeated`).
-/

namespace DomainCodegen.Output

variable [Surrogates]

open Disk

variable {disk after : Disk} {options : OutputOptions} {job : Job} {jobs : List Job}
  {content : String} {bytes : List UInt8}

/-! ## What a job writes -/

/-- The place of the file of a job. -/
def Job.target (job : Job) : Location := job.directory ++ [job.file]

/-- The bytes that a job puts into its file if it can be written. -/
def Job.bytes? (options : OutputOptions) (job : Job) : Option (List UInt8) :=
  match job.content with
  | .error _ => none
  | .ok content => (saveMode options).written content

/-- The file of a job can be written. -/
def Job.Ready (options : OutputOptions) (job : Job) (disk : Disk) : Prop :=
  disk.Ready options.atomic job.directory job.file job.path

/-- A job may put these bytes into its file. -/
def Job.Writes (options : OutputOptions) (job : Job) (disk : Disk) (bytes : List UInt8) : Prop :=
  job.Ready options disk ∧ job.bytes? options = some bytes

theorem Job.writes_iff (hc : job.content = .ok content) : job.Writes options disk bytes ↔
    disk.Writes (saveMode options) job.directory job.file job.path content bytes := by
  unfold Job.Writes Job.bytes?
  rw [hc]
  exact Iff.rfl

theorem not_writes_of_error {e : Artifact.RenderError} (hc : job.content = .error e) :
    ¬ job.Writes options disk bytes := by
  unfold Job.Writes Job.bytes?
  rw [hc]
  exact fun h => nomatch h.2

omit [Surrogates] in
theorem Job.Placed.targets (h : job.Placed) (hc : job.content = .ok content) :
    job.Targets job.directory job.file := by
  rcases h with ⟨e, he⟩ | ⟨dir, name, ht⟩
  · rw [hc] at he
    cases he
  · exact ht.own

/-- A file that can be written is found exactly if it is there. -/
theorem holds_of_ready (wf : disk.WellFormed) (ht : job.Targets job.directory job.file)
    (h : job.Ready options disk) :
    disk.holds job.path = .ok (disk.get? job.target).isSome := by
  have hb := ht.beside disk
  rw [holds_of_fits wf hb.straight h.fits, hb.place]
  rfl

/-- Without backups, a job leaves the disk alone or saves its text. -/
theorem settle_cases (hb : options.backup = false) (hc : job.content = .ok content) :
    ((∃ fault, disk.holds job.path = .error fault) ∧
      (job.settle options disk).1.outcome = (.failed, none) ∧
      (job.settle options disk).2 = disk) ∨
    (disk.holds job.path = .ok true ∧ options.overwrite = false ∧
      (job.settle options disk).1.outcome = (.skipped, none) ∧
      (job.settle options disk).2 = disk) ∨
    ∃ success, (disk.holds job.path = .ok false ∧ success = .created ∨
        disk.holds job.path = .ok true ∧ options.overwrite = true ∧ success = .updated) ∧
      (job.settle options disk).1.outcome =
        savedAs (success, none) (disk.save (saveMode options) job.path content).1 ∧
      (job.settle options disk).2 = (disk.save (saveMode options) job.path content).2 := by
  rw [(settle_of_ok hc).1, (settle_of_ok hc).2]
  cases hh : disk.holds job.path with
  | error fault =>
    rw [put_of_fault hh]
    exact .inl ⟨⟨fault, rfl⟩, rfl, rfl⟩
  | ok taken =>
  cases taken with
  | false =>
    rw [(put_of_free hh).1, (put_of_free hh).2]
    exact .inr (.inr ⟨.created, .inl ⟨rfl, rfl⟩, rfl, rfl⟩)
  | true =>
    rw [put_of_taken hh]
    cases ho : options.overwrite with
    | false => exact .inr (.inl ⟨rfl, rfl, rfl, rfl⟩)
    | true =>
      have hbackup : backUpIf options.backup disk job.path = (.ok none, disk) := by
        unfold backUpIf
        rw [hb]
        rfl
      rw [if_pos rfl, (replace_of_ok hbackup).1, (replace_of_ok hbackup).2]
      exact .inr (.inr ⟨.updated, .inr ⟨rfl, rfl, rfl⟩, rfl, rfl⟩)

/-! ## Jobs that are done -/

/-- A job has nothing left to add: its file is there if it can be written, and so are the
directories that it would make. -/
structure Job.Done (options : OutputOptions) (job : Job) (disk : Disk) : Prop where
  present : ∀ bytes, job.Writes options disk bytes → (disk.get? job.target).isSome
  reached : ∀ content, job.content = .ok content → disk.holds job.path = .ok false →
    ∀ q, disk.Reaches job.path.parent q → disk.get? q = some .directory

/-- A job that is done and can write its file finds it there. -/
theorem Job.Done.exists_file (hd : job.Done options disk) (hw : job.Writes options disk bytes) :
    ∃ old, disk.get? job.target = some (.file old) := by
  have htarget : disk.get? job.target ≠ some .directory := hw.1.target
  have hpresent := hd.present bytes hw
  cases he : disk.get? job.target with
  | none =>
    rw [he] at hpresent
    cases hpresent
  | some entry =>
    cases entry with
    | directory => exact absurd he htarget
    | file old => exact ⟨old, rfl⟩

/-- Whatever else is done, a job that is done stays so. -/
theorem Job.Done.lasts (hd : job.Done options disk) (h : Lasts disk after) :
    job.Done options after where
  present bytes hw := h.isSome (hd.present bytes ⟨h.ready hw.1, hw.2⟩)
  reached content hc hh q hq :=
    h.directory q (hd.reached content hc (h.holds_false hh) q (h.reaches hq))

theorem done_of_settle (wf : disk.WellFormed) (hj : job.Placed) :
    job.Done options (job.settle options disk).2 := by
  cases hc : job.content with
  | error e =>
    refine ⟨fun bytes hw => ?_, fun content hok => ?_⟩
    · exact absurd hw (not_writes_of_error hc)
    · rw [hc] at hok
      cases hok
  | ok content =>
  have ht := hj.targets hc
  have hlasts := (settle_kept options job disk).1
  by_cases hh : disk.holds job.path = .ok false
  · have hsettle : (job.settle options disk).2 =
        (disk.save (saveMode options) job.path content).2 := by
      rw [(settle_of_ok hc).2, (put_of_free hh).2]
    rw [hsettle] at hlasts ⊢
    refine ⟨fun bytes hw => ?_, fun _ _ _ q hq =>
      save_reaches wf (ht.beside disk) ht.isAbsolute (hlasts.reaches hq)⟩
    have hwrites : job.Writes options disk bytes := ⟨hlasts.ready hw.1, hw.2⟩
    rcases save_effect wf (ht.beside disk) ht.isAbsolute (saveMode options) content with
      ⟨other, -, hs⟩ | ⟨hnot, -⟩
    · rw [hs.entry, Job.target, get?_set_self]
      rfl
    · exact absurd ((Job.writes_iff hc).mp hwrites) (hnot bytes)
  · refine ⟨fun bytes hw => hlasts.isSome ?_, fun _ _ hfree => ?_⟩
    · have hhold : disk.holds job.path = .ok (disk.get? job.target).isSome :=
        holds_of_ready wf ht (hlasts.ready hw.1)
      by_contra hnone
      rw [hhold, Bool.eq_false_iff.mpr hnone] at hh
      exact hh rfl
    · exact absurd (hlasts.holds_false hfree) hh

theorem wellFormed_of_writeAll (wf : disk.WellFormed) (hj : ∀ job ∈ jobs, job.Placed) :
    (writeAll options jobs disk).2.WellFormed :=
  writeAll_induction (fun job hm _ wf => settle_wellFormed wf (hj job hm)) wf

/-- After a run all its jobs are done. -/
theorem done_of_writeAll (wf : disk.WellFormed) (hj : ∀ job ∈ jobs, job.Placed) :
    ∀ job ∈ jobs, job.Done options (writeAll options jobs disk).2 := by
  induction jobs generalizing disk with
  | nil => exact nofun
  | cons job r ih =>
    have hjob := hj job List.mem_cons_self
    rw [writeAll_cons]
    intro other ho
    rcases List.mem_cons.mp ho with rfl | ho
    · exact (done_of_settle wf hjob).lasts (writeAll_lasts options r _)
    · exact ih (settle_wellFormed wf hjob) (fun j hm => hj j (List.mem_cons_of_mem _ hm)) other ho

/-- What doing a job again comes to: nothing is added to the disk, and nothing changes at all unless
files may be overwritten. -/
structure Repeated (options : OutputOptions) (disk : Disk) (r : Result × Disk) : Prop where
  lasts : Lasts r.2 disk
  not_created : r.1.status ≠ .created
  not_updated : options.overwrite = false → r.1.status ≠ .updated
  same : options.overwrite = false → Same disk r.2

omit [Surrogates] in
theorem repeated_of_same {r : Result × Disk} {status : Status} (h : Same disk r.2)
    (hr : r.1.outcome = (status, none)) (hc : status ≠ .created) (hu : status ≠ .updated) :
    Repeated options disk r := by
  obtain rfl : r.1.status = status := congrArg Prod.fst hr
  exact ⟨h.symm.lasts, hc, fun _ => hu, fun _ => h⟩

omit [Surrogates] in
/-- A file that may be overwritten is written over. -/
theorem repeated_of_updated {r : Result × Disk} {saved : Except SaveFault Unit}
    (h : Lasts r.2 disk) (hr : r.1.outcome = savedAs (.updated, none) saved)
    (ho : options.overwrite = true) : Repeated options disk r := by
  have hno : options.overwrite ≠ false := by
    rw [ho]
    exact nofun
  have hstatus : r.1.status = (savedAs (.updated, none) saved).1 := congrArg Prod.fst hr
  refine ⟨h, ?_, fun h => absurd h hno, fun h => absurd h hno⟩
  rw [hstatus]
  cases saved <;> exact nofun

/-- A job that is done adds nothing when it is done again. -/
theorem settle_repeated (wf : disk.WellFormed) (hj : job.Placed) (hb : options.backup = false)
    (hd : job.Done options disk) : Repeated options disk (job.settle options disk) := by
  cases hc : job.content with
  | error e =>
    obtain ⟨ho, hs⟩ : (job.settle options disk).1.outcome = _ ∧ _ := settle_of_error hc
    exact repeated_of_same (hs.symm ▸ Same.refl disk) ho nofun nofun
  | ok content =>
  have ht := hj.targets hc
  have hbeside := ht.beside disk
  rcases settle_cases hb hc with ⟨-, ho, hs⟩ | ⟨-, -, ho, hs⟩ | ⟨success, hcase, ho, hs⟩
  · exact repeated_of_same (hs.symm ▸ Same.refl disk) ho nofun nofun
  · exact repeated_of_same (hs.symm ▸ Same.refl disk) ho nofun nofun
  have hmade : Same disk (disk.makeDirectories job.path.parent).2 := by
    refine makeDirectories_same wf hbeside.parent_straight ?_
    rcases hcase with ⟨hh, -⟩ | ⟨hh, -⟩
    · exact hd.reached content hc hh
    · exact fun q => (room_of_holds wf hbeside hh).directory_of_reaches hbeside.parent_place
  rcases save_effect wf hbeside ht.isAbsolute (saveMode options) content with
    ⟨bytes, hw, hsave⟩ | ⟨-, ⟨fault, hfault⟩, hsave⟩
  · -- what is written is there already, so it is written over
    have hwrites : job.Writes options disk bytes := (Job.writes_iff hc).mpr hw
    have hhold : disk.holds job.path = .ok (disk.get? job.target).isSome :=
      holds_of_ready wf ht hwrites.1
    rw [hd.present bytes hwrites] at hhold
    obtain ⟨old, hold⟩ : ∃ old, disk.get? job.target = some (.file old) := hd.exists_file hwrites
    have hlasts : Lasts (job.settle options disk).2 disk := by
      rw [hs]
      have hset : Same _ (disk.set job.target (.file bytes)) :=
        same_set append_singleton_ne_nil hmade.symm
      exact hsave.symm.lasts.trans (hset.lasts.trans (lasts_of_set hold))
    rcases hcase with ⟨hfree, -⟩ | ⟨-, hover, rfl⟩
    · rw [hhold] at hfree
      cases hfree
    · exact repeated_of_updated hlasts ho hover
  · rw [hfault] at ho
    rw [← hs] at hsave
    exact repeated_of_same (hmade.trans hsave) ho nofun nofun

/-- Jobs that are done, done again. -/
theorem writeAll_repeated (wf : disk.WellFormed) (hj : ∀ job ∈ jobs, job.Placed)
    (hb : options.backup = false) (hd : ∀ job ∈ jobs, job.Done options disk) :
    (∀ r ∈ (writeAll options jobs disk).1, r.status ≠ .created ∧
      (options.overwrite = false → r.status ≠ .updated)) ∧
    (options.overwrite = false → Same disk (writeAll options jobs disk).2) := by
  induction jobs generalizing disk with
  | nil => exact ⟨nofun, fun _ => Same.refl disk⟩
  | cons job r ih =>
    have hjob := hj job List.mem_cons_self
    have hr := settle_repeated wf hjob hb (hd job List.mem_cons_self)
    have hlasts := (settle_kept options job disk).1
    obtain ⟨hstatus, hsame⟩ := ih (settle_wellFormed wf hjob)
      (fun j hm => hj j (List.mem_cons_of_mem _ hm))
      fun j hm => (hd j (List.mem_cons_of_mem _ hm)).lasts hlasts
    rw [writeAll_cons]
    refine ⟨fun result hm => ?_, fun ho => (hr.same ho).trans (hsame ho)⟩
    rcases List.mem_cons.mp hm with rfl | hm
    · exact ⟨hr.not_created, hr.not_updated⟩
    · exact hstatus result hm

end DomainCodegen.Output
