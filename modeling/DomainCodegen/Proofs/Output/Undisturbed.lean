import DomainCodegen.Proofs.Output.Preservation

/-!
# Tasks that do not meet

The operations of a task come to the same on disks that its job cannot tell apart, so that it ends
in the same way on them (`finish_alike`). Tasks whose jobs do not meet therefore end as each job
does alone, whatever turns they take (`writeAllBy_isolated`).
-/

namespace DomainCodegen

variable [Surrogates]

open Disk

namespace Disk

variable {disk other : Disk} {p temporary : Path} {dir : Location} {name kin : String}
  {bytes : List UInt8}

/-! ## Operations on disks alike -/

/-- An operation met the same fault on two disks, or it left them alike. -/
inductive AlikeResults (dir : Location) (name : String) :
    Except Fault Disk → Except Fault Disk → Prop
  | error (fault : Fault) : AlikeResults dir name (.error fault) (.error fault)
  | ok {after after' : Disk} (h : Alike dir name after after') :
      AlikeResults dir name (.ok after) (.ok after')

theorem Alike.fileAt (h : Alike dir name disk other) (hr : disk.Room dir) (hr' : other.Room dir)
    (hb : disk.Beside dir name p) : other.fileAt p = disk.fileAt p := by
  rw [hb.fileAt hr, (hb.of_room hr' h.home).fileAt hr', h.entry name (kin_self name)]

theorem Alike.writeFile (h : Alike dir name disk other) (hr : disk.Room dir)
    (hr' : other.Room dir) (hk : Kin name kin) (hb : disk.Beside dir kin p) (bytes : List UInt8) :
    AlikeResults dir name (disk.writeFile p bytes) (other.writeFile p bytes) := by
  rw [hb.writeFile hr, (hb.of_room hr' h.home).writeFile hr', h.entry kin hk]
  cases accept p with
  | error fault => exact .error fault
  | ok u =>
  by_cases hd : disk.get? (dir ++ [kin]) = some .directory
  · simp only [if_pos hd]
    exact .error _
  · simp only [if_neg hd]
    exact .ok (h.set hr hr' hk hd)

theorem Alike.createFile (h : Alike dir name disk other) (hr : disk.Room dir)
    (hr' : other.Room dir) (hk : Kin name kin) (hb : disk.Beside dir kin p)
    (hh : disk.holds p = .ok false) :
    AlikeResults dir name (disk.createFile p) (other.createFile p) := by
  have hh' : other.holds p = .ok false := by rw [h.holds hr hr' hk hb, hh]
  rw [hb.createFile hr hh, (hb.of_room hr' h.home).createFile hr' hh']
  cases ha : accept p with
  | error fault => exact .error fault
  | ok u =>
    refine .ok (h.set hr hr' hk ?_)
    rw [hb.get?_eq_none hr ha hh]
    exact nofun

omit [Surrogates] in
/-- The same file goes from both. -/
theorem Alike.erase (h : Alike dir name disk other) (hr : disk.Room dir) (hr' : other.Room dir)
    (hk : Kin name kin) (hf : disk.get? (dir ++ [kin]) = some (.file bytes)) :
    Alike dir name (disk.erase (dir ++ [kin])) (other.erase (dir ++ [kin])) := by
  have hf' : other.get? (dir ++ [kin]) = some (.file bytes) := by rw [h.entry kin hk, hf]
  have hs := room_erase hr hf
  have hs' := room_erase hr' hf'
  refine ⟨h.home, hs.wellFormed, hs'.wellFormed, ?_, fun kin' hk' => ?_⟩
  · exact iff_of_true (open_of_directory hs'.wellFormed hs'.directory)
      (open_of_directory hs.wellFormed hs.directory)
  · rw [get?_erase append_singleton_ne_nil, get?_erase append_singleton_ne_nil, h.entry kin' hk']

theorem Alike.moveFile (h : Alike dir name disk other) (hr : disk.Room dir)
    (hr' : other.Room dir) (hk : Kin name kin) (hb : disk.Beside dir name p)
    (ht : disk.Beside dir kin temporary) (ha : accept temporary = .ok ())
    (hf : disk.get? (dir ++ [kin]) = some (.file bytes)) :
    AlikeResults dir name (disk.moveFile temporary p) (other.moveFile temporary p) := by
  have hf' : other.get? (dir ++ [kin]) = some (.file bytes) := by rw [h.entry kin hk, hf]
  rw [hb.moveFile hr ht ha hf,
    (hb.of_room hr' h.home).moveFile hr' (ht.of_room hr' h.home) ha hf',
    h.entry name (kin_self name)]
  cases accept p with
  | error fault => exact .error _
  | ok u =>
  by_cases hd : disk.get? (dir ++ [name]) = some .directory
  · simp only [if_pos hd]
    exact .error _
  · simp only [if_neg hd]
    refine .ok ((h.erase hr hr' hk hf).set (room_erase hr hf) (room_erase hr' hf')
      (kin_self name) ?_)
    rw [get?_erase append_singleton_ne_nil]
    split
    · exact nofun
    · exact hd

end Disk

namespace Output

variable {disk other : Disk} {options : OutputOptions} {job : Job} {jobs : List Job} {task : Task}
  {stage : Stage} {place : Location}

/-! ## One operation -/

/-- Two operations of a task came to the same stage, or both ended in failure. -/
def Stage.Agrees (stage stage' : Stage) : Prop :=
  stage' = stage ∨ ∃ r r', stage = .done r ∧ stage' = .done r' ∧
    r.outcome = (.failed, none) ∧ r'.outcome = (.failed, none)

/-- What an operation of the task of a job came to on two disks, as far as the job can tell. -/
def Job.SameStep (job : Job) (r r' : Stage × Disk) : Prop :=
  r.1.Agrees r'.1 ∧ Alike job.directory job.file r.2 r'.2

theorem agrees_failed (task : Task) (fault fault' : SaveFault) :
    (task.fail fault).Agrees (task.fail fault') := .inr ⟨_, _, rfl, rfl, rfl, rfl⟩

section Operations

variable {success : Result} (h : Alike task.job.directory task.job.file disk other)
  (hv : task.job.Visible) (hr : disk.Room task.job.directory)
  (hr' : other.Room task.job.directory)

include h hv

theorem probe_alike (hf : task.job.path.Fits) :
    task.probe options other = task.probe options disk := by
  have hb := hv.targets.beside disk
  have hholds : other.holds task.job.path = disk.holds task.job.path := by
    rw [holds_of_fits h.wellFormed hb.straight hf, hb.place,
      holds_of_fits h.otherWellFormed (hv.targets.beside other).straight hf,
      (hv.targets.beside other).place, h.entry _ (kin_self _)]
  unfold Task.probe
  rw [hholds]

theorem makeDirectories_alike : task.job.SameStep (task.makeDirectories success disk)
    (task.makeDirectories success other) := by
  have hb := hv.targets.beside disk
  have hb' := hv.targets.beside other
  have hm := makeDirectories_made h.wellFormed hb.parent_straight
  have hm' := makeDirectories_made h.otherWellFormed hb'.parent_straight
  rw [hb.parent_place] at hm
  rw [hb'.parent_place] at hm'
  have halike := h.grows hm.grows hm'.grows hm.wellFormed hm'.wellFormed
  have hiff := hm.ok_iff
  rw [← h.open_iff, ← hm'.ok_iff] at hiff
  unfold Task.makeDirectories
  rcases he : disk.makeDirectories task.job.path.parent with ⟨fault | u, made⟩ <;>
    rcases he' : other.makeDirectories task.job.path.parent with ⟨fault' | u', made'⟩ <;>
    rw [he, he'] at hiff halike
  · exact ⟨agrees_failed task _ _, halike⟩
  · exact nomatch hiff.mpr rfl
  · exact nomatch hiff.mp rfl
  · exact ⟨.inl rfl, halike⟩

include hr hr'

theorem search_alike : task.search other = task.search disk := by
  unfold Task.search
  rw [h.firstBackup hr hr' (hv.targets.beside disk)]

theorem copy_alike (index : Nat) :
    task.job.SameStep (task.copy index disk) (task.copy index other) := by
  have hb := hv.targets.beside disk
  unfold Task.copy
  rw [h.fileAt hr hr' hb]
  cases disk.fileAt task.job.path with
  | error fault => exact ⟨.inl rfl, h⟩
  | ok bytes =>
  have hw := h.writeFile hr hr' (kin_backup _ index) (hb.backup index) bytes
  dsimp only
  generalize disk.writeFile (backupPath task.job.path index) bytes = written at hw ⊢
  generalize other.writeFile (backupPath task.job.path index) bytes = written' at hw ⊢
  cases hw with
  | error fault => exact ⟨.inl rfl, h⟩
  | ok hw => exact ⟨.inl rfl, hw⟩

theorem openTemporary_alike : task.job.SameStep (task.openTemporary success disk)
    (task.openTemporary success other) := by
  have hb := hv.targets.beside disk
  unfold Task.openTemporary
  rw [h.freeTemporary hr hr' hb]
  obtain ⟨fault, hk⟩ | ⟨k, -, hfree, hk⟩ := freeTemporary_cases hb <;> rw [hk]
  · exact ⟨.inl rfl, h⟩
  have hc := h.createFile hr hr' (kin_temporary _ k) (hb.temporary k) hfree
  dsimp only
  generalize disk.createFile (temporaryPath disk.homePath task.job.path k) = created at hc ⊢
  generalize other.createFile (temporaryPath disk.homePath task.job.path k) = created' at hc ⊢
  cases hc with
  | error fault => exact ⟨.inl rfl, h⟩
  | ok hc => exact ⟨.inl rfl, hc⟩

theorem openTarget_alike (mode : SaveMode) : task.job.SameStep (task.openTarget mode success disk)
    (task.openTarget mode success other) := by
  unfold Task.openTarget
  by_cases hm : mode.isRefusedAtOnce = true
  · rw [if_pos hm, if_pos hm]
    cases mode.encode task.content <;> exact ⟨.inl rfl, h⟩
  rw [if_neg hm, if_neg hm]
  have hw := h.writeFile hr hr' (kin_self _) (hv.targets.beside disk) []
  generalize disk.writeFile task.job.path [] = written at hw ⊢
  generalize other.writeFile task.job.path [] = written' at hw ⊢
  cases hw with
  | error fault => exact ⟨.inl rfl, h⟩
  | ok hw => exact ⟨.inl rfl, hw⟩

theorem fillTarget_alike (mode : SaveMode) : task.job.SameStep (task.fillTarget mode success disk)
    (task.fillTarget mode success other) := by
  have hb := hv.targets.beside disk
  unfold Task.fillTarget overwriteFile
  rw [h.fileAt hr hr' hb]
  cases mode.encode task.content with
  | error fault => exact ⟨.inl rfl, h⟩
  | ok bytes =>
  cases disk.fileAt task.job.path with
  | error fault => exact ⟨.inl rfl, h⟩
  | ok old =>
  have hw := h.writeFile hr hr' (kin_self _) hb (bytes ++ old.drop bytes.length)
  dsimp only
  generalize disk.writeFile task.job.path (bytes ++ old.drop bytes.length) = written at hw ⊢
  generalize other.writeFile task.job.path (bytes ++ old.drop bytes.length) = written' at hw ⊢
  cases hw with
  | error fault => exact ⟨.inl rfl, h⟩
  | ok hw => exact ⟨.inl rfl, hw⟩

variable {temporary : Path} (ht : task.job.HasTemporary disk temporary)

include ht

theorem fillTemporary_alike (mode : SaveMode) :
    task.job.SameStep (task.fillTemporary mode temporary success disk)
      (task.fillTemporary mode temporary success other) := by
  obtain ⟨k, bytes, -, -, hb, -, -, -⟩ := place_of_hasTemporary hr hv ht
  unfold Task.fillTemporary
  cases mode.encode task.content with
  | error fault => exact ⟨.inl rfl, h⟩
  | ok bytes =>
  have hw := h.writeFile hr hr' (kin_temporary _ k) hb bytes
  dsimp only
  generalize disk.writeFile temporary bytes = written at hw ⊢
  generalize other.writeFile temporary bytes = written' at hw ⊢
  cases hw with
  | error fault => exact ⟨.inl rfl, h⟩
  | ok hw => exact ⟨.inl rfl, hw⟩

theorem moveTemporary_alike : task.job.SameStep (task.moveTemporary temporary success disk)
    (task.moveTemporary temporary success other) := by
  obtain ⟨k, bytes, -, ha, hb, -, -, hf⟩ := place_of_hasTemporary hr hv ht
  have hm := h.moveFile hr hr' (kin_temporary _ k) (hv.targets.beside disk) hb ha hf
  unfold Task.moveTemporary
  generalize disk.moveFile temporary task.job.path = moved at hm ⊢
  generalize other.moveFile temporary task.job.path = moved' at hm ⊢
  cases hm with
  | error fault => exact ⟨.inl rfl, h⟩
  | ok hm => exact ⟨.inl rfl, hm⟩

theorem removeFile_alike : Alike task.job.directory task.job.file (disk.removeFile temporary)
    (other.removeFile temporary) := by
  obtain ⟨k, bytes, -, ha, hb, hl, -, hf⟩ := place_of_hasTemporary hr hv ht
  have hl' := (hb.of_room hr' h.home).locate_of_accept hr' ha
  rw [removeFile_of_locate hl, removeFile_of_locate hl']
  exact h.erase hr hr' (kin_temporary _ k) hf

end Operations

/-- An operation comes to the same on disks that the job cannot tell apart. The path of the target
has to fit only where it is looked at before its directory is there. -/
theorem advance_alike (h : Alike task.job.directory task.job.file disk other)
    (hv : task.job.Visible) (hs : task.stage.Sound task.job disk)
    (hs' : task.stage.Sound task.job other)
    (hf : task.stage = .probe → task.job.path.Fits) :
    task.job.SameStep (task.advance options disk) (task.advance options other) := by
  have hroom : task.stage.isInside = true → disk.Room task.job.directory := fun hi =>
    ⟨h.wellFormed, hs.directory hi⟩
  have hroom' : task.stage.isInside = true → other.Room task.job.directory := fun hi =>
    ⟨h.otherWellFormed, hs'.directory hi⟩
  unfold Task.advance
  generalize task.stage = stage at hs hs' hf hroom hroom' ⊢
  cases stage with
  | probe => exact ⟨.inl (probe_alike h hv (hf rfl)), h⟩
  | search => exact ⟨.inl (search_alike h hv (hroom rfl) (hroom' rfl)), h⟩
  | copy index => exact copy_alike h hv (hroom rfl) (hroom' rfl) index
  | directories success => exact makeDirectories_alike h hv
  | openFile success =>
    dsimp only
    split
    · exact openTemporary_alike h hv (hroom rfl) (hroom' rfl)
    · exact openTarget_alike h hv (hroom rfl) (hroom' rfl) _
  | fillTemporary temporary success =>
    exact fillTemporary_alike h hv (hroom rfl) (hroom' rfl) (hs.temporary _ rfl) _
  | moveTemporary temporary success =>
    exact moveTemporary_alike h hv (hroom rfl) (hroom' rfl) (hs.temporary _ rfl)
  | clearTemporary temporary fault =>
    exact ⟨.inl rfl, removeFile_alike h hv (hroom rfl) (hroom' rfl) (hs.temporary _ rfl)⟩
  | fillTarget success => exact fillTarget_alike h hv (hroom rfl) (hroom' rfl) _
  | done result => exact ⟨.inl rfl, h⟩

/-! ## The end of a task -/

/-- The outcome of a task that has ended. -/
def Task.outcome? (task : Task) : Option (Status × Option Path) := task.result?.map Result.outcome

omit [Surrogates] in
theorem outcome?_of_done {result : Result} (h : task.stage = .done result) :
    task.outcome? = some result.outcome := by
  unfold Task.outcome?
  rw [result?_of_done h]
  rfl

theorem put_outcome (task : Task) (r : Except SaveFault Result × Disk) :
    (task.put r).1.outcome? = some (attempted r.1) ∧ (task.put r).2 = r.2 := by
  obtain ⟨fault | result, after⟩ := r <;> exact ⟨rfl, rfl⟩

/-- A task whose target does not fit fails on all disks. -/
theorem finish_probe_alike (h : Alike task.job.directory task.job.file disk other)
    (ht : task.job.Targets task.job.directory task.job.file) (hf : ¬ task.job.path.Fits)
    (hp : task.stage = .probe) :
    (task.finish options other).1.outcome? = (task.finish options disk).1.outcome? ∧
      Alike task.job.directory task.job.file (task.finish options disk).2
        (task.finish options other).2 := by
  have hfinish : ∀ disk, task.finish options disk =
      task.put (task.job.put options task.content disk) := fun disk => by
    rw [← Task.finish_probe, ← hp]
  obtain ⟨hout, hgrows⟩ : attempted (task.job.put options task.content disk).1 = _ ∧ _ :=
    put_of_not_fits h.wellFormed ht hf
  obtain ⟨hout', hgrows'⟩ : attempted (task.job.put options task.content other).1 = _ ∧ _ :=
    put_of_not_fits h.otherWellFormed ht hf
  rw [hfinish, hfinish, (put_outcome task _).1, (put_outcome task _).1, (put_outcome task _).2,
    (put_outcome task _).2, hout, hout']
  exact ⟨rfl, h.grows hgrows hgrows' (put_touches h.wellFormed ht).wellFormed
    (put_touches h.otherWellFormed ht).wellFormed⟩

/-- A task ends in the same way on disks that its job cannot tell apart. -/
theorem finish_alike (h : Alike task.job.directory task.job.file disk other)
    (hs : task.Sound disk) (hs' : task.Sound other) :
    (task.finish options other).1.outcome? = (task.finish options disk).1.outcome? ∧
      Alike task.job.directory task.job.file (task.finish options disk).2
        (task.finish options other).2 := by
  -- an operation takes the task to the same stage on both disks, until it fails on both
  generalize hrank : task.stage.rank = rank
  induction rank using Nat.strong_induction_on generalizing task disk other with
  | h rank ih =>
  have hdone : ∀ result, task.stage = .done result →
      (task.finish options other).1.outcome? = (task.finish options disk).1.outcome? ∧
      Alike task.job.directory task.job.file (task.finish options disk).2
        (task.finish options other).2 := fun result hd => by
    rw [Task.finish_of_done hd, Task.finish_of_done hd]
    exact ⟨rfl, h⟩
  by_cases hzero : task.stage.rank = 0
  · obtain ⟨result, hd⟩ := Task.done_of_rank hzero
    exact hdone result hd
  rcases hs with ⟨-, result, hd, -⟩ | ⟨hw, hs⟩
  · exact hdone result hd
  rcases hs' with ⟨-, result, hd, -⟩ | ⟨-, hs'⟩
  · exact hdone result hd
  have hv := hw.visible
  by_cases hprobe : task.stage = .probe ∧ ¬ task.job.path.Fits
  · exact finish_probe_alike h hv.targets hprobe.2 hprobe.1
  have hf : task.stage = .probe → task.job.path.Fits := fun hp => by
    by_contra hnot
    exact hprobe ⟨hp, hnot⟩
  obtain ⟨hagrees, halike⟩ : (task.advance options disk).1.Agrees _ ∧ _ :=
    advance_alike h hv hs hs' hf
  obtain ⟨-, hsound⟩ : task.stage.Leaves _ task.job disk _ ∧ _ :=
    sound_step hs h.wellFormed hv (Task.step_advance options task disk)
  obtain ⟨-, hsound'⟩ : task.stage.Leaves _ task.job other _ ∧ _ :=
    sound_step hs' h.otherWellFormed hv (Task.step_advance options task other)
  rw [← Task.finish_next options task disk, ← Task.finish_next options task other]
  rcases hagrees with heq | ⟨r, r', hr, hr', hout, hout'⟩
  · have hnext : (task.next options other).1 = (task.next options disk).1 := by
      unfold Task.next
      rw [heq]
    rw [hnext]
    refine ih _ (hrank ▸ Task.rank_next_lt hzero) halike
      (.inr ⟨⟨hw.content, hv⟩, hsound⟩) (.inr ⟨⟨hw.content, hv⟩, ?_⟩) rfl
    rw [heq] at hsound'
    exact hsound'
  · have hend : (task.next options disk).1.finish options (task.next options disk).2 = _ :=
      Task.finish_of_done hr
    have hend' : (task.next options other).1.finish options (task.next options other).2 = _ :=
      Task.finish_of_done hr'
    have hsame : (task.next options disk).1.outcome? = (task.next options other).1.outcome? := by
      rw [outcome?_of_done hr, outcome?_of_done hr', hout, hout']
    rw [hend, hend']
    exact ⟨hsame.symm, halike⟩

/-! ## Tasks apart -/

omit [Surrogates] in
theorem map_filterMap_outcome {tasks : List Task} {outcome : Task → Status × Option Path}
    (h : ∀ task ∈ tasks, task.outcome? = some (outcome task)) :
    (tasks.filterMap Task.result?).map Result.outcome = tasks.map outcome := by
  induction tasks with
  | nil => rfl
  | cons task r ih =>
    obtain ⟨result, hr, ho⟩ := Option.map_eq_some_iff.mp (h task List.mem_cons_self)
    rw [List.filterMap_cons, hr]
    dsimp only
    rw [List.map_cons, List.map_cons, ho, ih fun t ht => h t (List.mem_cons_of_mem _ ht)]

/-- What an operation leaves is at names that the job looks at. -/
theorem exists_kin_of_leaves {after : Disk} {stage' : Stage} (hv : job.Visible)
    (hs : stage.Sound job disk) (hs' : stage'.Sound job after)
    (ho : Owns job.directory job.file place ∨ stage.Hides place ∨
      (stage'.Hides place ∧ disk.get? place = none)) :
    ∃ kin, Kin job.file kin ∧ place = job.directory ++ [kin] := by
  rcases ho with ho | hh | ⟨hh, -⟩
  · exact exists_kin_of_owns ho
  · obtain ⟨k, -, rfl, -⟩ := file_of_hides hs hv hh
    exact ⟨_, kin_temporary _ k, rfl⟩
  · obtain ⟨k, -, rfl, -⟩ := file_of_hides hs' hv hh
    exact ⟨_, kin_temporary _ k, rfl⟩

/-- Two jobs do not meet: one of them has no text, or they are apart. -/
def Job.KeepsApart (job job' : Job) : Prop :=
  job.HasText → job'.HasText → Apart job.directory job.file job'.directory job'.file

omit [Surrogates] in
theorem KeepsApart.symm {job job' : Job} (h : job.KeepsApart job') : job'.KeepsApart job :=
  fun hc hc' => (h hc' hc).symm

omit [Surrogates] in
theorem Separate.keepsApart (h : Separate jobs) : jobs.Pairwise Job.KeepsApart :=
  h.apart.imp fun ha _ _ => ha

/-- Tasks in the middle of a run of jobs that do not meet: each will end as its job does alone, and
the files of none of them are as they were. -/
structure Pool.Isolated (options : OutputOptions) (jobs : List Job) (disk : Disk)
    (tasks : List Task) (after : Disk) : Prop where
  sound : Pool.Sound tasks after
  jobs_eq : tasks.map Task.job = jobs
  outcome : ∀ task ∈ tasks,
    (task.finish options after).1.outcome? = some (task.job.settle options disk).1.outcome
  alike : ∀ task ∈ tasks, task.job.HasText → Alike task.job.directory task.job.file
    (task.job.settle options disk).2 (task.finish options after).2
  rest : ∀ place, (∀ job ∈ jobs, job.HasText → ∀ kin, Kin job.file kin →
      place ≠ job.directory ++ [kin]) →
    ∀ bytes, after.get? place = some (.file bytes) ↔ disk.get? place = some (.file bytes)

theorem isolated_start (options : OutputOptions) (wf : disk.WellFormed)
    (hj : ∀ job ∈ jobs, job.Proper) :
    Pool.Isolated options jobs disk (jobs.map Job.task) disk where
  sound := pool_sound_start wf hj
  jobs_eq := Task.map_job_task jobs
  outcome := List.forall_mem_map.mpr fun job hm => by
    rw [Task.finish_task, Task.job_task]
    rfl
  alike := List.forall_mem_map.mpr fun job hm => by
    rw [Task.finish_task, Task.job_task]
    exact fun ⟨content, hc⟩ => Alike.refl (settle_wellFormed wf (hj job hm).placed)
  rest _ _ _ := Iff.rfl

/-- An operation of a task cannot be told by the jobs apart from its job. -/
theorem alike_of_leaves {after : Disk} {stage' : Stage} {dir : Location} {name : String}
    (hap : Apart dir name job.directory job.file) (wf : disk.WellFormed) (hv : job.Visible)
    (hs : stage.Sound job disk) (hs' : stage'.Sound job after)
    (hl : stage.Leaves stage' job disk after) : Alike dir name disk after :=
  hap.alike_of_kin wf (fun _ => exists_kin_of_leaves hv hs hs') hl.touches

theorem isolated_next {before rest : List Task} {after : Disk}
    (hap : jobs.Pairwise Job.KeepsApart)
    (h : Pool.Isolated options jobs disk (before ++ task :: rest) after) :
    Pool.Isolated options jobs disk (before ++ (task.next options after).1 :: rest)
      (task.next options after).2 := by
  have hm : task ∈ before ++ task :: rest := by simp
  rcases h.sound.task task hm with ⟨-, result, hd, -⟩ | ⟨hw, hsound⟩
  · rw [next_of_done hd]
    exact h
  have hv := hw.visible
  have hc := hw.hasText
  have hnext : Pool.Sound (before ++ (task.next options after).1 :: rest) _ :=
    pool_sound_next h.sound
  obtain ⟨hleaves, hsound'⟩ : task.stage.Leaves _ task.job after (task.next options after).2 ∧ _ :=
    sound_step hsound h.sound.wellFormed hv (Task.step_advance options task after)
  have hapart : ∀ u ∈ before ++ rest, u.job.KeepsApart task.job := by
    have hpair := hap
    rw [← h.jobs_eq, List.pairwise_map] at hpair
    obtain ⟨-, hrest, hbetween⟩ := List.pairwise_append.mp hpair
    intro u hu
    rcases List.mem_append.mp hu with hu | hu
    · exact hbetween u hu task List.mem_cons_self
    · exact KeepsApart.symm ((List.pairwise_cons.mp hrest).1 u hu)
  -- what another task with a text comes to is the same before and after the operation
  have hother : ∀ u ∈ before ++ rest, u.job.HasText →
      (u.finish options (task.next options after).2).1.outcome? =
        (u.finish options after).1.outcome? ∧
      Alike u.job.directory u.job.file (u.finish options after).2
        (u.finish options (task.next options after).2).2 := fun u hu hcu =>
    finish_alike (alike_of_leaves (hapart u hu hcu hc) h.sound.wellFormed hv hsound hsound' hleaves)
      (h.sound.task u (mem_beside hu)) (hnext.task u (mem_beside hu))
  refine ⟨hnext, ?_, forall_mem_beside (fun u hu => ?_) ?_,
    forall_mem_beside (fun u hu hcu => ?_) ?_,
    fun place hp bytes => ?_⟩
  · rw [← h.jobs_eq, List.map_append, List.map_append]
    rfl
  · rcases h.sound.task u (mem_beside hu) with ⟨-, result, hd, -⟩ | ⟨huw, -⟩
    · have hout := h.outcome u (mem_beside hu)
      rw [Task.finish_of_done hd] at hout ⊢
      exact hout
    · exact (hother u hu huw.hasText).1.trans (h.outcome u (mem_beside hu))
  · rw [Task.finish_next]
    exact h.outcome task hm
  · exact (h.alike u (mem_beside hu) hcu).trans (hother u hu hcu).2
  · rw [Task.finish_next]
    exact h.alike task hm
  · rw [← h.rest place hp]
    refine hleaves.touches.file_iff fun ho => ?_
    obtain ⟨kin, hk, rfl⟩ := exists_kin_of_leaves hv hsound hsound' ho
    refine hp task.job ?_ hc kin hk rfl
    rw [← h.jobs_eq]
    exact List.mem_map_of_mem hm

/-- Jobs that do not meet fare in a pool as each of them does alone, whatever turns their tasks
take: each has the outcome that it has alone, its files are as it leaves them, and all other files
are as they were. -/
theorem writeAllBy_isolated (workers : Option Nat) (turns : List Nat) (options : OutputOptions)
    (wf : disk.WellFormed) (hap : jobs.Pairwise Job.KeepsApart) (hj : ∀ job ∈ jobs, job.Proper) :
    (writeAllBy workers turns options jobs disk).1.map Result.outcome =
        jobs.map (fun job => (job.settle options disk).1.outcome) ∧
      (∀ job ∈ jobs, job.HasText → Alike job.directory job.file (job.settle options disk).2
        (writeAllBy workers turns options jobs disk).2) ∧
      ∀ place, (∀ job ∈ jobs, job.HasText → ¬ Owns job.directory job.file place) → ∀ bytes,
        (writeAllBy workers turns options jobs disk).2.get? place = some (.file bytes) ↔
          disk.get? place = some (.file bytes) := by
  obtain ⟨tasks, hdone, hresults, hisolated⟩ := writeAllBy_induction workers turns options
    (Pool.Isolated options jobs disk) (fun _ _ _ _ h => isolated_next hap h)
    (isolated_start options wf hj)
  have halike : ∀ job ∈ jobs, job.HasText → Alike job.directory job.file
      (job.settle options disk).2 (writeAllBy workers turns options jobs disk).2 := by
    intro job hm hc
    rw [← hisolated.jobs_eq] at hm
    obtain ⟨task, ht, rfl⟩ := List.mem_map.mp hm
    obtain ⟨result, hd⟩ := hdone task ht
    have hend := hisolated.alike task ht hc
    rwa [Task.finish_of_done hd] at hend
  refine ⟨?_, halike, fun place hp bytes => ?_⟩
  · rw [hresults, ← hisolated.jobs_eq, List.map_map]
    refine map_filterMap_outcome fun task ht => ?_
    obtain ⟨result, hd⟩ := hdone task ht
    have hend := hisolated.outcome task ht
    rwa [Task.finish_of_done hd] at hend
  · by_cases hkin : ∃ job ∈ jobs, job.HasText ∧ ∃ kin, Kin job.file kin ∧
        place = job.directory ++ [kin]
    · -- a place of a temporary file is as the job of that file leaves it
      obtain ⟨job, hm, hc, kin, hk, rfl⟩ := hkin
      rw [(halike job hm hc).entry kin hk]
      exact (settle_touches wf ((hj job hm).visible hc).targets).file_iff (hp job hm hc)
    · exact hisolated.rest place (fun job hm hc kin hk he => hkin ⟨job, hm, hc, kin, hk, he⟩) bytes

/-- The outcomes and the files of jobs that do not meet do not depend on the turns. -/
theorem writeAllBy_separate {workers : Option Nat} {turns : List Nat} (wf : disk.WellFormed)
    (hap : jobs.Pairwise Job.KeepsApart) (hj : ∀ job ∈ jobs, job.Proper) :
    (writeAllBy workers turns options jobs disk).1.map Result.outcome =
        (writeAll options jobs disk).1.map Result.outcome ∧
      ∀ place bytes, (writeAllBy workers turns options jobs disk).2.get? place =
          some (.file bytes) ↔ (writeAll options jobs disk).2.get? place = some (.file bytes) := by
  obtain ⟨hout, halike, hrest⟩ : (writeAllBy workers turns options jobs disk).1.map _ = _ ∧ _ :=
    writeAllBy_isolated workers turns options wf hap hj
  obtain ⟨hout', halike', hrest'⟩ : (writeAllBy workers [] options jobs disk).1.map _ = _ ∧ _ :=
    writeAllBy_isolated workers [] options wf hap hj
  rw [writeAllBy_single (.inl rfl)] at hout' halike' hrest'
  refine ⟨hout.trans hout'.symm, fun place bytes => ?_⟩
  by_cases ho : ∃ job ∈ jobs, job.HasText ∧ Owns job.directory job.file place
  · obtain ⟨job, hm, hc, ho⟩ := ho
    obtain ⟨kin, hk, rfl⟩ := exists_kin_of_owns ho
    rw [(halike job hm hc).entry kin hk, (halike' job hm hc).entry kin hk]
  · have hn : ∀ job ∈ jobs, job.HasText → ¬ Owns job.directory job.file place :=
      fun job hm hc hown => ho ⟨job, hm, hc, hown⟩
    rw [hrest place hn, hrest' place hn]

end Output

end DomainCodegen
