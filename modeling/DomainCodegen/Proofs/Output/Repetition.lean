import DomainCodegen.Proofs.Output.Presence
import DomainCodegen.Proofs.Output.Undisturbed

/-!
# Tasks that have nothing to add

Jobs without backups whose targets are there, if they can be written at all, create nothing in a
pool, whatever turns their tasks take; and unless files may be overwritten, they leave every file as
it is (`writeAllBy_repeated`). A task that finds its target missing is one that will fail.
-/

namespace DomainCodegen.Output

variable [Surrogates]

open Disk

variable {disk start after : Disk} {options : OutputOptions} {job : Job} {jobs : List Job}
  {stage stage' : Stage} {task : Task} {tasks before rest : List Task} {place : Location}
  {content : String} {r : Result} {bytes : List UInt8} {workers : Option Nat} {turns : List Nat}

/-! ## One task -/

/-- The file of a job is there if it can be written now. -/
def Job.Kept (options : OutputOptions) (job : Job) (disk : Disk) : Prop :=
  ∀ bytes, job.Writes options disk bytes → (disk.get? job.target).isSome

theorem Job.Present.kept (h : job.Present options disk) : job.Kept options disk :=
  fun _ hw => h (canWrite_of_writes hw)

/-- The result that a task will have if nothing fails: a target that was missing is created, or one
that may be overwritten is updated. -/
def Job.Pending (options : OutputOptions) (job : Job) (start : Disk) (r : Result) : Prop :=
  (r.status = .created ∧ start.holds job.path = .ok false) ∨
    (r.status = .updated ∧ options.overwrite = true)

/-- There was a name for a temporary file of a job. -/
def Job.HadTemporary (job : Job) (start : Disk) : Prop :=
  ∃ k < temporaryLimit, (temporaryPath start.homePath job.path k).Fits ∧
    start.get? (job.temporaryAt k) = none

/-- What is known at a stage of a task that began where its target was kept. -/
def Stage.Idle (options : OutputOptions) (job : Job) (start : Disk) : Stage → Prop
  | search => False
  | copy _ => False
  | directories r => job.Pending options start r
  | openFile r => job.Pending options start r
  | fillTemporary _ r => job.Pending options start r ∧ job.HadTemporary start
  | moveTemporary _ r => job.Pending options start r ∧ job.HadTemporary start ∧
      ∃ bytes, job.bytes? options = some bytes
  | fillTarget r => r.status = .updated ∧ options.overwrite = true
  | done r => r.status ≠ .created ∧ (options.overwrite = false → r.status ≠ .updated)
  | probe => True
  | clearTemporary _ _ => True

/-- Where a target is written now it was there, so that it is not created. -/
theorem Job.Kept.updated (hk : job.Kept options start) (hr : job.Pending options start r)
    (wf : start.WellFormed) (hv : job.Visible) (hw : job.Writes options start bytes) :
    r.status = .updated ∧ options.overwrite = true := by
  refine hr.resolve_left fun hcreated => ?_
  have hfree := hcreated.2
  rw [holds_of_ready wf hv.targets hw.1, hk bytes hw] at hfree
  cases hfree

theorem idle_failed (fault : SaveFault) :
    (Stage.done (job.failed fault)).Idle options job start :=
  ⟨nofun, fun _ => nofun⟩

theorem idle_done (h : r.status = .updated ∧ options.overwrite = true) :
    (Stage.done r).Idle options job start := by
  refine ⟨?_, fun ho => ?_⟩
  · rw [h.1]
    exact nofun
  · rw [h.2] at ho
    cases ho

/-- The target can be written where it is written later. -/
theorem ready_start (hlasts : Lasts start disk) (wf : disk.WellFormed) (hv : job.Visible)
    (hd : disk.get? job.directory = some .directory) {found : Location}
    (hl : disk.locate job.path = .ok found) (hn : disk.get? found ≠ some .directory)
    (ht : options.atomic = true → job.HadTemporary start) : job.Ready options start := by
  have hb := hv.targets.beside disk
  obtain ⟨rfl, hfits, -⟩ := locate_eq_ok hb.straight hl
  rw [hb.place] at hn
  exact ⟨hlasts.of_open (open_of_directory wf hd), hfits,
    fun hs => hn (hlasts.directory _ hs), ht⟩

/-- A file that is opened in place is left with some bytes. -/
theorem exists_bytes?_of_opened (hc : job.content = .ok content) (ha : options.atomic = false)
    (hm : (saveMode options).isRefusedAtOnce = false) :
    ∃ bytes, job.bytes? options = some bytes := by
  unfold Job.bytes? SaveMode.written
  rw [hc]
  dsimp only
  cases (saveMode options).encode content with
  | error fault =>
    refine ⟨[], if_neg ?_⟩
    rw [hm]
    simp [saveMode, ha]
  | ok bytes => exact ⟨bytes, rfl⟩

theorem idle_step (h : stage.Idle options job start) (hk : job.Kept options start)
    (hb : options.backup = false) (wf : start.WellFormed) (hlasts : Lasts start disk)
    (wf' : disk.WellFormed) (hs : stage.Sound job disk) (hv : job.Visible)
    (hc : job.content = .ok content)
    (hstep : Step options job content disk stage stage' after) :
    stage'.Idle options job start := by
  have hbeside := hv.targets.beside disk
  cases hstep with
  | free hh => exact .inl ⟨rfl, hlasts.holds_false hh⟩
  | kept hh ho => exact ⟨nofun, fun _ => nofun⟩
  | taken hh ho hbackup => exact .inr ⟨rfl, ho⟩
  | wanted hh ho hbackup =>
    rw [hb] at hbackup
    cases hbackup
  | found | copied => exact h.elim
  | made => exact h
  | openedTemporary ha hf hcreate =>
    obtain ⟨fault, hk⟩ | ⟨k, hk, -, htemporary⟩ := freeTemporary_cases hbeside
    · rw [hf] at hk
      cases hk
    rw [hf] at htemporary
    cases htemporary
    obtain ⟨found, hl, hn, -⟩ := createFile_eq_ok hcreate
    obtain ⟨rfl, hfits, -⟩ := locate_eq_ok (hbeside.temporary k).straight hl
    rw [(hbeside.temporary k).place] at hn
    rw [hlasts.homePath_eq] at hfits
    exact ⟨h, k, hk, hfits, hlasts.eq_none hn⟩
  | openedTarget ha hm hw =>
    obtain ⟨found, hl, hn, -⟩ := writeFile_eq_ok hw
    have hready : job.Ready options start :=
      ready_start hlasts wf' hv (hs.directory rfl) hl hn fun hat => by rw [ha] at hat; cases hat
    obtain ⟨bytes, hbytes⟩ := exists_bytes?_of_opened hc ha hm
    exact hk.updated h wf hv ⟨hready, hbytes⟩
  | notEncoded | notFilled | notMoved => trivial
  | filled bytes he hw =>
    refine ⟨h.1, h.2, bytes, ?_⟩
    unfold Job.bytes?
    rw [hc]
    exact written_of_encode he
  | moved hm =>
    obtain ⟨hr, htemporary, bytes, hbytes⟩ := h
    obtain ⟨-, found, -, -, -, hl, hn, -⟩ := moveFile_eq_ok hm
    have hready : job.Ready options start :=
      ready_start hlasts wf' hv (hs.directory rfl) hl hn fun _ => htemporary
    exact idle_done (hk.updated hr wf hv ⟨hready, hbytes⟩)
  | filledTarget bytes hw => exact idle_done h
  | ended => exact h
  | _ => exact idle_failed _

/-- A task that may not overwrite, and has nothing to add, writes to no target. -/
theorem not_alters_of_idle (h : stage.Idle options job start) (h' : stage'.Idle options job start)
    (ho : options.overwrite = false)
    (hstep : Step options job content disk stage stage' after) :
    ¬ stage.Alters stage' job place := by
  have hnot : ∀ {r : Result}, ¬ (r.status = .updated ∧ options.overwrite = true) := by
    rintro r ⟨-, hover⟩
    rw [ho] at hover
    cases hover
  rintro (⟨hputs, -⟩ | ⟨⟨index, rfl⟩, -⟩)
  · cases hstep with
    | openedTarget => exact hnot h'
    | moved => exact h.1.elim (fun hr => h'.1 hr.1) hnot
    | filledTarget => exact hnot h
    | @failed stage fault ht =>
      cases stage with
      | fillTarget r => exact hnot h
      | moveTemporary => cases ht
      | _ => cases hputs
    | _ => cases hputs
  · exact h

/-! ## All tasks -/

/-- Tasks under way since a disk, none of which has anything to add to it. -/
structure Pool.Idle (options : OutputOptions) (start : Disk) (tasks : List Task) (disk : Disk) :
    Prop extends Pool.Since start tasks disk where
  idle : ∀ u ∈ tasks, u.Writing → u.stage.Idle options u.job start
  same : options.overwrite = false → ∀ place, (∀ u ∈ tasks, ¬ u.stage.Hides place) → ∀ bytes,
    disk.get? place = some (.file bytes) ↔ start.get? place = some (.file bytes)

theorem idle_next (hb : options.backup = false) (wf : start.WellFormed)
    (hk : ∀ job ∈ jobs, job.Kept options start)
    (hjobs : (before ++ task :: rest).map Task.job = jobs)
    (h : Pool.Idle options start (before ++ task :: rest) disk) :
    Pool.Idle options start (before ++ (task.next options disk).1 :: rest)
      (task.next options disk).2 := by
  have hm : task ∈ before ++ task :: rest := by simp
  rcases h.task task hm with ⟨-, result, hd, -⟩ | ⟨hw, hsound⟩
  · rw [next_of_done hd]
    exact h
  have hstep := Task.step_advance options task disk
  obtain ⟨hleaves, -⟩ : task.stage.Leaves _ task.job disk (task.next options disk).2 ∧ _ :=
    sound_step hsound h.wellFormed hw.visible hstep
  have hidle := h.idle task hm hw
  have hidle' : (task.next options disk).1.stage.Idle options task.job start :=
    idle_step hidle (hk _ (hjobs ▸ List.mem_map_of_mem hm)) hb wf h.lasts h.wellFormed hsound
      hw.visible hw.content hstep
  refine ⟨since_next h.toSince, forall_mem_beside (fun u hu => h.idle u (mem_beside hu))
    fun _ => hidle', fun ho place hp bytes => ?_⟩
  have hnew : ¬ (task.next options disk).1.stage.Hides place := hp _ (by simp)
  by_cases hold : task.stage.Hides place
  · -- the temporary file that was there has gone
    have hgone : (task.next options disk).2.get? place = none :=
      (gone_step hsound h.wellFormed hw.visible hstep hold).resolve_left hnew
    have hnone := h.free task hm place hold
    refine iff_of_false (fun hf => ?_) fun hf => ?_
    · rw [hgone] at hf
      cases hf
    · rw [hnone] at hf
      cases hf
  · have hsame := h.same ho place (forall_mem_beside (fun u hu => hp u (mem_beside hu)) hold) bytes
    refine (hleaves.alters.file_iff ?_).trans hsame
    rintro (halters | hhides | ⟨hhides, -⟩)
    · exact not_alters_of_idle hidle hidle' ho hstep halters
    · exact hold hhides
    · exact hnew hhides

/-- Jobs without backups that have nothing to add create nothing, and change nothing at all unless
files may be overwritten, whatever turns their tasks take. -/
theorem writeAllBy_repeated (wf : disk.WellFormed) (hj : ∀ job ∈ jobs, job.Proper)
    (hb : options.backup = false) (hk : ∀ job ∈ jobs, job.Kept options disk) :
    (∀ r ∈ (writeAllBy workers turns options jobs disk).1, r.status ≠ .created ∧
      (options.overwrite = false → r.status ≠ .updated)) ∧
    (options.overwrite = false → ∀ place bytes,
      (writeAllBy workers turns options jobs disk).2.get? place = some (.file bytes) ↔
        disk.get? place = some (.file bytes)) := by
  obtain ⟨tasks, hdone, hresults, -, hidle⟩ := writeAllBy_induction workers turns options
    (fun tasks after => tasks.map Task.job = jobs ∧ Pool.Idle options disk tasks after)
    (fun before task rest after ⟨hjobs, h⟩ =>
      ⟨by rw [← hjobs, List.map_append, List.map_append]; rfl, idle_next hb wf hk hjobs h⟩)
    ⟨Task.map_job_task jobs, since_start wf hj, List.forall_mem_map.mpr fun job _ hw => by
      have hc := hw.content
      rw [Task.job_task] at hc
      rw [Task.task_of_ok hc]
      trivial, fun _ _ _ _ => Iff.rfl⟩
  refine ⟨fun r hr => ?_, fun ho place bytes => hidle.same ho place (fun u hu => ?_) bytes⟩
  · rw [hresults] at hr
    obtain ⟨task, ht, hr⟩ := List.mem_filterMap.mp hr
    have hd := done_of_result? hr
    rcases hidle.task task ht with ⟨-, result, hd', hfailed⟩ | ⟨hw, -⟩
    · rw [hd] at hd'
      obtain rfl := Stage.done.inj hd'
      rw [hfailed]
      exact ⟨nofun, fun _ => nofun⟩
    · have hend := hidle.idle task ht hw
      rwa [hd] at hend
  · obtain ⟨result, hd⟩ := hdone u hu
    rintro ⟨temporary, ht, -⟩
    rw [hd] at ht
    cases ht

end DomainCodegen.Output
