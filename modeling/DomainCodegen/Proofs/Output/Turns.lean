import DomainCodegen.Output.Pool
import DomainCodegen.Proofs.Output.Settling

/-!
# Taking turns

`Step` says what an operation of a task can come to. Each of them lowers the rank of the task, so
that every task ends, and a task that works alone comes to what its job comes to (`finish_task`). A
turn of the first task that is not done brings it nearer to its end and changes nothing about how
the tasks end, so that a single worker does the jobs one after the other, whatever turns it is given
(`writeAllBy_single`).
-/

namespace DomainCodegen

variable [Surrogates]

open Disk

namespace Output

/-! ## Single operations -/

/-- The stages at which something is at the target. -/
def Stage.isTaken : Stage → Bool
  | search | copy _ | fillTarget _ => true
  | _ => false

/-- What an operation of the task of a job with a text makes of its stage and of the disk. -/
inductive Step (options : OutputOptions) (job : Job) (content : String) (disk : Disk) :
    Stage → Stage → Disk → Prop
  | unseen (fault : Fault) (h : disk.holds job.path = .error fault) :
      Step options job content disk .probe (.done (job.failed (.disk fault))) disk
  | free (h : disk.holds job.path = .ok false) :
      Step options job content disk .probe (.directories (job.result .created none none)) disk
  | kept (h : disk.holds job.path = .ok true) (ho : options.overwrite = false) :
      Step options job content disk .probe
        (.done (job.result .skipped (some Job.skippedMessage) none)) disk
  | taken (h : disk.holds job.path = .ok true) (ho : options.overwrite = true)
      (hb : options.backup = false) :
      Step options job content disk .probe (.directories (job.result .updated none none)) disk
  | wanted (h : disk.holds job.path = .ok true) (ho : options.overwrite = true)
      (hb : options.backup = true) : Step options job content disk .probe .search disk
  | failed {stage : Stage} (fault : SaveFault) (h : stage.isTaken = true) :
      Step options job content disk stage (.done (job.failed fault)) disk
  | found (index : Nat) (h : disk.firstFree (backupPath job.path) = .ok index) :
      Step options job content disk .search (.copy index) disk
  | copied {after : Disk} (index : Nat) (bytes : List UInt8) (h : disk.fileAt job.path = .ok bytes)
      (hw : disk.writeFile (backupPath job.path index) bytes = .ok after) :
      Step options job content disk (.copy index)
        (.directories (job.result .updated (some (backupMessage (backupPath job.path index)))
          (some (backupPath job.path index)))) after
  | unmade {success : Result} {after : Disk} (fault : Fault)
      (h : disk.makeDirectories job.path.parent = (.error fault, after)) :
      Step options job content disk (.directories success) (.done (job.failed (.disk fault))) after
  | made {success : Result} {after : Disk}
      (h : disk.makeDirectories job.path.parent = (.ok (), after)) :
      Step options job content disk (.directories success) (.openFile success) after
  | noTemporary {success : Result} (ha : options.atomic = true) (fault : SaveFault)
      (h : disk.freeTemporary job.path = .error fault) :
      Step options job content disk (.openFile success) (.done (job.failed fault)) disk
  | notCreated {success : Result} {temporary : Path} (ha : options.atomic = true) (fault : Fault)
      (h : disk.freeTemporary job.path = .ok temporary)
      (hc : disk.createFile temporary = .error fault) :
      Step options job content disk (.openFile success) (.done (job.failed (.disk fault))) disk
  | openedTemporary {success : Result} {temporary : Path} {after : Disk}
      (ha : options.atomic = true) (h : disk.freeTemporary job.path = .ok temporary)
      (hc : disk.createFile temporary = .ok after) :
      Step options job content disk (.openFile success) (.fillTemporary temporary success) after
  | refused {success : Result} (ha : options.atomic = false) (fault : SaveFault)
      (hm : (saveMode options).isRefusedAtOnce = true) :
      Step options job content disk (.openFile success) (.done (job.failed fault)) disk
  | notOpened {success : Result} (ha : options.atomic = false) (fault : Fault)
      (h : disk.writeFile job.path [] = .error fault) :
      Step options job content disk (.openFile success) (.done (job.failed (.disk fault))) disk
  | openedTarget {success : Result} {after : Disk} (ha : options.atomic = false)
      (hm : (saveMode options).isRefusedAtOnce = false)
      (h : disk.writeFile job.path [] = .ok after) :
      Step options job content disk (.openFile success) (.fillTarget success) after
  | notEncoded {temporary : Path} {success : Result} (fault : SaveFault)
      (he : (saveMode options).encode content = .error fault) :
      Step options job content disk (.fillTemporary temporary success)
        (.clearTemporary temporary fault) disk
  | notFilled {temporary : Path} {success : Result} (bytes : List UInt8) (fault : Fault)
      (h : disk.writeFile temporary bytes = .error fault) :
      Step options job content disk (.fillTemporary temporary success)
        (.clearTemporary temporary (.disk fault)) disk
  | filled {temporary : Path} {success : Result} {after : Disk} (bytes : List UInt8)
      (he : (saveMode options).encode content = .ok bytes)
      (h : disk.writeFile temporary bytes = .ok after) :
      Step options job content disk (.fillTemporary temporary success)
        (.moveTemporary temporary success) after
  | notMoved {temporary : Path} {success : Result} (fault : Fault)
      (h : disk.moveFile temporary job.path = .error fault) :
      Step options job content disk (.moveTemporary temporary success)
        (.clearTemporary temporary (.disk fault)) disk
  | moved {temporary : Path} {success : Result} {after : Disk}
      (h : disk.moveFile temporary job.path = .ok after) :
      Step options job content disk (.moveTemporary temporary success) (.done success) after
  | cleared {temporary : Path} (fault : SaveFault) :
      Step options job content disk (.clearTemporary temporary fault) (.done (job.failed fault))
        (disk.removeFile temporary)
  | filledTarget {success : Result} {after : Disk} (bytes : List UInt8)
      (h : disk.overwriteFile job.path bytes = .ok after) :
      Step options job content disk (.fillTarget success) (.done success) after
  | ended {result : Result} : Step options job content disk (.done result) (.done result) disk

variable {disk after : Disk} {options : OutputOptions} {job : Job} {jobs : List Job} {task : Task}
  {tasks : List Task} {stage stage' : Stage} {success result : Result} {steps steps' n : Nat}
  {temporary : Path} {workers : Option Nat}

theorem exists_writeFile_of_overwriteFile {p : Path} {bytes : List UInt8}
    (h : disk.overwriteFile p bytes = .ok after) :
    ∃ written, disk.writeFile p written = .ok after := by
  unfold overwriteFile at h
  cases hf : disk.fileAt p with
  | error fault => rw [hf] at h; cases h
  | ok old =>
    rw [hf] at h
    exact ⟨_, h⟩

namespace Task

theorem step_probe (options : OutputOptions) (task : Task) (disk : Disk) :
    Step options task.job task.content disk .probe (task.probe options disk) disk := by
  unfold probe
  split
  · next h => exact .unseen _ h
  · next h => exact .free h
  · next h =>
    split
    · next ho =>
      split
      · next hb => exact .wanted h ho hb
      · next hb => exact .taken h ho (by simpa using hb)
    · next ho => exact .kept h (by simpa using ho)

theorem step_search (options : OutputOptions) (task : Task) (disk : Disk) :
    Step options task.job task.content disk .search (task.search disk) disk := by
  unfold search
  split
  · exact .failed _ rfl
  split
  · exact .failed _ rfl
  · next index h => exact .found index h

theorem step_copy (options : OutputOptions) (task : Task) (index : Nat) (disk : Disk) :
    Step options task.job task.content disk (.copy index) (task.copy index disk).1
      (task.copy index disk).2 := by
  dsimp only [copy]
  split
  · exact .failed _ rfl
  next bytes h =>
  split
  · exact .failed _ rfl
  · next hw => exact .copied index bytes h hw

theorem step_openFile (options : OutputOptions) (task : Task) (success : Result) (disk : Disk)
    {stage : Stage} (h : (if (saveMode options).atomic then task.openTemporary success disk
      else task.openTarget (saveMode options) success disk) = (stage, after)) :
    Step options task.job task.content disk (.openFile success) stage after := by
  split at h
  · next ha =>
    unfold openTemporary at h
    split at h
    · next hf =>
      cases h
      exact .noTemporary ha _ hf
    next hf =>
    split at h
    · next hc =>
      cases h
      exact .notCreated ha _ hf hc
    · next hc =>
      cases h
      exact .openedTemporary ha hf hc
  · next ha =>
    have ha : options.atomic = false := by simpa [saveMode] using ha
    unfold openTarget at h
    split at h
    · next hm =>
      obtain ⟨fault, he⟩ : ∃ fault, (saveMode options).encode task.content = .error fault :=
        encode_of_isRefusedAtOnce hm
      rw [he] at h
      cases h
      exact .refused ha _ hm
    next hm =>
    have hm : (saveMode options).isRefusedAtOnce = false := by simpa using hm
    split at h
    · next hw =>
      cases h
      exact .notOpened ha _ hw
    · next hw =>
      cases h
      exact .openedTarget ha hm hw

theorem step_advance (options : OutputOptions) (task : Task) (disk : Disk) :
    Step options task.job task.content disk task.stage (task.advance options disk).1
      (task.advance options disk).2 := by
  unfold advance
  cases task.stage with
  | probe => exact step_probe options task disk
  | search => exact step_search options task disk
  | copy index => exact step_copy options task index disk
  | directories success =>
    dsimp only [makeDirectories]
    split
    · next h => exact .unmade _ h
    · next h => exact .made h
  | openFile success => exact step_openFile options task success disk rfl
  | fillTemporary temporary success =>
    dsimp only [fillTemporary]
    split
    · next he => exact .notEncoded _ he
    next he =>
    split
    · next h => exact .notFilled _ _ h
    · next h => exact .filled _ he h
  | moveTemporary temporary success =>
    dsimp only [moveTemporary]
    split
    · next h => exact .notMoved _ h
    · next h => exact .moved h
  | clearTemporary temporary fault => exact .cleared fault
  | fillTarget success =>
    dsimp only [fillTarget]
    split
    · exact .failed _ rfl
    split
    · exact .failed _ rfl
    · next h => exact .filledTarget _ h
  | done result => exact .ended

/-! ## The end of a task -/

/-- Each operation brings a task nearer to its end. -/
theorem rank_next_lt (h : task.stage.rank ≠ 0) :
    (task.next options disk).1.stage.rank < task.stage.rank := by
  have hstep := step_advance options task disk
  show (task.advance options disk).1.rank < task.stage.rank
  generalize task.stage = stage at hstep h
  generalize (task.advance options disk).1 = stage' at hstep ⊢
  generalize (task.advance options disk).2 = after at hstep
  cases hstep with
  | failed fault hf => exact Nat.pos_of_ne_zero h
  | ended => exact absurd rfl h
  | _ => simp [Stage.rank]

omit [Surrogates] in
theorem done_of_rank (h : task.stage.rank = 0) : ∃ result, task.stage = .done result := by
  cases hs : task.stage with
  | done result => exact ⟨result, rfl⟩
  | _ => rw [hs] at h; cases h

theorem run_of_done (h : task.stage = .done result) :
    task.run options steps disk = (task, disk) := by
  have hnext : task.next options disk = (task, disk) := by
    obtain ⟨job, content, stage⟩ := task
    obtain rfl : stage = .done result := h
    rfl
  induction steps with
  | zero => rfl
  | succ steps ih => rw [run, hnext, ih]

/-- A task that has ended takes no more operations. -/
theorem run_eq_run (h : task.stage.rank ≤ steps) (h' : task.stage.rank ≤ steps') :
    task.run options steps disk = task.run options steps' disk := by
  induction steps generalizing steps' task disk with
  | zero =>
    obtain ⟨result, hd⟩ := done_of_rank (Nat.le_zero.mp h)
    rw [run_of_done hd, run_of_done hd]
  | succ steps ih =>
    by_cases hrank : task.stage.rank = 0
    · obtain ⟨result, hd⟩ := done_of_rank hrank
      rw [run_of_done hd, run_of_done hd]
    obtain ⟨steps', rfl⟩ := Nat.exists_eq_succ_of_ne_zero (n := steps') (by omega)
    have hlt : (task.next options disk).1.stage.rank < task.stage.rank := rank_next_lt hrank
    rw [run, run]
    exact ih (by omega) (by omega)

theorem finish_of_done (h : task.stage = .done result) :
    task.finish options disk = (task, disk) := run_of_done h

/-- An operation more or less does not change how a task ends. -/
theorem finish_next (options : OutputOptions) (task : Task) (disk : Disk) :
    (task.next options disk).1.finish options (task.next options disk).2 =
      task.finish options disk := by
  by_cases hrank : task.stage.rank = 0
  · obtain ⟨result, hd⟩ := done_of_rank hrank
    have hnext : task.run options 1 disk = (task, disk) := run_of_done hd
    obtain ⟨htask, hdisk⟩ := Prod.mk.inj hnext
    rw [htask, hdisk]
  have hlt : (task.next options disk).1.stage.rank < task.stage.rank := rank_next_lt hrank
  obtain ⟨steps, hs⟩ := Nat.exists_eq_succ_of_ne_zero hrank
  unfold finish
  rw [hs, run]
  exact run_eq_run le_rfl (by omega)

/-- Every task ends. -/
theorem finish_done (options : OutputOptions) (task : Task) (disk : Disk) :
    ∃ result, (task.finish options disk).1.stage = .done result := by
  generalize hsteps : task.stage.rank = steps
  induction steps using Nat.strong_induction_on generalizing task disk with
  | h steps ih =>
    by_cases hrank : task.stage.rank = 0
    · obtain ⟨result, hd⟩ := done_of_rank hrank
      exact ⟨result, by rw [finish_of_done hd, hd]⟩
    · rw [← finish_next]
      exact ih _ (hsteps ▸ rank_next_lt hrank) _ _ rfl

/-! ## A task that works alone -/

/-- A task that ends with what saving its text came to. -/
def ended (task : Task) (success : Result) (saved : Except SaveFault Unit × Disk) : Task × Disk :=
  ({ task with stage := match saved.1 with
      | .error fault => task.fail fault
      | .ok () => .done success }, saved.2)

theorem finish_at (options : OutputOptions) (task : Task) (stage : Stage) (disk : Disk) :
    { task with stage }.finish options disk =
      { task with stage := ({ task with stage }.advance options disk).1 }.finish options
        ({ task with stage }.advance options disk).2 :=
  (finish_next options { task with stage } disk).symm

theorem finish_failed (fault : SaveFault) :
    { task with stage := task.fail fault }.finish options disk =
      task.ended success (.error fault, disk) := finish_of_done rfl

theorem finish_moveTemporary : { task with stage := .moveTemporary temporary success }.finish
    options disk = task.ended success (match disk.moveFile temporary task.job.path with
      | .error fault => (.error (.disk fault), disk.removeFile temporary)
      | .ok moved => (.ok (), moved)) := by
  rw [finish_at]
  dsimp only [advance, moveTemporary]
  cases disk.moveFile temporary task.job.path with
  | error fault =>
    dsimp only
    rw [finish_at]
    exact finish_failed _
  | ok moved => exact finish_of_done rfl

theorem fileAt_of_writeFile {p : Path} {bytes : List UInt8}
    (h : disk.writeFile p bytes = .ok after) : after.fileAt p = .ok bytes := by
  obtain ⟨place, hl, hd, rfl⟩ := writeFile_eq_ok h
  unfold fileAt
  rw [(lasts_set_file hd).locate hl]
  dsimp only
  rw [get?_set (ne_nil_of_not_directory hd), if_pos rfl]

theorem finish_openTemporary (options : OutputOptions) (task : Task) (success : Result)
    (disk : Disk) (ha : (saveMode options).atomic = true) :
    { task with stage := .openFile success }.finish options disk =
      task.ended success (disk.saveThrough (saveMode options) task.job.path task.content) := by
  rw [finish_at]
  dsimp only [advance]
  rw [if_pos ha]
  unfold openTemporary saveThrough
  cases disk.freeTemporary task.job.path with
  | error fault => exact finish_failed _
  | ok temporary =>
  dsimp only
  cases disk.createFile temporary with
  | error fault => exact finish_failed _
  | ok created =>
  dsimp only
  rw [finish_at]
  dsimp only [advance, fillTemporary]
  cases (saveMode options).encode task.content with
  | error fault =>
    dsimp only
    rw [finish_at]
    exact finish_failed _
  | ok bytes =>
  dsimp only
  cases created.writeFile temporary bytes with
  | error fault =>
    dsimp only
    rw [finish_at]
    exact finish_failed _
  | ok written =>
    dsimp only
    refine finish_moveTemporary.trans ?_
    cases written.moveFile temporary task.job.path <;> rfl

theorem finish_openTarget (options : OutputOptions) (task : Task) (success : Result) (disk : Disk)
    (ha : ¬ (saveMode options).atomic = true) :
    { task with stage := .openFile success }.finish options disk =
      task.ended success (disk.saveInPlace (saveMode options) task.job.path task.content) := by
  rw [finish_at]
  dsimp only [advance]
  rw [if_neg ha]
  unfold openTarget saveInPlace
  by_cases hm : (saveMode options).isRefusedAtOnce = true
  · rw [if_pos hm, if_pos hm]
    cases (saveMode options).encode task.content with
    | error fault => exact finish_failed _
    | ok bytes => exact finish_of_done rfl
  rw [if_neg hm, if_neg hm]
  cases ho : disk.writeFile task.job.path [] with
  | error fault => exact finish_failed _
  | ok opened =>
  dsimp only
  rw [finish_at]
  dsimp only [advance, fillTarget]
  cases (saveMode options).encode task.content with
  | error fault => exact finish_failed _
  | ok bytes =>
  dsimp only
  unfold overwriteFile
  rw [fileAt_of_writeFile ho]
  dsimp only
  rw [List.drop_nil, List.append_nil]
  cases opened.writeFile task.job.path bytes with
  | error fault => exact finish_failed _
  | ok written => exact finish_of_done rfl

theorem finish_openFile (options : OutputOptions) (task : Task) (success : Result) (disk : Disk) :
    { task with stage := .openFile success }.finish options disk =
      task.ended success (disk.saveHere (saveMode options) task.job.path task.content) := by
  unfold saveHere
  split
  next ha => exact finish_openTemporary options task success disk ha
  next ha => exact finish_openTarget options task success disk ha

theorem finish_directories (options : OutputOptions) (task : Task) (success : Result)
    (disk : Disk) : { task with stage := .directories success }.finish options disk =
      task.ended success (disk.save (saveMode options) task.job.path task.content) := by
  rw [finish_at, save_eq]
  dsimp only [advance, makeDirectories]
  rcases disk.makeDirectories task.job.path.parent with ⟨fault | u, made⟩
  · exact finish_failed _
  · exact finish_openFile options task success made

theorem finish_search (options : OutputOptions) (task : Task) (disk : Disk) :
    ({ task with stage := .search }.finish options disk) =
      match disk.backUp task.job.path with
      | (.error fault, after) => ({ task with stage := task.fail fault }, after)
      | (.ok backup, after) =>
        task.ended (task.job.result .updated (some (backupMessage backup)) (some backup))
          (after.save (saveMode options) task.job.path task.content) := by
  rw [finish_at]
  dsimp only [advance, search]
  unfold backUp
  split
  · exact finish_of_done rfl
  cases disk.firstFree (backupPath task.job.path) with
  | error fault => exact finish_of_done rfl
  | ok index =>
  dsimp only
  rw [finish_at]
  dsimp only [advance, copy]
  cases disk.fileAt task.job.path with
  | error fault => exact finish_of_done rfl
  | ok bytes =>
  dsimp only
  cases disk.writeFile (backupPath task.job.path index) bytes with
  | error fault => exact finish_of_done rfl
  | ok copied => exact finish_directories options task _ copied

theorem task_of_error {e : Artifact.RenderError} (h : job.content = .error e) :
    job.task = { job, content := "", stage := .done (job.unrendered e) } := by
  unfold Job.task
  rw [h]

theorem task_of_ok {content : String} (h : job.content = .ok content) :
    job.task = { job, content, stage := .probe } := by
  unfold Job.task
  rw [h]

theorem job_task (job : Job) : job.task.job = job := by
  unfold Job.task
  cases job.content <;> rfl

theorem map_job_task (jobs : List Job) : (jobs.map Job.task).map Task.job = jobs := by
  rw [List.map_map]
  exact (List.map_congr_left fun job _ => job_task job).trans (List.map_id jobs)

/-- How putting the text of a task comes out. -/
def put (task : Task) : Except SaveFault Result × Disk → Task × Disk
  | (.error fault, after) => ({ task with stage := task.fail fault }, after)
  | (.ok result, after) => ({ task with stage := .done result }, after)

theorem finish_probe (options : OutputOptions) (task : Task) (disk : Disk) :
    { task with stage := .probe }.finish options disk =
      task.put (task.job.put options task.content disk) := by
  rw [finish_at]
  dsimp only [advance, probe]
  unfold Job.put
  cases disk.holds task.job.path with
  | error fault => exact finish_of_done rfl
  | ok there =>
  cases there with
  | false =>
    dsimp only
    rw [finish_directories]
    rcases disk.save (saveMode options) task.job.path task.content with ⟨fault | u, after⟩ <;> rfl
  | true =>
  by_cases ho : options.overwrite = true
  · simp only [if_pos ho]
    unfold Job.replace backUpIf
    by_cases hb : options.backup = true
    · simp only [if_pos hb]
      rw [finish_search]
      rcases disk.backUp task.job.path with ⟨fault | backup, backed⟩
      · rfl
      · dsimp only
        rcases backed.save (saveMode options) task.job.path task.content with ⟨fault | u, after⟩ <;>
          rfl
    · simp only [if_neg hb]
      rw [finish_directories]
      rcases disk.save (saveMode options) task.job.path task.content with ⟨fault | u, after⟩ <;> rfl
  · simp only [if_neg ho]
    exact finish_of_done rfl

/-- A task that works alone ends as its job does. -/
theorem finish_task (options : OutputOptions) (job : Job) (disk : Disk) :
    job.task.finish options disk =
      ({ job.task with stage := .done (job.settle options disk).1 },
        (job.settle options disk).2) := by
  unfold Job.settle Job.write
  cases hc : job.content with
  | error e =>
    rw [task_of_error hc, finish_of_done rfl]
    dsimp only [Job.unrendered]
    split <;> rfl
  | ok content =>
    rw [task_of_ok hc]
    refine (finish_probe options { job, content, stage := .probe } disk).trans ?_
    dsimp only
    rcases job.put options content disk with ⟨fault | result, after⟩
    · dsimp only [put, fail, Job.failed]
      split <;> rfl
    · rfl

end Task

/-! ## A single worker -/

theorem finish_cons (options : OutputOptions) (task : Task) (tasks : List Task) (disk : Disk) :
    Pool.finish options (task :: tasks) disk =
      ((task.finish options disk).1 ::
          (Pool.finish options tasks (task.finish options disk).2).1,
        (Pool.finish options tasks (task.finish options disk).2).2) := rfl

omit [Surrogates] in
theorem result?_of_done (h : task.stage = .done result) : task.result? = some result := by
  unfold Task.result?
  rw [h]

omit [Surrogates] in
theorem done_of_result? (h : task.result? = some result) : task.stage = .done result := by
  unfold Task.result? at h
  split at h
  · next hs =>
    cases h
    exact hs
  · cases h

/-- Tasks that have not begun end one after the other as their jobs are done. -/
theorem finish_tasks (options : OutputOptions) (jobs : List Job) (disk : Disk) :
    ((Pool.finish options (jobs.map Job.task) disk).1.filterMap Task.result?,
      (Pool.finish options (jobs.map Job.task) disk).2) = writeAll options jobs disk := by
  induction jobs generalizing disk with
  | nil => rfl
  | cons job r ih =>
    rw [List.map_cons, finish_cons, Task.finish_task, writeAll_cons, ← ih]
    rfl

/-- The first task that is not done ends as it would have, whether it has taken a turn or not. -/
theorem finish_turn (options : OutputOptions) (tasks : List Task) (disk : Disk) :
    Pool.finish options (Pool.turn options 0 tasks disk).1 (Pool.turn options 0 tasks disk).2 =
      Pool.finish options tasks disk := by
  induction tasks generalizing disk with
  | nil => rfl
  | cons task r ih =>
    unfold Pool.turn
    cases hr : task.result? with
    | none =>
      dsimp only
      rw [finish_cons, finish_cons, Task.finish_next]
    | some result =>
      have hd : task.finish options disk = (task, disk) :=
        Task.finish_of_done (done_of_result? hr)
      dsimp only
      rw [finish_cons, finish_cons, hd, Task.finish_of_done (done_of_result? hr), ih]

/-- Without turns, and with a single worker, the jobs are done one after the other. -/
theorem writeAllBy_single {turns : List Nat} (h : turns = [] ∨ workers = some 1) :
    writeAllBy workers turns options jobs disk = writeAll options jobs disk := by
  suffices hplay : ∀ pool : Pool,
      Pool.finish options (pool.play workers options turns).tasks
        (pool.play workers options turns).disk = Pool.finish options pool.tasks pool.disk by
    unfold writeAllBy
    dsimp only
    rw [hplay]
    exact finish_tasks options jobs disk
  intro pool
  rcases h with rfl | rfl
  · rfl
  induction turns generalizing pool with
  | nil => rfl
  | cons n r ih =>
    refine (ih (pool.step (some 1) options n)).trans ?_
    unfold Pool.step
    split
    · next hn =>
      obtain rfl : n = 0 := by
        simpa [Pool.canTake] using hn
      exact finish_turn options pool.tasks pool.disk
    · rfl

/-! ## What all tasks keep true -/

/-- A turn is an operation of one task, or there is no such task. -/
theorem turn_cases (options : OutputOptions) (n : Nat) (tasks : List Task) (disk : Disk) :
    Pool.turn options n tasks disk = (tasks, disk) ∨
    ∃ before task rest, tasks = before ++ task :: rest ∧ Pool.turn options n tasks disk =
      (before ++ (task.next options disk).1 :: rest, (task.next options disk).2) := by
  induction tasks generalizing n with
  | nil => exact .inl rfl
  | cons task r ih =>
    -- a task that does not take the turn itself stays in front
    have hpass : ∀ m, ((task :: (Pool.turn options m r disk).1, (Pool.turn options m r disk).2) =
          (task :: r, disk)) ∨
        ∃ before moved rest, task :: r = before ++ moved :: rest ∧
          (task :: (Pool.turn options m r disk).1, (Pool.turn options m r disk).2) =
            (before ++ (moved.next options disk).1 :: rest, (moved.next options disk).2) := by
      intro m
      rcases ih m with h | ⟨before, moved, rest, rfl, h⟩
      · exact .inl (by rw [h])
      · exact .inr ⟨task :: before, moved, rest, rfl, by rw [h]; rfl⟩
    unfold Pool.turn
    cases task.result? with
    | some result => exact hpass n
    | none =>
    cases n with
    | zero => exact .inr ⟨[], task, r, rfl, rfl⟩
    | succ n => exact hpass n

omit [Surrogates] in
theorem mem_beside {before rest : List Task} {u : Task} (h : u ∈ before ++ rest) :
    u ∈ before ++ task :: rest := by
  rcases List.mem_append.mp h with h | h <;> simp [h]

omit [Surrogates] in
/-- What holds of one task and of those beside it holds of all. -/
theorem forall_mem_beside {before rest : List Task} {Q : Task → Prop}
    (h : ∀ u ∈ before ++ rest, Q u) (ht : Q task) : ∀ u ∈ before ++ task :: rest, Q u := by
  intro u hu
  rcases List.mem_append.mp hu with hu | hu
  · exact h u (List.mem_append_left _ hu)
  rcases List.mem_cons.mp hu with rfl | hu
  · exact ht
  · exact h u (List.mem_append_right _ hu)

section Induction

variable {P : List Task → Disk → Prop} (hstep : ∀ before task rest disk,
  P (before ++ task :: rest) disk →
    P (before ++ (task.next options disk).1 :: rest) (task.next options disk).2)

include hstep

theorem play_induction (pool : Pool) {turns : List Nat} (h : P pool.tasks pool.disk) :
    P (pool.play workers options turns).tasks (pool.play workers options turns).disk := by
  induction turns generalizing pool with
  | nil => exact h
  | cons n r ih =>
    refine ih (pool.step workers options n) ?_
    unfold Pool.step
    split
    · rcases turn_cases options n pool.tasks pool.disk with hn | ⟨before, task, rest, heq, hn⟩
      · rw [hn]
        exact h
      · rw [hn]
        rw [heq] at h
        exact hstep before task rest pool.disk h
    · exact h

theorem run_induction (steps : Nat) {before rest : List Task}
    (h : P (before ++ task :: rest) disk) :
    P (before ++ (task.run options steps disk).1 :: rest) (task.run options steps disk).2 := by
  induction steps generalizing task disk with
  | zero => exact h
  | succ steps ih => exact ih (hstep before task rest disk h)

theorem finish_induction (before : List Task) (h : P (before ++ tasks) disk) :
    P (before ++ (Pool.finish options tasks disk).1) (Pool.finish options tasks disk).2 := by
  induction tasks generalizing before disk with
  | nil => exact h
  | cons task r ih =>
    have hhead := run_induction hstep task.stage.rank h
    rw [List.append_cons] at hhead
    rw [finish_cons, List.append_cons]
    exact ih _ hhead

end Induction

theorem finish_all_done (options : OutputOptions) (tasks : List Task) (disk : Disk) :
    ∀ task ∈ (Pool.finish options tasks disk).1, ∃ result, task.stage = .done result := by
  induction tasks generalizing disk with
  | nil => exact List.forall_mem_nil _
  | cons task r ih =>
    rw [finish_cons]
    exact List.forall_mem_cons.mpr ⟨Task.finish_done options task disk, ih _⟩

/-- What every operation of a task keeps true holds of the tasks when they have all ended, and the
results of the run are theirs. -/
theorem writeAllBy_induction (workers : Option Nat) (turns : List Nat) (options : OutputOptions)
    (P : List Task → Disk → Prop)
    (hstep : ∀ before task rest disk, P (before ++ task :: rest) disk →
      P (before ++ (task.next options disk).1 :: rest) (task.next options disk).2)
    (h : P (jobs.map Job.task) disk) :
    ∃ tasks, (∀ task ∈ tasks, ∃ result, task.stage = .done result) ∧
      (writeAllBy workers turns options jobs disk).1 = tasks.filterMap Task.result? ∧
      P tasks (writeAllBy workers turns options jobs disk).2 :=
  ⟨_, finish_all_done options _ _, rfl, finish_induction hstep []
    (play_induction hstep ⟨jobs.map Job.task, disk⟩ h)⟩

/-- The result that a stage holds ready or has come to. -/
def Stage.result? : Stage → Option Result
  | directories success => some success
  | openFile success => some success
  | fillTemporary _ success => some success
  | moveTemporary _ success => some success
  | fillTarget success => some success
  | done result => some result
  | _ => none

/-- The results of a task are about the file and the class of its job. -/
def Task.Named (task : Task) : Prop :=
  ∀ r ∈ task.stage.result?, r.path = task.job.path ∧ r.className = task.job.className

theorem named_next (h : task.Named) : (task.next options disk).1.Named := by
  have hstep := Task.step_advance options task disk
  unfold Task.Named at h
  show ∀ r ∈ (task.advance options disk).1.result?, r.path = task.job.path ∧
    r.className = task.job.className
  generalize task.stage = stage at hstep h
  generalize (task.advance options disk).1 = stage' at hstep ⊢
  generalize (task.advance options disk).2 = after at hstep
  cases hstep with
  | made | openedTemporary | openedTarget | filled | moved | filledTarget | ended => exact h
  | _ => simp [Stage.result?, Job.failed, Job.failure, Job.result]

theorem forall_named_next {before rest : List Task}
    (h : ∀ t ∈ before ++ task :: rest, t.Named) :
    ∀ t ∈ before ++ (task.next options disk).1 :: rest, t.Named :=
  forall_mem_beside (fun t ht => h t (mem_beside ht)) (named_next (h task (by simp)))

theorem named_task (job : Job) : job.task.Named := by
  unfold Task.Named Job.task
  cases job.content <;> simp [Stage.result?, Job.unrendered, Job.failure]

omit [Surrogates] in
theorem filterMap_result? (h : ∀ task ∈ tasks, ∃ result, task.stage = .done result)
    (hn : ∀ task ∈ tasks, task.Named) :
    (tasks.filterMap Task.result?).map (fun r => (r.path, r.className)) =
      tasks.map fun task => (task.job.path, task.job.className) := by
  induction tasks with
  | nil => rfl
  | cons task r ih =>
    obtain ⟨result, hd⟩ := h task List.mem_cons_self
    obtain ⟨hp, hc⟩ := hn task List.mem_cons_self result (by rw [hd]; rfl)
    rw [List.filterMap_cons, result?_of_done hd]
    dsimp only
    rw [List.map_cons, List.map_cons, ih (fun t ht => h t (List.mem_cons_of_mem _ ht))
      fun t ht => hn t (List.mem_cons_of_mem _ ht), hp, hc]

/-- There is one result for each job, in order, whatever turns are taken. -/
theorem writeAllBy_identity (workers : Option Nat) (turns : List Nat) (options : OutputOptions)
    (jobs : List Job) (disk : Disk) :
    (writeAllBy workers turns options jobs disk).1.map (fun r => (r.path, r.className)) =
      jobs.map fun job => (job.path, job.className) := by
  obtain ⟨tasks, hdone, hresults, hjobs, hnamed⟩ := writeAllBy_induction workers turns options
    (fun tasks _ => tasks.map Task.job = jobs ∧ ∀ task ∈ tasks, task.Named)
    (fun before task rest disk ⟨hj, hn⟩ =>
      ⟨by rw [← hj, List.map_append, List.map_append]; rfl, forall_named_next hn⟩)
    ⟨Task.map_job_task jobs, List.forall_mem_map.mpr fun job _ => named_task job⟩
  rw [hresults, filterMap_result? hdone hnamed, ← hjobs, List.map_map]
  rfl

end Output

end DomainCodegen
