import DomainCodegen.Output.Writing

/-!
# Jobs that overlap

A run hands its jobs to a pool of workers. A job is then a task that takes one operation on the
disk at a time, and the tasks that workers have taken on take turns in any order. `Pool.play` plays
given turns, and `writeAllBy` lets the tasks that are left then end one after the other; without
turns it comes to `writeAll`.

A search for a free name counts as one operation, since nothing that was found on the disk in the
meantime goes away. So does making the directories of a file.
-/

namespace DomainCodegen

variable [Surrogates]

namespace Disk

/-- Writes bytes through a file that was opened before. What stands behind them by now is kept. -/
def overwriteFile (disk : Disk) (path : Path) (bytes : List UInt8) : Except Fault Disk :=
  match disk.fileAt path with
  | .error fault => .error fault
  | .ok old => disk.writeFile path (bytes ++ old.drop bytes.length)

end Disk

namespace Output

open Disk (SaveFault SaveMode)

/-- The result of a job that met a fault, of the job itself or not. -/
def Job.failed (job : Job) (fault : SaveFault) : Result :=
  job.failure <|
    if fault.isOfFile then job.faultMessage fault else fault.label ++ ": " ++ fault.message

/-- The result of a job whose text cannot be made. -/
def Job.unrendered (job : Job) (error : Artifact.RenderError) : Result :=
  job.failure <|
    if error.cause.isOfArtifact then error.message
    else (JobFault.render error).label ++ ": " ++ error.message

/-! ## Tasks -/

/-- What a task does next. Once a file is about to be written, the result is known that the task
has if nothing fails, and once a temporary file is to be cleared away, the fault. -/
inductive Stage where
  | probe
  | search
  | copy (index : Nat)
  | directories (success : Result)
  | openFile (success : Result)
  | fillTemporary (temporary : Path) (success : Result)
  | moveTemporary (temporary : Path) (success : Result)
  | clearTemporary (temporary : Path) (fault : SaveFault)
  | fillTarget (success : Result)
  | done (result : Result)
  deriving DecidableEq, Repr

/-- A bound for the number of operations that are left. -/
def Stage.rank : Stage → Nat
  | probe => 8
  | search => 7
  | copy _ => 6
  | directories _ => 5
  | openFile _ => 4
  | fillTemporary _ _ => 3
  | moveTemporary _ _ => 2
  | clearTemporary _ _ => 1
  | fillTarget _ => 1
  | done _ => 0

/-- A job that is under way. -/
structure Task where
  job : Job
  content : String
  stage : Stage

/-- The task of a job; without a text there is nothing to do. -/
def Job.task (job : Job) : Task :=
  match job.content with
  | .error error => { job, content := "", stage := .done (job.unrendered error) }
  | .ok content => { job, content, stage := .probe }

namespace Task

def result? (task : Task) : Option Result :=
  match task.stage with
  | .done result => some result
  | _ => none

def fail (task : Task) (fault : SaveFault) : Stage := .done (task.job.failed fault)

/-- Looks what is at the target. -/
def probe (options : OutputOptions) (task : Task) (disk : Disk) : Stage :=
  match disk.holds task.job.path with
  | .error fault => task.fail (.disk fault)
  | .ok false => .directories (task.job.result .created none none)
  | .ok true =>
    if options.overwrite then
      if options.backup then .search else .directories (task.job.result .updated none none)
    else .done (task.job.result .skipped (some Job.skippedMessage) none)

/-- Looks for a free name for the backup. -/
def search (task : Task) (disk : Disk) : Stage :=
  if task.job.path.name = "" then task.fail (.nameless task.job.path)
  else
    match disk.firstFree (Disk.backupPath task.job.path) with
    | .error fault => task.fail (.disk fault)
    | .ok index => .copy index

/-- Copies the target to a backup. -/
def copy (task : Task) (index : Nat) (disk : Disk) : Stage × Disk :=
  let backup := Disk.backupPath task.job.path index
  match disk.fileAt task.job.path with
  | .error fault => (task.fail (.disk fault), disk)
  | .ok bytes =>
    match disk.writeFile backup bytes with
    | .error fault => (task.fail (.disk fault), disk)
    | .ok copied =>
      (.directories (task.job.result .updated (some (backupMessage backup)) (some backup)), copied)

def makeDirectories (task : Task) (success : Result) (disk : Disk) : Stage × Disk :=
  match disk.makeDirectories task.job.path.parent with
  | (.error fault, made) => (task.fail (.disk fault), made)
  | (.ok (), made) => (.openFile success, made)

/-- Makes a temporary file. -/
def openTemporary (task : Task) (success : Result) (disk : Disk) : Stage × Disk :=
  match disk.freeTemporary task.job.path with
  | .error fault => (task.fail fault, disk)
  | .ok temporary =>
    match disk.createFile temporary with
    | .error fault => (task.fail (.disk fault), disk)
    | .ok created => (.fillTemporary temporary success, created)

/-- Opens the target, which empties it. -/
def openTarget (mode : SaveMode) (task : Task) (success : Result) (disk : Disk) : Stage × Disk :=
  if mode.isRefusedAtOnce then
    match mode.encode task.content with
    | .error fault => (task.fail fault, disk)
    | .ok _ => (.done success, disk)
  else
    match disk.writeFile task.job.path [] with
    | .error fault => (task.fail (.disk fault), disk)
    | .ok opened => (.fillTarget success, opened)

def fillTemporary (mode : SaveMode) (task : Task) (temporary : Path) (success : Result)
    (disk : Disk) : Stage × Disk :=
  match mode.encode task.content with
  | .error fault => (.clearTemporary temporary fault, disk)
  | .ok bytes =>
    match disk.writeFile temporary bytes with
    | .error fault => (.clearTemporary temporary (.disk fault), disk)
    | .ok written => (.moveTemporary temporary success, written)

def moveTemporary (task : Task) (temporary : Path) (success : Result) (disk : Disk) :
    Stage × Disk :=
  match disk.moveFile temporary task.job.path with
  | .error fault => (.clearTemporary temporary (.disk fault), disk)
  | .ok moved => (.done success, moved)

def fillTarget (mode : SaveMode) (task : Task) (success : Result) (disk : Disk) : Stage × Disk :=
  match mode.encode task.content with
  | .error fault => (task.fail fault, disk)
  | .ok bytes =>
    match disk.overwriteFile task.job.path bytes with
    | .error fault => (task.fail (.disk fault), disk)
    | .ok written => (.done success, written)

/-- One operation of a task. -/
def advance (options : OutputOptions) (task : Task) (disk : Disk) : Stage × Disk :=
  let mode := saveMode options
  match task.stage with
  | .probe => (task.probe options disk, disk)
  | .search => (task.search disk, disk)
  | .copy index => task.copy index disk
  | .directories success => task.makeDirectories success disk
  | .openFile success =>
    if mode.atomic then task.openTemporary success disk else task.openTarget mode success disk
  | .fillTemporary temporary success => task.fillTemporary mode temporary success disk
  | .moveTemporary temporary success => task.moveTemporary temporary success disk
  | .clearTemporary temporary fault => (task.fail fault, disk.removeFile temporary)
  | .fillTarget success => task.fillTarget mode success disk
  | .done result => (.done result, disk)

/-- A task that has taken one operation, and the disk after it. -/
def next (options : OutputOptions) (task : Task) (disk : Disk) : Task × Disk :=
  ({ task with stage := (task.advance options disk).1 }, (task.advance options disk).2)

/-- A task that has taken so many operations, and the disk after them. -/
def run (options : OutputOptions) : Nat → Task → Disk → Task × Disk
  | 0, task, disk => (task, disk)
  | steps + 1, task, disk => run options steps (task.next options disk).1 (task.next options disk).2

/-- Lets a task end. -/
def finish (options : OutputOptions) (task : Task) (disk : Disk) : Task × Disk :=
  task.run options task.stage.rank disk

end Task

/-! ## Pools -/

/-- The tasks of a run, in the order of the jobs, and the disk that they work on. -/
structure Pool where
  tasks : List Task
  disk : Disk

namespace Pool

/-- Lets the first of some tasks that is not done, or the one so many behind it, take an
operation. -/
def turn (options : OutputOptions) : Nat → List Task → Disk → List Task × Disk
  | _, [], disk => ([], disk)
  | n, task :: r, disk =>
    match task.result?, n with
    | none, 0 =>
      let (task, after) := task.next options disk
      (task :: r, after)
    | none, n + 1 =>
      let (r, after) := turn options n r disk
      (task :: r, after)
    | some _, n =>
      let (r, after) := turn options n r disk
      (task :: r, after)

/-- Lets tasks end, one after the other. -/
def finish (options : OutputOptions) : List Task → Disk → List Task × Disk
  | [], disk => ([], disk)
  | task :: r, disk =>
    let (task, after) := task.finish options disk
    let (r, last) := finish options r after
    (task :: r, last)

/-- The workers take on tasks in order, so that of the tasks that are not done only so many of the
first can take a turn as there are workers. Without a number of them there are always enough. -/
def canTake (workers : Option Nat) (n : Nat) : Bool := workers.all fun limit => n < limit

/-- The pool after a turn of the task of that number among the tasks that are not done. -/
def step (workers : Option Nat) (options : OutputOptions) (pool : Pool) (n : Nat) : Pool :=
  if canTake workers n then
    { tasks := (turn options n pool.tasks pool.disk).1
      disk := (turn options n pool.tasks pool.disk).2 }
  else pool

/-- Plays turns, one after the other. -/
def play (workers : Option Nat) (options : OutputOptions) (turns : List Nat) (pool : Pool) : Pool :=
  turns.foldl (step workers options) pool

end Pool

/-- Does jobs in a pool of workers, taking these turns for as long as they last. -/
def writeAllBy (workers : Option Nat) (turns : List Nat) (options : OutputOptions)
    (jobs : List Job) (disk : Disk) : List Result × Disk :=
  let pool : Pool := { tasks := jobs.map Job.task, disk }
  let played := pool.play workers options turns
  let (tasks, last) := Pool.finish options played.tasks played.disk
  (tasks.filterMap Task.result?, last)

end Output

end DomainCodegen
