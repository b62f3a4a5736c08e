import DomainCodegen.Proofs.Disk.Backup
import DomainCodegen.Proofs.Disk.Ready
import DomainCodegen.Proofs.Layout
import DomainCodegen.Proofs.Output.Turns

/-!
# Files that stay

All that a pool takes away again are its temporary files, each of which is at a place of its own. A
file that was written has the last name of its path, so that it stays if that is not the name of a
temporary file of the pool (`isFile_of_writeAllBy`). The paths may hold `..`, and the tasks may take
any turns.
-/

namespace DomainCodegen

open Disk

namespace Disk

variable {disk after : Disk} {p : Path} {place dir : Location} {name : String} {names : List String}
  {bytes : List UInt8} {home : Path}

/-! ## Places of paths from the root -/

theorem WellFormed.directory_dropLast (wf : disk.WellFormed)
    (hd : disk.get? place = some .directory) : disk.get? place.dropLast = some .directory := by
  rcases List.eq_nil_or_concat place with rfl | ⟨front, name, rfl⟩
  · exact hd
  · rw [List.concat_eq_append] at hd ⊢
    rw [List.dropLast_concat]
    exact wf front name (by rw [hd]; rfl)

/-- Where a path from the root leads to no directory, its last name stands in one. -/
theorem exists_directory_of_locate [Surrogates] (wf : disk.WellFormed) (ha : p.isAbsolute = true)
    (hl : disk.locate p = .ok place) (hn : disk.get? place ≠ some .directory) :
    ∃ dir, disk.get? dir = some .directory ∧ place = dir ++ [p.name] := by
  have hwalk := walk_of_locate hl
  rw [startOf_of_isAbsolute ha] at hwalk
  obtain ⟨hend, hway⟩ := endOf_of_walk hwalk
  unfold Path.name
  rcases List.eq_nil_or_concat p.names with he | ⟨front, name, he⟩
  · rw [he] at hend
    exact absurd (hend ▸ get?_nil disk) hn
  rw [List.concat_eq_append] at he
  rw [he] at hend hway ⊢
  have hd := hway front (List.prefix_append _ _) (by simp)
  rw [endOf, List.foldl_concat] at hend
  rw [List.getLast?_concat, Option.getD_some]
  by_cases hup : name = ".."
  · rw [if_pos hup] at hend
    exact absurd (hend ▸ wf.directory_dropLast hd) hn
  · rw [if_neg hup] at hend
    exact ⟨_, hd, hend⟩

/-! ## Disks that stay well-formed -/

theorem writeFile_wellFormed [Surrogates] (wf : disk.WellFormed) (ha : p.isAbsolute = true)
    (h : disk.writeFile p bytes = .ok after) : after.WellFormed := by
  obtain ⟨place, hl, hn, rfl⟩ := writeFile_eq_ok h
  obtain ⟨dir, hd, rfl⟩ := exists_directory_of_locate wf ha hl hn
  exact wf.set hd (.inl hn)

theorem makeMissing_wellFormed (wf : disk.WellFormed) (hd : disk.get? place = some .directory) :
    (disk.makeMissing p place names).2.WellFormed := by
  induction names generalizing disk p place with
  | nil => exact wf
  | cons name r ih =>
    unfold makeMissing
    dsimp only
    split
    · exact ih wf (wf.directory_dropLast hd)
    split
    · exact wf
    split
    next hn => exact ih wf hn
    · exact wf
    · exact ih (wf.set hd (.inr rfl)) get?_set_self

theorem makeDirectories_wellFormed [Surrogates] (wf : disk.WellFormed) (ha : p.isAbsolute = true) :
    (disk.makeDirectories p).2.WellFormed := by
  unfold makeDirectories
  cases hm : disk.makeDirectory p with
  | ok made =>
    unfold makeDirectory at hm
    split at hm
    · cases hm
    next place hl =>
    split at hm
    · cases hm
    next hn =>
    cases hm
    have hne : disk.get? place ≠ some .directory := fun hd => hn (by rw [hd]; rfl)
    obtain ⟨dir, hd, rfl⟩ := exists_directory_of_locate wf ha hl hne
    exact wf.set hd (.inl hne)
  | error fault =>
    split
    · next heq => cases heq
    · refine makeMissing_wellFormed wf ?_
      rw [startOf_of_isAbsolute ha, get?_nil]
    · exact wf

/-- A file that no directory is below may go. -/
theorem erase_wellFormed (wf : disk.WellFormed) (hf : disk.get? place = some (.file bytes)) :
    (disk.erase place).WellFormed := by
  have hne : place ≠ [] := ne_nil_of_not_directory (by rw [hf]; exact nofun)
  intro front last hp
  rw [get?_erase hne] at hp ⊢
  split at hp
  · cases hp
  have hdirectory := wf front last hp
  rw [if_neg, hdirectory]
  rintro rfl
  rw [hf] at hdirectory
  cases hdirectory

theorem stands_erase (hf : disk.get? place = some (.file bytes)) :
    Stands disk (disk.erase place) := by
  have hne : place ≠ [] := ne_nil_of_not_directory (by rw [hf]; exact nofun)
  refine ⟨rfl, fun other hd => ?_⟩
  rw [get?_erase hne, if_neg, hd]
  rintro rfl
  rw [hf] at hd
  cases hd

theorem isFile_of_writeFile [Surrogates] (h : disk.writeFile p bytes = .ok after) :
    after.isFile p = .ok true := by
  obtain ⟨place, hl, hn, rfl⟩ := writeFile_eq_ok h
  have hf : (disk.set place (.file bytes)).get? place = some (.file bytes) := by
    rw [get?_set (ne_nil_of_not_directory hn), if_pos rfl]
  exact isFile_of_locate ((lasts_set_file hn).locate hl) hf

/-! ## Temporary files -/

theorem place_of_temporaryPath [Surrogates] (hhome : home.isAbsolute = true) {k : Nat}
    (hl : disk.locate (temporaryPath home p k) = .ok place) :
    place = (temporaryPath home p k).names := by
  have habs : (temporaryPath home p k).isAbsolute = true := isAbsolute_normal hhome p.parent
  have hup : ".." ∉ (temporaryPath home p k).names := by
    show ".." ∉ (Path.normal home p.parent).names ++ [temporaryName p.name k]
    rw [List.mem_append, List.mem_singleton, not_or]
    exact ⟨up_notMem_normalFrom nofun, (temporaryName_ne (by decide)).symm⟩
  obtain ⟨rfl, -, -⟩ := locate_eq_ok (straight_of_isAbsolute habs hup) hl
  exact placeOf_of_isAbsolute habs

theorem exists_temporaryPath_of_freeTemporary [Surrogates] {temporary : Path}
    (h : disk.freeTemporary p = .ok temporary) :
    ∃ k, temporary = temporaryPath disk.homePath p k := by
  unfold freeTemporary at h
  split at h
  · cases h
  split at h
  · cases h
    exact ⟨_, rfl⟩
  · cases h

end Disk

namespace Output

variable {disk after : Disk} {options : OutputOptions} {job other : Job} {jobs : List Job}
  {stage stage' : Stage} {place : Location} {content : String} {temporary : Path}

/-! ## What a task relies on -/

/-- The temporary file that is there at a stage. -/
def Stage.temporary? : Stage → Option Path
  | fillTemporary temporary _ => some temporary
  | moveTemporary temporary _ => some temporary
  | clearTemporary temporary _ => some temporary
  | _ => none

/-- The place of the temporary file of a stage. -/
def Stage.Hides (stage : Stage) (place : Location) : Prop :=
  ∃ temporary, stage.temporary? = some temporary ∧ place = temporary.names

/-- The target is known to be a file. -/
def Stage.isWritten : Stage → Bool
  | fillTarget _ => true
  | done result => result.status.isWritten
  | _ => false

/-- A path is that of a temporary file of a job, which is there. -/
structure Job.Hidden [Surrogates] (job : Job) (disk : Disk) (temporary : Path) : Prop where
  path : ∃ k, temporary = temporaryPath disk.homePath job.path k
  locate : disk.locate temporary = .ok temporary.names
  file : ∃ bytes, disk.get? temporary.names = some (.file bytes)

/-- The files that the task of a job relies on at a stage. -/
structure Stage.Keeps [Surrogates] (stage : Stage) (job : Job) (disk : Disk) : Prop where
  temporary : ∀ temporary, stage.temporary? = some temporary → job.Hidden disk temporary
  target : stage.isWritten = true → disk.isFile job.path = .ok true

/-- What is still there after an operation: everything but the temporary file of the task. -/
structure Stage.Spares (stage : Stage) (disk after : Disk) : Prop extends Stands disk after where
  wellFormed : after.WellFormed
  file : ∀ place bytes, disk.get? place = some (.file bytes) → ¬ stage.Hides place →
    ∃ bytes', after.get? place = some (.file bytes')

theorem spares_of_lasts (h : Lasts disk after) (wf : after.WellFormed) :
    stage.Spares disk after :=
  ⟨h.toStands, wf, fun place bytes hf _ => h.file place bytes hf⟩

theorem spares_self (wf : disk.WellFormed) : stage.Spares disk disk :=
  spares_of_lasts (Lasts.refl disk) wf

theorem spares_writeFile [Surrogates] {p : Path} {bytes : List UInt8} (wf : disk.WellFormed)
    (ha : p.isAbsolute = true) (h : disk.writeFile p bytes = .ok after) :
    stage.Spares disk after :=
  spares_of_lasts (writeFile_lasts h) (writeFile_wellFormed wf ha h)

theorem spares_erase {bytes : List UInt8} (wf : disk.WellFormed)
    (hf : disk.get? place = some (.file bytes)) (hh : stage.Hides place) :
    stage.Spares disk (disk.erase place) := by
  refine ⟨stands_erase hf, erase_wellFormed wf hf, fun other bytes' ho hnot => ⟨bytes', ?_⟩⟩
  rw [get?_erase (ne_nil_of_not_directory (by rw [hf]; exact nofun)), if_neg, ho]
  rintro rfl
  exact hnot hh

theorem Job.Hidden.isAbsolute [Surrogates] (h : job.Hidden disk temporary) :
    temporary.isAbsolute = true := by
  obtain ⟨k, rfl⟩ := h.path
  exact isAbsolute_normal rfl job.path.parent

/-! ## One operation -/

theorem spares_moved [Surrogates] {success : Result} (wf : disk.WellFormed)
    (ha : job.path.isAbsolute = true)
    (h : job.Hidden disk temporary) (hm : disk.moveFile temporary job.path = .ok after) :
    (Stage.moveTemporary temporary success).Spares disk after ∧
      after.isFile job.path = .ok true := by
  obtain ⟨origin, place, bytes, ho, hf, hl, hn, rfl⟩ := moveFile_eq_ok hm
  obtain rfl : origin = temporary.names := Except.ok.inj (ho.symm.trans h.locate)
  have herase : (Stage.moveTemporary temporary success).Spares disk (disk.erase temporary.names) :=
    spares_erase wf hf ⟨temporary, rfl, rfl⟩
  have hplace : (disk.erase temporary.names).get? place ≠ some .directory := by
    rw [get?_erase (ne_nil_of_not_directory (by rw [hf]; exact nofun))]
    split
    · exact nofun
    · exact hn
  obtain ⟨dir, hd, rfl⟩ := exists_directory_of_locate wf ha hl hn
  have hset : Lasts (disk.erase temporary.names)
      ((disk.erase temporary.names).set (dir ++ [job.path.name]) (.file bytes)) :=
    lasts_set_file hplace
  have hstands : Stands disk ((disk.erase temporary.names).set (dir ++ [job.path.name])
      (.file bytes)) :=
    ⟨herase.home, fun other hd => hset.directory other (herase.directory other hd)⟩
  refine ⟨⟨hstands, herase.wellFormed.set (herase.directory dir hd) (.inl hplace),
    fun other bytes' ho hnot => ?_⟩, isFile_of_locate (hstands.locate hl) get?_set_self⟩
  obtain ⟨bytes'', ho'⟩ := herase.file other bytes' ho hnot
  exact hset.file other bytes'' ho'

variable [Surrogates]

/-- What a task relies on after an operation, and what is still there. -/
theorem keeps_step (h : stage.Keeps job disk) (wf : disk.WellFormed)
    (ha : job.path.isAbsolute = true) (hstep : Step options job content disk stage stage' after) :
    stage.Spares disk after ∧ stage'.Keeps job after := by
  cases hstep with
  | unseen | free | kept | taken | wanted | failed | found | noTemporary | notCreated | refused
  | notOpened =>
    exact ⟨spares_self wf, nofun, nofun⟩
  | copied index bytes hf hw =>
    have habs : (backupPath job.path index).isAbsolute = true := ha
    exact ⟨spares_writeFile wf habs hw, nofun, nofun⟩
  | unmade fault hm | made hm =>
    have hlasts := makeDirectories_lasts disk job.path.parent
    have hwell := makeDirectories_wellFormed wf (p := job.path.parent) ha
    rw [hm] at hlasts hwell
    exact ⟨spares_of_lasts hlasts hwell, nofun, nofun⟩
  | openedTemporary _ hf hc =>
    obtain ⟨k, rfl⟩ := exists_temporaryPath_of_freeTemporary hf
    obtain ⟨place, hl, hn, rfl⟩ := createFile_eq_ok hc
    obtain rfl := place_of_temporaryPath rfl hl
    have hne : disk.get? (temporaryPath disk.homePath job.path k).names ≠ some .directory := by
      rw [hn]
      exact nofun
    have hset : Lasts disk (disk.set (temporaryPath disk.homePath job.path k).names (.file [])) :=
      lasts_set_file hne
    have habs : (temporaryPath disk.homePath job.path k).isAbsolute = true :=
      isAbsolute_normal rfl job.path.parent
    obtain ⟨dir, hd, hnames⟩ := exists_directory_of_locate wf habs hl hne
    refine ⟨spares_of_lasts hset ?_, ?_, nofun⟩
    · rw [hnames] at hne ⊢
      exact wf.set hd (.inl hne)
    · rintro temporary ⟨⟩
      exact ⟨⟨k, rfl⟩, hset.locate hl, [], by rw [hnames]; exact get?_set_self⟩
  | openedTarget _ _ hw =>
    exact ⟨spares_writeFile wf ha hw, nofun, fun _ => isFile_of_writeFile hw⟩
  | notEncoded | notFilled | notMoved => exact ⟨spares_self wf, h.temporary, nofun⟩
  | @filled temporary success after bytes _ hw =>
    have hhidden := h.temporary temporary rfl
    have hspares : (Stage.fillTemporary temporary success).Spares disk after :=
      spares_writeFile wf hhidden.isAbsolute hw
    refine ⟨hspares, ?_, nofun⟩
    rintro _ ⟨⟩
    have hhome : after.homePath = disk.homePath := congrArg (Path.mk .slash) hspares.home
    refine ⟨hhome ▸ hhidden.path, hspares.locate hhidden.locate, bytes, ?_⟩
    obtain ⟨place, hl, hn, rfl⟩ := writeFile_eq_ok hw
    obtain rfl := Except.ok.inj (hl.symm.trans hhidden.locate)
    rw [get?_set (ne_nil_of_not_directory hn), if_pos rfl]
  | moved hm =>
    obtain ⟨hspares, hfile⟩ := spares_moved wf ha (h.temporary _ rfl) hm
    exact ⟨hspares, nofun, fun _ => hfile⟩
  | cleared fault =>
    have hhidden := h.temporary _ rfl
    obtain ⟨bytes, hf⟩ := hhidden.file
    rw [removeFile_of_locate hhidden.locate]
    exact ⟨spares_erase wf hf ⟨_, rfl, rfl⟩, nofun, nofun⟩
  | filledTarget bytes hw =>
    obtain ⟨written, hw⟩ := exists_writeFile_of_overwriteFile hw
    exact ⟨spares_writeFile wf ha hw, nofun, fun _ => isFile_of_writeFile hw⟩
  | ended => exact ⟨spares_self wf, h⟩

/-- A temporary file is the one that was there, or it is at a place that was free. -/
theorem hides_step (hstep : Step options job content disk stage stage' after)
    (hh : stage'.Hides place) : stage.Hides place ∨ disk.get? place = none := by
  cases hstep with
  | openedTemporary _ hf hc =>
    obtain ⟨k, rfl⟩ := exists_temporaryPath_of_freeTemporary hf
    obtain ⟨found, hl, hn, -⟩ := createFile_eq_ok hc
    obtain rfl := place_of_temporaryPath rfl hl
    obtain ⟨temporary, ⟨⟩, rfl⟩ := hh
    exact .inr hn
  | notEncoded | notFilled | filled | notMoved | ended => exact .inl hh
  | _ =>
    obtain ⟨temporary, ht, -⟩ := hh
    cases ht

/-! ## Other tasks -/

/-- The file of a job has the name of no temporary file of another job. -/
def Job.Avoids (job other : Job) : Prop :=
  ∀ k, job.path.name ≠ temporaryName other.path.name k

theorem exists_name_of_hides (h : stage.Keeps job disk) (hh : stage.Hides place) :
    (∃ front k, place = front ++ [temporaryName job.path.name k]) ∧
      ∃ bytes, disk.get? place = some (.file bytes) := by
  obtain ⟨temporary, ht, rfl⟩ := hh
  obtain ⟨⟨k, rfl⟩, -, hf⟩ := h.temporary temporary ht
  exact ⟨⟨_, k, rfl⟩, hf⟩

/-- What a task relies on stays when another one takes an operation. -/
theorem keeps_other {stage₁ : Stage} (h : stage.Keeps other disk)
    (wf : disk.WellFormed)
    (ha : other.path.isAbsolute = true) (hn : other.Avoids job) (h₁ : stage₁.Keeps job disk)
    (hs : stage₁.Spares disk after)
    (hapart : ∀ place, stage.Hides place → ¬ stage₁.Hides place) : stage.Keeps other after where
  temporary temporary ht := by
    have hhidden := h.temporary temporary ht
    obtain ⟨bytes, hf⟩ := hhidden.file
    have hhome : after.homePath = disk.homePath := congrArg (Path.mk .slash) hs.home
    exact ⟨hhome ▸ hhidden.path, hs.locate hhidden.locate,
      hs.file _ bytes hf (hapart _ ⟨temporary, ht, rfl⟩)⟩
  target hw := by
    obtain ⟨place, bytes, hl, hf⟩ := locate_of_isFile (h.target hw)
    obtain ⟨dir, -, rfl⟩ := exists_directory_of_locate wf ha hl (by rw [hf]; exact nofun)
    have hnot : ¬ stage₁.Hides (dir ++ [other.path.name]) := by
      intro hhides
      obtain ⟨⟨front, k, hplace⟩, -⟩ := exists_name_of_hides h₁ hhides
      exact hn k (List.singleton_inj.mp (List.append_inj' hplace rfl).2)
    obtain ⟨bytes', hf'⟩ := hs.file _ bytes hf hnot
    exact isFile_of_locate (hs.locate hl) hf'

/-! ## All tasks -/

def Job.HasText (job : Job) : Prop := ∃ content, job.content = .ok content

/-- A task whose text cannot be made, so that it has failed. -/
structure Task.Failed (task : Task) : Prop where
  content : ∃ e, task.job.content = .error e
  stage : ∃ result, task.stage = .done result ∧ result.status = .failed

/-- A task that has failed, or that has a text and finds the files that it relies on. -/
def Task.Keeps (task : Task) (disk : Disk) : Prop :=
  task.Failed ∨ task.job.HasText ∧ task.stage.Keeps task.job disk

/-- Two tasks have no temporary file in common. -/
def Task.HidesApart (task other : Task) : Prop :=
  ∀ place, task.stage.Hides place → ¬ other.stage.Hides place

omit [Surrogates] in
theorem HidesApart.symm {task other : Task} (h : task.HidesApart other) : other.HidesApart task :=
  fun place hh hh' => h place hh' hh

omit [Surrogates] in
/-- A task that has failed has no temporary file. -/
theorem Task.Failed.not_hides {task : Task} (h : task.Failed) (place : Location) :
    ¬ task.stage.Hides place := by
  obtain ⟨result, hd, -⟩ := h.stage
  rintro ⟨temporary, ht, -⟩
  rw [hd] at ht
  cases ht

theorem next_of_done {task : Task} {result : Result} (h : task.stage = .done result) :
    task.next options disk = (task, disk) := by
  have hrun : task.run options 1 disk = (task, disk) := Task.run_of_done h
  exact hrun

/-- Beside a task that takes an operation no temporary file is had in common, before or after. -/
theorem hidesApart_next {before rest : List Task} {task : Task}
    (h : (before ++ task :: rest).Pairwise Task.HidesApart)
    (hstep : ∀ place, (task.next options disk).1.stage.Hides place →
      task.stage.Hides place ∨ ∀ u ∈ before ++ rest, ¬ u.stage.Hides place) :
    (∀ u ∈ before ++ rest, u.HidesApart task) ∧
      (before ++ (task.next options disk).1 :: rest).Pairwise Task.HidesApart := by
  obtain ⟨hbefore, hrest, hbetween⟩ := List.pairwise_append.mp h
  obtain ⟨hhead, htail⟩ := List.pairwise_cons.mp hrest
  have hothers : ∀ u ∈ before ++ rest, u.HidesApart task := by
    intro u hu
    rcases List.mem_append.mp hu with hu | hu
    · exact hbetween u hu task List.mem_cons_self
    · exact HidesApart.symm (hhead u hu)
  have hnew : ∀ u ∈ before ++ rest, u.HidesApart (task.next options disk).1 := by
    intro u hu place hh hh'
    rcases hstep place hh' with hold | hnone
    · exact hothers u hu place hh hold
    · exact hnone u hu hh
  refine ⟨hothers, List.pairwise_append.mpr ⟨hbefore, List.pairwise_cons.mpr ⟨fun u hu =>
    HidesApart.symm (hnew u (List.mem_append_right _ hu)), htail⟩, fun u hu w hw => ?_⟩⟩
  rcases List.mem_cons.mp hw with rfl | hw
  · exact hnew u (List.mem_append_left _ hu)
  · exact hbetween u hu w (List.mem_cons_of_mem _ hw)

/-- The jobs of a pool write to paths from the root, and no file of theirs has the name of a
temporary file of the pool. -/
structure Job.AllOpen (jobs : List Job) : Prop where
  isAbsolute : ∀ job ∈ jobs, job.path.isAbsolute = true
  avoids : ∀ job ∈ jobs, ∀ other ∈ jobs, job.HasText → other.HasText → job.Avoids other

/-- All tasks of a pool find the files that they rely on. -/
structure Pool.Keeps (jobs : List Job) (tasks : List Task) (disk : Disk) : Prop where
  wellFormed : disk.WellFormed
  jobs : ∀ task ∈ tasks, task.job ∈ jobs
  task : ∀ task ∈ tasks, task.Keeps disk
  apart : tasks.Pairwise Task.HidesApart

theorem pool_keeps_next (hj : Job.AllOpen jobs) {before rest : List Task} {task : Task}
    (h : Pool.Keeps jobs (before ++ task :: rest) disk) :
    Pool.Keeps jobs (before ++ (task.next options disk).1 :: rest)
      (task.next options disk).2 := by
  have hjob := h.jobs task (by simp)
  rcases h.task task (by simp) with hfailed | ⟨htext, hkeeps⟩
  · obtain ⟨result, hd, -⟩ := hfailed.stage
    rw [next_of_done hd]
    exact h
  have hstep := Task.step_advance options task disk
  obtain ⟨hspares, hkeeps'⟩ : task.stage.Spares disk (task.next options disk).2 ∧ _ :=
    keeps_step hkeeps h.wellFormed (hj.isAbsolute _ hjob) hstep
  obtain ⟨hothers, hapart⟩ := hidesApart_next h.apart fun place hh =>
    (hides_step hstep hh).imp_right fun hnone u hu hu' => by
      rcases h.task u (mem_beside hu) with hfailed | ⟨-, hus⟩
      · exact hfailed.not_hides place hu'
      · obtain ⟨-, bytes, hf⟩ := exists_name_of_hides hus hu'
        rw [hnone] at hf
        cases hf
  refine ⟨hspares.wellFormed, forall_mem_beside (fun u hu => h.jobs u (mem_beside hu)) hjob,
    forall_mem_beside (fun u hu => ?_) (.inr ⟨htext, hkeeps'⟩), hapart⟩
  have hujob := h.jobs u (mem_beside hu)
  rcases h.task u (mem_beside hu) with hfailed | ⟨hutext, hus⟩
  · exact .inl hfailed
  · exact .inr ⟨hutext, keeps_other hus h.wellFormed (hj.isAbsolute _ hujob)
      (hj.avoids _ hujob _ hjob hutext htext) hkeeps hspares (hothers u hu)⟩

/-- A task that has not begun has no temporary file. -/
theorem not_hides_task (job : Job) (place : Location) :
    ¬ job.task.stage.Hides place := by
  rintro ⟨temporary, ht, -⟩
  unfold Job.task at ht
  cases hc : job.content <;> rw [hc] at ht <;> cases ht

theorem pool_keeps_start (wf : disk.WellFormed) :
    Pool.Keeps jobs (jobs.map Job.task) disk := by
  refine ⟨wf, List.forall_mem_map.mpr fun job hm => ?_, List.forall_mem_map.mpr fun job _ => ?_,
    List.pairwise_map.mpr (List.pairwise_of_forall fun job _ place hh =>
      absurd hh (not_hides_task job place))⟩
  · unfold Job.task
    cases job.content <;> exact hm
  · cases hc : job.content with
    | error e =>
      rw [Task.task_of_error hc]
      exact .inl ⟨⟨e, hc⟩, _, rfl, rfl⟩
    | ok content =>
      rw [Task.task_of_ok hc]
      exact .inr ⟨⟨content, hc⟩, nofun, nofun⟩

/-- Whatever turns the tasks take, a file that a result reports as written is there in the end. -/
theorem isFile_of_writeAllBy {workers : Option Nat} {turns : List Nat} {r : Result}
    (wf : disk.WellFormed) (hj : Job.AllOpen jobs)
    (h : r ∈ (writeAllBy workers turns options jobs disk).1) (hs : r.status.isWritten = true) :
    (writeAllBy workers turns options jobs disk).2.isFile r.path = .ok true := by
  obtain ⟨tasks, -, hresults, hkeeps, hnamed⟩ := writeAllBy_induction workers turns options
    (fun tasks disk => Pool.Keeps jobs tasks disk ∧ ∀ task ∈ tasks, task.Named)
    (fun before task rest disk ⟨hp, hn⟩ => ⟨pool_keeps_next hj hp, forall_named_next hn⟩)
    ⟨pool_keeps_start wf, List.forall_mem_map.mpr fun job _ => named_task job⟩
  rw [hresults] at h
  obtain ⟨task, hm, hr⟩ := List.mem_filterMap.mp h
  have hd := done_of_result? hr
  obtain ⟨hpath, -⟩ := hnamed task hm r (by rw [hd]; rfl)
  rcases hkeeps.task task hm with hfailed | ⟨-, hstage⟩
  · obtain ⟨result, hd', hfailed⟩ := hfailed.stage
    rw [hd] at hd'
    cases hd'
    rw [hfailed] at hs
    cases hs
  · rw [hpath]
    exact hstage.target (by rw [hd]; exact hs)

end Output

end DomainCodegen
