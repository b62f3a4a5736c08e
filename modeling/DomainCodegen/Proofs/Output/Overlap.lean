import DomainCodegen.Proofs.Output.Isolation
import DomainCodegen.Proofs.Output.Survival

/-!
# Tasks that overlap

Tasks that take turns share the disk. A task relies on the directory of its target and on its
temporary file (`Stage.Sound`), and it changes nothing but its target, its backups and its temporary
file (`Stage.Leaves`). Where the files of all jobs are not hidden, no other task touches a temporary
file, so that what a task relies on stays, whatever turns the tasks take (`pool_sound_next`).
-/

namespace DomainCodegen

open Disk

namespace Disk

variable {disk after : Disk} {p : Path} {dir : Location} {name : String} {bytes : List UInt8}

/-! ## Single files -/

/-- Writing to a path in a directory sets the entry there. -/
theorem writeFile_here [Surrogates] (hb : disk.Beside dir name p)
    (hw : disk.writeFile p bytes = .ok after) :
    disk.get? (dir ++ [name]) ≠ some .directory ∧
      after = disk.set (dir ++ [name]) (.file bytes) := by
  obtain ⟨place, hl, hn, rfl⟩ := writeFile_eq_ok hw
  obtain ⟨rfl, -, -⟩ := locate_eq_ok hb.straight hl
  rw [hb.place] at hn ⊢
  exact ⟨hn, rfl⟩

theorem room_erase (hr : disk.Room dir) (hf : disk.get? (dir ++ [name]) = some (.file bytes)) :
    (disk.erase (dir ++ [name])).Room dir where
  wellFormed := erase_wellFormed hr.wellFormed hf
  directory := by rw [get?_erase append_singleton_ne_nil, if_neg (by simp), hr.directory]

theorem head?_temporaryName (name : String) (k : Nat) :
    (temporaryName name k).toList.head? = some '.' := by
  simp [temporaryName]

end Disk

namespace Output

variable {disk after later : Disk} {options : OutputOptions} {job other : Job} {jobs : List Job}
  {stage stage' : Stage} {dir front place : Location} {name last content : String} {p : Path}
  {k : Nat} {bytes : List UInt8}

/-! ## Hidden files -/

/-- A job that writes to a file that is not hidden. -/
structure Job.Visible (job : Job) : Prop where
  targets : job.Targets job.directory job.file
  head?_ne : job.file.toList.head? ≠ some '.'

/-- A file of a job is not at the place of a temporary file. -/
theorem Job.Visible.ne_temporary (h : job.Visible) (ho : Owns job.directory job.file place) :
    place ≠ front ++ [temporaryName last k] := by
  have hhidden := head?_temporaryName last k
  rintro rfl
  rcases ho with he | ⟨l, he⟩ <;> obtain ⟨-, hl⟩ := List.append_inj' he rfl
  · rw [List.singleton_inj.mp hl] at hhidden
    exact h.head?_ne hhidden
  · rw [List.singleton_inj.mp hl, backupName, String.append_assoc, String.toList_append,
      List.head?_append_of_ne_nil _ (by simpa using h.targets.nonempty)] at hhidden
    exact h.head?_ne hhidden

theorem Job.Targets.names_temporaryPath (ht : job.Targets dir name) (disk : Disk) (k : Nat) :
    (temporaryPath disk.homePath job.path k).names = dir ++ [temporaryName name k] := by
  have habs : (temporaryPath disk.homePath job.path k).isAbsolute = true := isAbsolute_normal rfl _
  rw [← ((ht.beside disk).temporary k).place, placeOf_of_isAbsolute habs]

/-! ## What a task relies on -/

/-- The directory of the target is known to be there. -/
def Stage.isInside : Stage → Bool
  | probe => false
  | directories _ => false
  | done _ => false
  | _ => true

/-- A path is that of a temporary file of a job, which is there. -/
def Job.HasTemporary [Surrogates] (job : Job) (disk : Disk) (temporary : Path) : Prop :=
  ∃ k bytes, temporary = temporaryPath disk.homePath job.path k ∧ accept temporary = .ok () ∧
    disk.get? (job.directory ++ [temporaryName job.file k]) = some (.file bytes)

/-- What the task of a job relies on at a stage. -/
structure Stage.Sound [Surrogates] (stage : Stage) (job : Job) (disk : Disk) : Prop where
  directory : stage.isInside = true → disk.get? job.directory = some .directory
  temporary : ∀ temporary, stage.temporary? = some temporary → job.HasTemporary disk temporary

/-- An operation that leads from one stage to the other writes to the target. -/
def Stage.puts : Stage → Stage → Bool
  | openFile _, fillTarget _ => true
  | moveTemporary _ _, done _ => true
  | fillTarget _, _ => true
  | _, _ => false

/-- An operation that leads from one stage to the other may write to a place: to the target, or to
a backup of it. -/
def Stage.Alters (stage stage' : Stage) (job : Job) (place : Location) : Prop :=
  (stage.puts stage' = true ∧ place = job.directory ++ [job.file]) ∨
    ((∃ index, stage = .copy index) ∧ IsBackup job.directory job.file place)

theorem owns_of_alters (h : stage.Alters stage' job place) :
    Owns job.directory job.file place := h.imp And.right And.right

/-- What an operation of a task leaves of the disk. -/
structure Stage.Leaves (stage stage' : Stage) (job : Job) (disk after : Disk) : Prop where
  alters : Touches (fun place => stage.Alters stage' job place ∨ stage.Hides place ∨
    (stage'.Hides place ∧ disk.get? place = none)) job.directory disk after
  file : ∀ place bytes, disk.get? place = some (.file bytes) → ¬ stage.Hides place →
    ∃ bytes', after.get? place = some (.file bytes')

theorem Stage.Leaves.touches (h : stage.Leaves stage' job disk after) :
    Touches (fun place => Owns job.directory job.file place ∨ stage.Hides place ∨
      (stage'.Hides place ∧ disk.get? place = none)) job.directory disk after :=
  h.alters.mono fun _ => Or.imp_left owns_of_alters

theorem leaves_self (wf : disk.WellFormed) : stage.Leaves stage' job disk disk :=
  ⟨Touches.refl wf, fun _ bytes hf _ => ⟨bytes, hf⟩⟩

theorem leaves_set (hr : disk.Room job.directory)
    (hn : disk.get? (job.directory ++ [name]) ≠ some .directory)
    (ho : stage.Alters stage' job (job.directory ++ [name]) ∨
      stage.Hides (job.directory ++ [name]) ∨
      (stage'.Hides (job.directory ++ [name]) ∧ disk.get? (job.directory ++ [name]) = none)) :
    stage.Leaves stage' job disk (disk.set (job.directory ++ [name]) (.file bytes)) := by
  refine ⟨(touches_set hr hn).mono ?_, fun place bytes hf _ =>
    (lasts_set_file hn).file place bytes hf⟩
  rintro place rfl
  exact ho

theorem leaves_writeFile [Surrogates] (hr : disk.Room job.directory)
    (hb : disk.Beside job.directory name p)
    (hw : disk.writeFile p bytes = .ok after)
    (ho : stage.Alters stage' job (job.directory ++ [name]) ∨
      stage.Hides (job.directory ++ [name])) : stage.Leaves stage' job disk after := by
  obtain ⟨hn, rfl⟩ := writeFile_here hb hw
  exact leaves_set hr hn (ho.imp_right .inl)

theorem leaves_makeDirectories [Surrogates] (wf : disk.WellFormed)
    (hb : disk.Beside job.directory name p)
    {r : Except Fault Unit} (hm : disk.makeDirectories p.parent = (r, after)) :
    stage.Leaves stage' job disk after := by
  have hmade := makeDirectories_made wf hb.parent_straight
  have hlasts := makeDirectories_lasts disk p.parent
  rw [hb.parent_place, hm] at hmade
  rw [hm] at hlasts
  exact ⟨touches_of_grows hmade.grows hmade.wellFormed, fun place bytes hf _ =>
    hlasts.file place bytes hf⟩

/-- Where a temporary file is. -/
theorem place_of_hasTemporary [Surrogates] (hr : disk.Room job.directory) (hv : job.Visible)
    {temporary : Path}
    (h : job.HasTemporary disk temporary) :
    ∃ k bytes, temporary = temporaryPath disk.homePath job.path k ∧ accept temporary = .ok () ∧
      disk.Beside job.directory (temporaryName job.file k) temporary ∧
      disk.locate temporary = .ok (job.directory ++ [temporaryName job.file k]) ∧
      temporary.names = job.directory ++ [temporaryName job.file k] ∧
      disk.get? (job.directory ++ [temporaryName job.file k]) = some (.file bytes) := by
  obtain ⟨k, bytes, rfl, ha, hf⟩ := h
  have hb := (hv.targets.beside disk).temporary k
  exact ⟨k, bytes, rfl, ha, hb, hb.locate_of_accept hr ha, hv.targets.names_temporaryPath disk k,
    hf⟩

/-- A task takes its temporary file away. -/
theorem leaves_erase (wf : disk.WellFormed)
    (hf : disk.get? (dir ++ [name]) = some (.file bytes)) (hh : stage.Hides (dir ++ [name])) :
    stage.Leaves stage' job disk (disk.erase (dir ++ [name])) := by
  have hget : ∀ place, place ≠ dir ++ [name] →
      (disk.erase (dir ++ [name])).get? place = disk.get? place := fun place hp => by
    rw [get?_erase append_singleton_ne_nil, if_neg hp]
  refine ⟨⟨rfl, erase_wellFormed wf hf, fun place hp => ?_, fun place ho => .inl (hget place ?_)⟩,
    fun place bytes' hp hnot => ⟨bytes', ?_⟩⟩
  · rw [hget, hp]
    rintro rfl
    rw [hf] at hp
    cases hp
  · rintro rfl
    exact ho (.inr (.inl hh))
  · rw [hget, hp]
    rintro rfl
    exact hnot hh

theorem leaves_trans (h : stage.Leaves stage' job disk after)
    (h' : stage.Leaves stage' job after later) (hn : stage'.temporary? = none) :
    stage.Leaves stage' job disk later := by
  have hnot : ∀ place, ¬ stage'.Hides place := by
    rintro place ⟨temporary, ht, -⟩
    rw [hn] at ht
    cases ht
  have hown : ∀ disk : Disk, ∀ place, (stage.Alters stage' job place ∨ stage.Hides place ∨
      (stage'.Hides place ∧ disk.get? place = none)) →
      stage.Alters stage' job place ∨ stage.Hides place := fun disk place ho =>
    ho.imp_right fun ho => ho.resolve_right fun hh => hnot place hh.1
  refine ⟨((h.alters.mono (hown disk)).trans (h'.alters.mono (hown after))).mono
    fun place ho => ho.imp_right .inl, fun place bytes hf hh => ?_⟩
  obtain ⟨bytes', hf'⟩ := h.file place bytes hf hh
  exact h'.file place bytes' hf' hh

/-! ## One operation -/

theorem sound_moved [Surrogates] (wf : disk.WellFormed)
    (hd : disk.get? job.directory = some .directory)
    (hv : job.Visible) {temporary : Path} {success : Result}
    (h : job.HasTemporary disk temporary) (hm : disk.moveFile temporary job.path = .ok after) :
    (Stage.moveTemporary temporary success).Leaves (.done success) job disk after ∧
      after.isFile job.path = .ok true := by
  have hb := hv.targets.beside disk
  obtain ⟨k, old, -, -, hbk, hlocate, hnames, hold⟩ := place_of_hasTemporary ⟨wf, hd⟩ hv h
  obtain ⟨origin, place, bytes, ho, hf, hl, hn, rfl⟩ := moveFile_eq_ok hm
  obtain rfl : origin = _ := Except.ok.inj (ho.symm.trans hlocate)
  obtain ⟨rfl, -, -⟩ := locate_eq_ok hb.straight hl
  rw [hb.place] at hn hl ⊢
  have herase : (Stage.moveTemporary temporary success).Leaves (.done success) job disk
      (disk.erase (job.directory ++ [temporaryName job.file k])) :=
    leaves_erase wf hold ⟨_, rfl, hnames.symm⟩
  have hne : (disk.erase (job.directory ++ [temporaryName job.file k])).get?
      (job.directory ++ [job.file]) ≠ some .directory := by
    rw [get?_erase append_singleton_ne_nil]
    split
    · exact nofun
    · exact hn
  have hroom : (disk.erase (job.directory ++ [temporaryName job.file k])).Room job.directory :=
    room_erase ⟨wf, hd⟩ hold
  have hleaves : (Stage.moveTemporary temporary success).Leaves (.done success) job disk
      ((disk.erase (job.directory ++ [temporaryName job.file k])).set (job.directory ++ [job.file])
        (.file bytes)) := leaves_trans herase (leaves_set hroom hne (.inl (.inl ⟨rfl, rfl⟩))) rfl
  have hstands : Stands disk _ := ⟨hleaves.touches.home, hleaves.touches.directory⟩
  exact ⟨hleaves, isFile_of_locate (hstands.locate hl) get?_set_self⟩

/-- What a task relies on after an operation, and what the operation leaves. -/
theorem sound_step [Surrogates] (h : stage.Sound job disk) (wf : disk.WellFormed) (hv : job.Visible)
    (hstep : Step options job content disk stage stage' after) :
    stage.Leaves stage' job disk after ∧ stage'.Sound job after := by
  have hb := hv.targets.beside disk
  cases hstep with
  | unseen | free | kept | taken | failed | noTemporary | notCreated | refused | notOpened =>
    exact ⟨leaves_self wf, nofun, nofun⟩
  | wanted hh ho hbackup =>
    exact ⟨leaves_self wf, fun _ => (room_of_holds wf hb hh).directory, nofun⟩
  | found index hi => exact ⟨leaves_self wf, fun _ => h.directory rfl, nofun⟩
  | copied index bytes hf hw =>
    exact ⟨leaves_writeFile ⟨wf, h.directory rfl⟩ (hb.backup index) hw
      (.inl (.inr ⟨⟨index, rfl⟩, index, rfl⟩)),
      nofun, nofun⟩
  | unmade fault hm => exact ⟨leaves_makeDirectories wf hb hm, nofun, nofun⟩
  | made hm =>
    have hmade := makeDirectories_made wf hb.parent_straight
    rw [hb.parent_place, hm] at hmade
    exact ⟨leaves_makeDirectories wf hb hm, fun _ => hmade.directory rfl, nofun⟩
  | openedTemporary ha hf hc =>
    have hr : disk.Room job.directory := ⟨wf, h.directory rfl⟩
    obtain ⟨fault, hk⟩ | ⟨k, -, -, hk⟩ := freeTemporary_cases hb <;> rw [hk] at hf <;> cases hf
    have hbk := hb.temporary k
    obtain ⟨place, hl, hn, rfl⟩ := createFile_eq_ok hc
    obtain ⟨rfl, hfits, -⟩ := locate_eq_ok hbk.straight hl
    rw [hbk.place] at hn ⊢
    have hne : disk.get? (job.directory ++ [temporaryName job.file k]) ≠ some .directory := by
      rw [hn]
      exact nofun
    refine ⟨leaves_set hr hne (.inr (.inr ⟨⟨_, rfl, ?_⟩, hn⟩)), fun _ => (hr.set hne).directory,
      ?_⟩
    · rw [hv.targets.names_temporaryPath disk k]
    · rintro temporary ⟨⟩
      exact ⟨k, [], rfl, accept_eq_ok_iff.mpr hfits, get?_set_self⟩
  | @openedTarget success after ha hm hw =>
    have hr : disk.Room job.directory := ⟨wf, h.directory rfl⟩
    have hleaves : (Stage.openFile success).Leaves (.fillTarget success) job disk after :=
      leaves_writeFile hr hb hw (.inl (.inl ⟨rfl, rfl⟩))
    exact ⟨hleaves, fun _ => hleaves.touches.directory _ hr.directory, nofun⟩
  | notEncoded | notFilled => exact ⟨leaves_self wf, h.directory, h.temporary⟩
  | filled bytes he hw =>
    have hr : disk.Room job.directory := ⟨wf, h.directory rfl⟩
    obtain ⟨k, old, hpath, ha, hbk, -, hnames, -⟩ := place_of_hasTemporary hr hv (h.temporary _ rfl)
    obtain ⟨hn, rfl⟩ := writeFile_here hbk hw
    refine ⟨leaves_set hr hn (.inr (.inl ⟨_, rfl, hnames.symm⟩)), fun _ => (hr.set hn).directory,
      ?_⟩
    rintro temporary ⟨⟩
    exact ⟨k, bytes, hpath, ha, get?_set_self⟩
  | notMoved => exact ⟨leaves_self wf, h.directory, h.temporary⟩
  | moved hm =>
    exact ⟨(sound_moved wf (h.directory rfl) hv (h.temporary _ rfl) hm).1, nofun, nofun⟩
  | cleared fault =>
    have hr : disk.Room job.directory := ⟨wf, h.directory rfl⟩
    obtain ⟨k, old, -, -, hbk, hlocate, hnames, hold⟩ :=
      place_of_hasTemporary hr hv (h.temporary _ rfl)
    rw [removeFile_of_locate hlocate]
    exact ⟨leaves_erase wf hold ⟨_, rfl, hnames.symm⟩, nofun, nofun⟩
  | filledTarget bytes hw =>
    obtain ⟨written, hw⟩ := exists_writeFile_of_overwriteFile hw
    exact ⟨leaves_writeFile ⟨wf, h.directory rfl⟩ hb hw (.inl (.inl ⟨rfl, rfl⟩)), nofun, nofun⟩
  | ended => exact ⟨leaves_self wf, h⟩

/-! ## Other tasks -/

theorem file_of_hides [Surrogates] (h : stage.Sound job disk) (hv : job.Visible)
    (hh : stage.Hides place) :
    ∃ k bytes, place = job.directory ++ [temporaryName job.file k] ∧
      disk.get? place = some (.file bytes) := by
  obtain ⟨temporary, ht, rfl⟩ := hh
  obtain ⟨k, bytes, rfl, -, hf⟩ := h.temporary temporary ht
  rw [hv.targets.names_temporaryPath disk k]
  exact ⟨k, bytes, rfl, hf⟩

/-- What a task relies on stays when another one takes an operation. -/
theorem sound_other [Surrogates] {stage₁ : Stage} (h : stage.Sound other disk) (ho : other.Visible)
    (hj : job.Visible) (hl : stage₁.Leaves stage' job disk after)
    (hapart : ∀ place, stage.Hides place → ¬ stage₁.Hides place) : stage.Sound other after where
  directory hi := hl.touches.directory _ (h.directory hi)
  temporary temporary ht := by
    obtain ⟨k, bytes, rfl, ha, hf⟩ := h.temporary temporary ht
    have hhome : after.homePath = disk.homePath := by
      unfold homePath
      rw [hl.touches.home]
    refine ⟨k, bytes, by rw [hhome], ha, (hl.touches.file_iff ?_).mpr hf⟩
    rintro (hown | hhides | ⟨-, hn⟩)
    · exact hj.ne_temporary hown rfl
    · exact hapart _ ⟨_, ht, (ho.targets.names_temporaryPath disk k).symm⟩ hhides
    · rw [hf] at hn
      cases hn

/-! ## All tasks -/

/-- A task that has a text for a file that is not hidden. -/
structure Task.Writing (task : Task) : Prop where
  content : task.job.content = .ok task.content
  visible : task.job.Visible

theorem Task.Writing.hasText {task : Task} (h : task.Writing) : task.job.HasText :=
  ⟨_, h.content⟩

/-- A task that has failed, or that has a text and finds what it relies on. -/
def Task.Sound [Surrogates] (task : Task) (disk : Disk) : Prop :=
  task.Failed ∨ task.Writing ∧ task.stage.Sound task.job disk

/-- All tasks of a pool find what they rely on. -/
structure Pool.Sound [Surrogates] (tasks : List Task) (disk : Disk) : Prop where
  wellFormed : disk.WellFormed
  task : ∀ task ∈ tasks, task.Sound disk
  apart : tasks.Pairwise Task.HidesApart

theorem pool_sound_next [Surrogates] {before rest : List Task} {task : Task}
    (h : Pool.Sound (before ++ task :: rest) disk) :
    Pool.Sound (before ++ (task.next options disk).1 :: rest) (task.next options disk).2 := by
  rcases h.task task (by simp) with ⟨-, result, hd, -⟩ | ⟨hw, hsound⟩
  · rw [next_of_done hd]
    exact h
  have hv := hw.visible
  have hstep := Task.step_advance options task disk
  obtain ⟨hleaves, hsound'⟩ : task.stage.Leaves _ task.job disk (task.next options disk).2 ∧ _ :=
    sound_step hsound h.wellFormed hv hstep
  obtain ⟨hothers, hapart⟩ := hidesApart_next h.apart fun place hh =>
    (hides_step hstep hh).imp_right fun hnone u hu hu' => by
      rcases h.task u (mem_beside hu) with hfailed | ⟨huw, hus⟩
      · exact hfailed.not_hides place hu'
      · obtain ⟨k, bytes, -, hf⟩ := file_of_hides hus huw.visible hu'
        rw [hnone] at hf
        cases hf
  have hkeep : ∀ u ∈ before ++ rest, u.Sound (task.next options disk).2 := by
    intro u hu
    rcases h.task u (mem_beside hu) with hfailed | ⟨huw, hus⟩
    · exact .inl hfailed
    · exact .inr ⟨huw, sound_other hus huw.visible hv hleaves (hothers u hu)⟩
  exact ⟨hleaves.touches.wellFormed,
    forall_mem_beside hkeep (.inr ⟨⟨hw.content, hv⟩, hsound'⟩), hapart⟩

/-- A job whose text is there writes to a file that is not hidden. -/
def Job.Proper (job : Job) : Prop := (∃ e, job.content = .error e) ∨ job.Visible

theorem Job.Proper.visible (h : job.Proper) (hc : job.HasText) : job.Visible := by
  rcases h with ⟨e, he⟩ | hv
  · obtain ⟨content, hok⟩ := hc
    rw [he] at hok
    cases hok
  · exact hv

theorem pool_sound_start [Surrogates] (wf : disk.WellFormed) (hj : ∀ job ∈ jobs, job.Proper) :
    Pool.Sound (jobs.map Job.task) disk := by
  refine ⟨wf, List.forall_mem_map.mpr fun job hm => ?_, List.pairwise_map.mpr
    (List.pairwise_of_forall fun job _ place hh => absurd hh (not_hides_task job place))⟩
  cases hc : job.content with
  | error e =>
    rw [Task.task_of_error hc]
    exact .inl ⟨⟨e, hc⟩, _, rfl, rfl⟩
  | ok content =>
    rw [Task.task_of_ok hc]
    exact .inr ⟨⟨hc, (hj job hm).visible ⟨content, hc⟩⟩, nofun, nofun⟩

theorem writeAllBy_wellFormed [Surrogates] {workers : Option Nat} {turns : List Nat}
    (wf : disk.WellFormed) (hj : ∀ job ∈ jobs, job.Proper) :
    (writeAllBy workers turns options jobs disk).2.WellFormed := by
  obtain ⟨tasks, -, -, hsound⟩ := writeAllBy_induction workers turns options Pool.Sound
    (fun before task rest disk hp => pool_sound_next hp) (pool_sound_start wf hj)
  exact hsound.wellFormed

end Output

end DomainCodegen
