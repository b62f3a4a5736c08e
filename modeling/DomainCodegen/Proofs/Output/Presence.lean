import DomainCodegen.Proofs.Output.Done

/-!
# Files that are there when their tasks are done

A task that fails has met something that lasts: its text cannot be encoded, or no path leads to its
target. A task that does not fail leaves its target a file. So when all tasks are done, every target
that can be written is there, whatever turns they took (`present_of_writeAllBy`). Only the names of
temporary files are given back, so there must be enough of them.
-/

namespace DomainCodegen.Output

variable [Surrogates]

open Disk

variable {disk start after : Disk} {options : OutputOptions} {job other : Job} {jobs : List Job}
  {stage stage' : Stage} {task : Task} {tasks before rest : List Task} {dir place : Location}
  {name content : String} {p : Path} {workers : Option Nat} {turns : List Nat}

/-! ## Tasks and the disk that they began on -/

/-- Tasks that began on a disk: what was there lasts, and temporary files are where nothing was. -/
structure Pool.Since (start : Disk) (tasks : List Task) (disk : Disk) : Prop
    extends Pool.Sound tasks disk where
  lasts : Lasts start disk
  free : ∀ task ∈ tasks, ∀ place, task.stage.Hides place → start.get? place = none

theorem since_start (wf : start.WellFormed) (hj : ∀ job ∈ jobs, job.Proper) :
    Pool.Since start (jobs.map Job.task) start where
  toSound := pool_sound_start wf hj
  lasts := Lasts.refl start
  free := List.forall_mem_map.mpr fun job _ place hh => absurd hh (not_hides_task job place)

theorem since_next (h : Pool.Since start (before ++ task :: rest) disk) :
    Pool.Since start (before ++ (task.next options disk).1 :: rest)
      (task.next options disk).2 := by
  have hm : task ∈ before ++ task :: rest := by simp
  rcases h.task task hm with ⟨-, result, hd, -⟩ | ⟨hw, hsound⟩
  · rw [next_of_done hd]
    exact h
  have hstep := Task.step_advance options task disk
  obtain ⟨hleaves, -⟩ : task.stage.Leaves _ task.job disk (task.next options disk).2 ∧ _ :=
    sound_step hsound h.wellFormed hw.visible hstep
  have hnone := h.free task hm
  refine ⟨pool_sound_next h.toSound, ⟨⟨hleaves.touches.home.trans h.lasts.home, fun place hp =>
      hleaves.touches.directory place (h.lasts.directory place hp)⟩, fun place bytes hf => ?_⟩,
    forall_mem_beside (fun u hu => h.free u (mem_beside hu)) fun place hh => ?_⟩
  · obtain ⟨bytes', hf'⟩ := h.lasts.file place bytes hf
    refine hleaves.file place bytes' hf' fun hh => ?_
    rw [hnone place hh] at hf
    cases hf
  · rcases hides_step hstep hh with hold | hfree
    · exact hnone place hold
    · exact h.lasts.eq_none hfree

/-- Whatever turns the tasks take, what was there lasts. -/
theorem writeAllBy_lasts (workers : Option Nat) (turns : List Nat) (options : OutputOptions)
    (wf : disk.WellFormed) (hj : ∀ job ∈ jobs, job.Proper) :
    Lasts disk (writeAllBy workers turns options jobs disk).2 := by
  obtain ⟨tasks, -, -, hsince⟩ := writeAllBy_induction workers turns options (Pool.Since disk)
    (fun _ _ _ _ h => since_next h) (since_start wf hj)
  exact hsince.lasts

/-! ## Targets that can be written -/

theorem isSome_of_holds (hb : disk.Beside dir name p) (h : disk.holds p = .ok true) :
    (disk.get? (dir ++ [name])).isSome := by
  obtain ⟨place, hl, hs⟩ := exists_place_of_holds h
  obtain ⟨rfl, -, -⟩ := locate_eq_ok hb.straight hl
  rwa [hb.place] at hs

theorem isSome_of_isFile (hb : disk.Beside dir name p) (h : disk.isFile p = .ok true) :
    (disk.get? (dir ++ [name])).isSome := by
  obtain ⟨place, bytes, hl, hf⟩ := locate_of_isFile h
  obtain ⟨rfl, -, -⟩ := locate_eq_ok hb.straight hl
  rw [← hb.place, hf]
  rfl

/-- The text of a job can be written, once there is a name for a temporary file. -/
structure Job.CanWrite (options : OutputOptions) (job : Job) (disk : Disk) : Prop where
  way : disk.Open job.directory
  fits : job.path.Fits
  target : disk.get? job.target ≠ some .directory
  temporary : options.atomic = true → (temporaryPath disk.homePath job.path 0).Fits
  bytes : (job.bytes? options).isSome

/-- The file of a job is there if it can be written. -/
def Job.Present (options : OutputOptions) (job : Job) (disk : Disk) : Prop :=
  job.CanWrite options disk → (disk.get? job.target).isSome

theorem canWrite_of_writes {bytes : List UInt8} (h : job.Writes options disk bytes) :
    job.CanWrite options disk where
  way := h.1.way
  fits := h.1.fits
  target := h.1.target
  temporary ha := by
    obtain ⟨k, hk, hfits, -⟩ := h.1.temporary ha
    exact temporaryPath_fits rfl hk (by decide) hfits
  bytes := by
    rw [h.2]
    rfl

omit [Surrogates] in
/-- A task of a job may take a temporary file away, but nothing that another job needs. -/
structure Job.Lasts (job : Job) (disk after : Disk) : Prop extends Stands disk after where
  file : ∀ place, place <+: job.target → ∀ bytes, disk.get? place = some (.file bytes) →
    ∃ bytes', after.get? place = some (.file bytes')

omit [Surrogates] in
theorem Job.Lasts.isSome (h : job.Lasts disk after) (hs : (disk.get? job.target).isSome) :
    (after.get? job.target).isSome := by
  cases he : disk.get? job.target with
  | none =>
    rw [he] at hs
    cases hs
  | some entry =>
    cases entry with
    | directory =>
      rw [h.directory _ he]
      rfl
    | file bytes =>
      obtain ⟨bytes', hf⟩ := h.file _ List.prefix_rfl bytes he
      rw [hf]
      rfl

theorem Job.Lasts.canWrite (h : job.Lasts disk after) (hc : job.CanWrite options after) :
    job.CanWrite options disk where
  way front hf bytes hb := by
    obtain ⟨bytes', hb'⟩ := h.file front (hf.trans (List.prefix_append _ _)) bytes hb
    exact hc.way front hf bytes' hb'
  fits := hc.fits
  target hd := hc.target (h.directory _ hd)
  temporary ha := by
    have hfits := hc.temporary ha
    unfold homePath at hfits ⊢
    rwa [h.home] at hfits
  bytes := hc.bytes

/-- No temporary file of a job is on the way to the file of another one. -/
def Job.Clears (job other : Job) : Prop :=
  ∀ k, ¬ job.directory ++ [temporaryName job.file k] <+: other.directory

omit [Surrogates] in
theorem clears_self (job : Job) : job.Clears job := fun _ => append_singleton_not_prefix

theorem lasts_of_leaves (hs : stage.Sound job disk) (hv : job.Visible) (ho : other.Visible)
    (hclear : job.Clears other) (hl : stage.Leaves stage' job disk after) :
    other.Lasts disk after where
  home := hl.touches.home
  directory := hl.touches.directory
  file place hp bytes hf := by
    refine hl.file place bytes hf fun hh => ?_
    obtain ⟨k, -, rfl, -⟩ := file_of_hides hs hv hh
    rcases List.prefix_concat_iff.mp hp with he | hp
    · exact ho.ne_temporary (.inl rfl) he.symm
    · exact hclear k hp

/-! ## One operation -/

/-- What is known at a stage of whether the file of a job is there, or can be written at all. -/
def Stage.Presents (options : OutputOptions) (job : Job) (disk : Disk) : Stage → Prop
  | search | copy _ | fillTarget _ => (disk.get? job.target).isSome
  | fillTemporary _ _ => options.atomic = true
  | clearTemporary _ _ => ¬ job.CanWrite options disk
  | done _ => job.Present options disk
  | _ => True

theorem presents_of_lasts (h : stage.Presents options job disk) (hl : job.Lasts disk after) :
    stage.Presents options job after := by
  cases stage with
  | search => exact hl.isSome h
  | copy => exact hl.isSome h
  | fillTarget => exact hl.isSome h
  | clearTemporary => exact fun hc => h (hl.canWrite hc)
  | done => exact fun hc => hl.isSome (h (hl.canWrite hc))
  | _ => exact h

theorem isSome_of_isTaken (h : stage.Presents options job disk) (ht : stage.isTaken = true) :
    (disk.get? job.target).isSome := by
  cases stage with
  | search => exact h
  | copy => exact h
  | fillTarget => exact h
  | _ => cases ht

theorem bytes?_of_encode {fault : SaveFault} (hc : job.content = .ok content)
    (he : (saveMode options).encode content = .error fault)
    (hm : options.atomic = true ∨ (saveMode options).isRefusedAtOnce = true) :
    job.bytes? options = none := by
  unfold Job.bytes? SaveMode.written
  rw [hc]
  simp only [he]
  exact if_pos (by simpa [saveMode] using hm)

/-! ## What does not fail for a job that can write -/

section

variable {fault : Fault} {met : SaveFault} {temporary : Path} {bytes : List UInt8}

theorem Job.CanWrite.holds_ne_error (h : job.CanWrite options disk) (hv : job.Visible)
    (wf : disk.WellFormed) : disk.holds job.path ≠ .error fault := by
  have hhold := holds_of_fits wf (hv.targets.beside disk).straight h.fits
  rw [hhold]
  exact nofun

theorem Job.CanWrite.makeDirectories_ne_error (h : job.CanWrite options disk) (hv : job.Visible)
    (wf : disk.WellFormed) : disk.makeDirectories job.path.parent ≠ (.error fault, after) := by
  intro hm
  have hb := hv.targets.beside disk
  have hmade := makeDirectories_made wf hb.parent_straight
  rw [hb.parent_place, hm] at hmade
  have hok : (.error fault : Except Fault Unit) = .ok () :=
    hmade.ok_iff.mpr ⟨h.fits.parent hv.targets.isAbsolute, h.way⟩
  cases hok

theorem Job.CanWrite.freeTemporary_ne_error (h : job.CanWrite options disk) (hv : job.Visible)
    (hr : disk.Room job.directory) (ha : options.atomic = true)
    (hfree : ∃ k < temporaryLimit,
      disk.get? (job.directory ++ [temporaryName job.file k]) = none) :
    disk.freeTemporary job.path ≠ .error met := by
  obtain ⟨k, hk, hn⟩ := hfree
  have hfits := temporaryPath_fits rfl (by decide) hk (h.temporary ha)
  obtain ⟨l, -, hl⟩ := exists_freeTemporary hr (hv.targets.beside disk) hk hfits hn
  rw [hl]
  exact nofun

theorem Job.CanWrite.createFile_ne_error (h : job.CanWrite options disk) (hv : job.Visible)
    (hr : disk.Room job.directory) (ha : options.atomic = true)
    (hf : disk.freeTemporary job.path = .ok temporary) :
    disk.createFile temporary ≠ .error fault := by
  have hb := hv.targets.beside disk
  obtain ⟨fault, hk⟩ | ⟨k, hk, hfree, htemporary⟩ := freeTemporary_cases hb
  · rw [hf] at hk
    cases hk
  · rw [hf] at htemporary
    cases htemporary
    have hfits := temporaryPath_fits rfl (by decide) hk (h.temporary ha)
    rw [(hb.temporary k).createFile hr hfree, accept_eq_ok_iff.mpr hfits]
    exact nofun

theorem Job.CanWrite.writeFile_ne_error (h : job.CanWrite options disk) (hv : job.Visible)
    (hr : disk.Room job.directory) : disk.writeFile job.path bytes ≠ .error fault := by
  have hne : disk.get? (job.directory ++ [job.file]) ≠ some .directory := h.target
  rw [(hv.targets.beside disk).writeFile hr, accept_eq_ok_iff.mpr h.fits]
  simp only [if_neg hne]
  exact nofun

theorem Job.CanWrite.moveFile_ne_error (h : job.CanWrite options disk) (hv : job.Visible)
    (hr : disk.Room job.directory) (ht : job.HasTemporary disk temporary) :
    disk.moveFile temporary job.path ≠ .error fault := by
  obtain ⟨k, old, -, ha, hbk, -, -, hold⟩ := place_of_hasTemporary hr hv ht
  have hne : disk.get? (job.directory ++ [job.file]) ≠ some .directory := h.target
  rw [(hv.targets.beside disk).moveFile hr hbk ha hold, accept_eq_ok_iff.mpr h.fits]
  simp only [if_neg hne]
  exact nofun

/-- A temporary file that is there can be filled. -/
theorem Job.HasTemporary.writeFile_ne_error (h : job.HasTemporary disk temporary)
    (hv : job.Visible) (hr : disk.Room job.directory) :
    disk.writeFile temporary bytes ≠ .error fault := by
  obtain ⟨k, old, -, ha, hbk, -, -, hold⟩ := place_of_hasTemporary hr hv h
  have hne : disk.get? (job.directory ++ [temporaryName job.file k]) ≠ some .directory := by
    simp [hold]
  rw [hbk.writeFile hr, ha]
  simp only [if_neg hne]
  exact nofun

theorem Job.CanWrite.encode_ne_error (h : job.CanWrite options disk)
    (hc : job.content = .ok content)
    (hm : options.atomic = true ∨ (saveMode options).isRefusedAtOnce = true) :
    (saveMode options).encode content ≠ .error met := by
  intro he
  have hbytes := h.bytes
  rw [bytes?_of_encode hc he hm] at hbytes
  cases hbytes

end

/-- An operation that ends in failure has met something that lasts. -/
theorem presents_step (h : stage.Presents options job disk) (hs : stage.Sound job disk)
    (wf : disk.WellFormed) (hv : job.Visible) (hc : job.content = .ok content)
    (hfree : ∀ success, stage = .openFile success → ∃ k < temporaryLimit,
      disk.get? (job.directory ++ [temporaryName job.file k]) = none)
    (hstep : Step options job content disk stage stage' after) :
    stage'.Presents options job after := by
  have hb := hv.targets.beside disk
  have hroom (hi : stage.isInside = true) : disk.Room job.directory := ⟨wf, hs.directory hi⟩
  obtain ⟨hleaves, -⟩ := sound_step hs wf hv hstep
  have hlasts : job.Lasts disk after := lasts_of_leaves hs hv hv (clears_self job) hleaves
  cases hstep with
  | unseen fault hh => exact fun hcan => absurd hh (hcan.holds_ne_error hv wf)
  | kept hh ho => exact fun _ => isSome_of_holds hb hh
  | wanted hh ho hbackup => exact isSome_of_holds hb hh
  | failed fault ht => exact fun _ => isSome_of_isTaken h ht
  | found index hi => exact h
  | unmade fault hm =>
    exact fun hcan => absurd hm ((hlasts.canWrite hcan).makeDirectories_ne_error hv wf)
  | noTemporary ha fault hf =>
    exact fun hcan => absurd hf (hcan.freeTemporary_ne_error hv (hroom rfl) ha (hfree _ rfl))
  | notCreated ha fault hf hcreate =>
    exact fun hcan => absurd hcreate (hcan.createFile_ne_error hv (hroom rfl) ha hf)
  | openedTemporary ha hf hcreate => exact ha
  | refused ha fault hm =>
    obtain ⟨fault, he⟩ : ∃ fault, (saveMode options).encode content = .error fault :=
      encode_of_isRefusedAtOnce hm
    exact fun hcan => absurd he (hcan.encode_ne_error hc (.inr hm))
  | notOpened ha fault hw => exact fun hcan => absurd hw (hcan.writeFile_ne_error hv (hroom rfl))
  | openedTarget ha hm hw =>
    obtain ⟨-, rfl⟩ := writeFile_here hb hw
    show (_ : Option Entry).isSome
    rw [Job.target, get?_set_self]
    rfl
  | notEncoded fault he => exact fun hcan => absurd he (hcan.encode_ne_error hc (.inl h))
  | notFilled bytes fault hw =>
    exact absurd hw ((hs.temporary _ rfl).writeFile_ne_error hv (hroom rfl))
  | notMoved fault hm =>
    exact fun hcan => absurd hm (hcan.moveFile_ne_error hv (hroom rfl) (hs.temporary _ rfl))
  | @moved temporary success after hm =>
    obtain ⟨-, hfile⟩ : (Stage.moveTemporary temporary success).Leaves _ job disk after ∧ _ :=
      sound_moved wf (hs.directory rfl) hv (hs.temporary _ rfl) hm
    exact fun _ => isSome_of_isFile (hv.targets.beside after) hfile
  | cleared fault => exact fun hcan => absurd (hlasts.canWrite hcan) h
  | filledTarget bytes hw => exact fun _ => hlasts.isSome h
  | ended => exact h
  | _ => trivial

/-! ## Names of temporary files -/

/-- The place of a temporary file of a job. -/
def Job.temporaryAt (job : Job) (k : Nat) : Location :=
  job.directory ++ [temporaryName job.file k]

/-- What a task has taken away is not there. -/
theorem gone_step (hs : stage.Sound job disk) (wf : disk.WellFormed) (hv : job.Visible)
    (hstep : Step options job content disk stage stage' after) (hh : stage.Hides place) :
    stage'.Hides place ∨ after.get? place = none := by
  obtain ⟨temporary, ht, rfl⟩ := hh
  have hroom (hi : stage.isInside = true) : disk.Room job.directory := ⟨wf, hs.directory hi⟩
  cases hstep with
  | notEncoded | notFilled | filled | notMoved => exact .inl ⟨temporary, ht, rfl⟩
  | moved hm =>
    obtain ⟨k, old, -, -, -, hlocate, hnames, -⟩ :=
      place_of_hasTemporary (hroom rfl) hv (hs.temporary temporary ht)
    obtain rfl := Option.some.inj ht
    obtain ⟨origin, place, bytes, ho, -, hl, -, rfl⟩ := moveFile_eq_ok hm
    obtain rfl : origin = _ := Except.ok.inj (ho.symm.trans hlocate)
    have hb := hv.targets.beside disk
    obtain ⟨rfl, -, -⟩ := locate_eq_ok hb.straight hl
    rw [hnames, hb.place, get?_set_append, if_neg, get?_erase append_singleton_ne_nil, if_pos rfl]
    · exact .inr rfl
    · exact (hv.ne_temporary (.inl rfl)).symm
  | cleared fault =>
    obtain ⟨k, old, -, -, -, hlocate, hnames, -⟩ :=
      place_of_hasTemporary (hroom rfl) hv (hs.temporary temporary ht)
    obtain rfl := Option.some.inj ht
    rw [removeFile_of_locate hlocate, hnames, get?_erase append_singleton_ne_nil, if_pos rfl]
    exact .inr rfl
  | failed fault h =>
    cases stage with
    | search => cases ht
    | copy => cases ht
    | fillTarget => cases ht
    | _ => cases h
  | _ => cases ht

/-- So many names of temporary files of a job are free. -/
def Job.Spares (job : Job) (count : Nat) (disk : Disk) : Prop :=
  ∃ numbers : List Nat, numbers.Nodup ∧ count < numbers.length ∧
    ∀ k ∈ numbers, k < temporaryLimit ∧ disk.get? (job.temporaryAt k) = none

/-- The places of the temporary files of tasks. -/
def hiddenPlaces (tasks : List Task) : List Location :=
  tasks.filterMap fun task => task.stage.temporary?.map Path.names

omit [Surrogates] in
theorem mem_hiddenPlaces (h : ∃ u ∈ tasks, u.stage.Hides place) : place ∈ hiddenPlaces tasks := by
  obtain ⟨u, hu, temporary, ht, rfl⟩ := h
  exact List.mem_filterMap.mpr ⟨u, hu, by rw [ht]; rfl⟩

omit [Surrogates] in
/-- Each task has one temporary file at most, so that a name is left. -/
theorem exists_free (hspare : job.Spares tasks.length start)
    (hfreed : ∀ k, disk.get? (job.temporaryAt k) = start.get? (job.temporaryAt k) ∨
      ∃ u ∈ tasks, u.stage.Hides (job.temporaryAt k)) :
    ∃ k < temporaryLimit, disk.get? (job.temporaryAt k) = none := by
  obtain ⟨numbers, hnodup, hlen, hnumbers⟩ := hspare
  by_contra hnone
  have hhidden : numbers.map job.temporaryAt ⊆ hiddenPlaces tasks := by
    intro place hm
    obtain ⟨k, hk, rfl⟩ := List.mem_map.mp hm
    obtain ⟨hlimit, hfree⟩ := hnumbers k hk
    refine mem_hiddenPlaces ((hfreed k).resolve_left fun he => hnone ⟨k, hlimit, ?_⟩)
    rw [he, hfree]
  have hinj : Function.Injective job.temporaryAt := fun k l h =>
    temporaryName_injective job.file (List.singleton_inj.mp (List.append_cancel_left h))
  have hle := (hnodup.map hinj).length_le_of_subset hhidden
  have hcount : (hiddenPlaces tasks).length ≤ tasks.length := List.length_filterMap_le _ _
  rw [List.length_map] at hle
  omega

/-! ## All tasks -/

/-- What it takes for tasks to leave nothing unwritten that can be written: no temporary file is on
the way to a target, and there are names for one more of them than there are jobs. -/
structure Ample (jobs : List Job) (disk : Disk) : Prop where
  clears : ∀ job ∈ jobs, ∀ other ∈ jobs, job.HasText → other.HasText → job.Clears other
  spares : ∀ job ∈ jobs, job.HasText → job.Spares jobs.length disk

/-- Tasks of jobs that are under way since a disk, with what is known of their targets. -/
structure Pool.Presents (options : OutputOptions) (jobs : List Job) (start : Disk)
    (tasks : List Task) (disk : Disk) : Prop extends Pool.Since start tasks disk where
  jobs_eq : tasks.map Task.job = jobs
  freed : ∀ job ∈ jobs, job.HasText → ∀ k,
    disk.get? (job.temporaryAt k) = start.get? (job.temporaryAt k) ∨
      ∃ u ∈ tasks, u.stage.Hides (job.temporaryAt k)
  presents : ∀ u ∈ tasks, u.Writing → u.stage.Presents options u.job disk

theorem presents_start (wf : start.WellFormed) (hj : ∀ job ∈ jobs, job.Proper) :
    Pool.Presents options jobs start (jobs.map Job.task) start where
  toSince := since_start wf hj
  jobs_eq := Task.map_job_task jobs
  freed _ _ _ _ := .inl rfl
  presents := List.forall_mem_map.mpr fun job _ hw => by
    have hc := hw.content
    rw [Task.job_task] at hc
    rw [Task.task_of_ok hc]
    trivial

theorem presents_next (hample : Ample jobs start)
    (h : Pool.Presents options jobs start (before ++ task :: rest) disk) :
    Pool.Presents options jobs start (before ++ (task.next options disk).1 :: rest)
      (task.next options disk).2 := by
  have hm : task ∈ before ++ task :: rest := by simp
  rcases h.task task hm with ⟨-, result, hd, -⟩ | ⟨hw, hsound⟩
  · rw [next_of_done hd]
    exact h
  have hmem : ∀ u ∈ before ++ task :: rest, u.job ∈ jobs := fun u hu => by
    rw [← h.jobs_eq]
    exact List.mem_map_of_mem hu
  have hstep := Task.step_advance options task disk
  obtain ⟨hleaves, -⟩ : task.stage.Leaves _ task.job disk (task.next options disk).2 ∧ _ :=
    sound_step hsound h.wellFormed hw.visible hstep
  refine ⟨since_next h.toSince, ?_, fun job hj' hc k => ?_,
    forall_mem_beside (fun u hu huw => ?_) fun hw' => ?_⟩
  · rw [← h.jobs_eq, List.map_append, List.map_append]
    rfl
  · by_cases hnew : (task.next options disk).1.stage.Hides (job.temporaryAt k)
    · exact .inr ⟨_, by simp, hnew⟩
    by_cases hold : task.stage.Hides (job.temporaryAt k)
    · refine .inl ?_
      rw [h.free task hm _ hold]
      exact (gone_step hsound h.wellFormed hw.visible hstep hold).resolve_left hnew
    have hentry := hleaves.touches.entry (job.temporaryAt k) fun ho => by
      rcases ho with ho | ho | ⟨ho, -⟩
      · exact hw.visible.ne_temporary ho rfl
      · exact hold ho
      · exact hnew ho
    have hclear := hample.clears job hj' _ (hmem task hm) hc hw.hasText k
    rw [hentry.resolve_right fun hway => hclear hway.1]
    refine (h.freed job hj' hc k).imp_right fun ⟨u, hu, hh⟩ => ?_
    rcases List.mem_append.mp hu with hu | hu
    · exact ⟨u, by simp [hu], hh⟩
    rcases List.mem_cons.mp hu with rfl | hu
    · exact absurd hh hold
    · exact ⟨u, by simp [hu], hh⟩
  · have hlasts : u.job.Lasts disk (task.next options disk).2 :=
      lasts_of_leaves hsound hw.visible huw.visible
        (hample.clears _ (hmem task hm) _ (hmem u (mem_beside hu)) hw.hasText huw.hasText) hleaves
    exact presents_of_lasts (h.presents u (mem_beside hu) huw) hlasts
  · refine presents_step (h.presents task hm hw) hsound h.wellFormed hw.visible hw.content
      (fun success _ => ?_) hstep
    have hspare := hample.spares _ (hmem task hm) hw.hasText
    rw [← h.jobs_eq, List.length_map] at hspare
    exact exists_free hspare (h.freed _ (hmem task hm) hw.hasText)

/-- When all tasks are done, the targets that can be written are there. -/
theorem present_of_writeAllBy (wf : disk.WellFormed) (hj : ∀ job ∈ jobs, job.Proper)
    (hample : Ample jobs disk) :
    ∀ job ∈ jobs, job.Present options (writeAllBy workers turns options jobs disk).2 := by
  obtain ⟨tasks, hdone, -, hpresents⟩ := writeAllBy_induction workers turns options
    (Pool.Presents options jobs disk) (fun _ _ _ _ h => presents_next hample h)
    (presents_start wf hj)
  intro job hm
  rw [← hpresents.jobs_eq] at hm
  obtain ⟨task, ht, rfl⟩ := List.mem_map.mp hm
  rcases hpresents.task task ht with ⟨⟨e, he⟩, -⟩ | ⟨hw, -⟩
  · intro hcan
    have hbytes := hcan.bytes
    rw [Job.bytes?, he] at hbytes
    cases hbytes
  · obtain ⟨result, hd⟩ := hdone task ht
    have hpresent := hpresents.presents task ht hw
    rwa [hd] at hpresent

end DomainCodegen.Output
