import DomainCodegen.Proofs.Layout
import DomainCodegen.Proofs.Output.Overlap

/-!
# No content is lost

Runs that back up what they overwrite never lose the bytes of a file. `performAll_keeps` follows a
file through any number of runs: its bytes stay in its directory, under its name or under that of a
backup, which may have been backed up in turn. Runs that do not overwrite leave it alone.
-/

namespace DomainCodegen

open Disk Output

variable {disk : Disk} {config : Config} {dir : Location} {name : String} {bytes : List UInt8}

/-! ## Files and their backups -/

/-- Some bytes are in a file of a name, in a backup of it, or in a backup of a backup. -/
def Disk.Keeps (disk : Disk) (dir : Location) (name : String) (bytes : List UInt8) : Prop :=
  ∃ indices : List Nat, disk.get? (dir ++ [indices.foldl backupName name]) = some (.file bytes)

/-- A job that has no text, or one that writes to a place below the top. -/
def Output.Job.Placed (job : Job) : Prop :=
  (∃ e, job.content = .error e) ∨ ∃ dir name, job.Targets dir name

namespace Output

variable [Surrogates] {options : OutputOptions} {job : Job}

theorem settle_wellFormed (wf : disk.WellFormed) (hj : job.Placed) :
    (job.settle options disk).2.WellFormed := by
  rcases hj with ⟨e, he⟩ | ⟨dir, name, ht⟩
  · rw [(settle_of_error he).2]
    exact wf
  · exact (settle_touches wf ht).wellFormed

theorem settle_file {place : Location} (wf : disk.WellFormed) (hj : job.Placed)
    (ho : options.overwrite = false) (hf : disk.get? place = some (.file bytes)) :
    (job.settle options disk).2.get? place = some (.file bytes) := by
  rcases hj with ⟨e, he⟩ | ⟨dir, name, ht⟩
  · rw [(settle_of_error he).2]
    exact hf
  · rcases settle_keeps wf ht (.inl ho) hf with h | ⟨ho', -⟩
    · exact h
    · rw [ho] at ho'
      cases ho'

/-- One job keeps the bytes, in one more backup if it overwrites them. -/
theorem settle_preserves (wf : disk.WellFormed) (hj : job.Placed)
    (hpolicy : options.overwrite = false ∨ options.backup = true)
    (hk : disk.Keeps dir name bytes) : (job.settle options disk).2.Keeps dir name bytes := by
  obtain ⟨indices, hf⟩ := hk
  rcases hj with ⟨e, he⟩ | ⟨front, last, ht⟩
  · rw [(settle_of_error he).2]
    exact ⟨indices, hf⟩
  rcases settle_keeps wf ht hpolicy hf with h | ⟨-, hp, k, hb⟩
  · exact ⟨indices, h⟩
  · obtain ⟨rfl, hlast⟩ := List.append_inj' hp rfl
    obtain rfl : indices.foldl backupName name = last := by simpa using hlast
    refine ⟨indices ++ [k], ?_⟩
    rw [List.foldl_append]
    exact hb

end Output

/-! ## Jobs of artifacts -/

theorem Output.Job.Proper.placed {job : Job} (h : job.Proper) : job.Placed :=
  h.imp_right fun hv => ⟨_, _, hv.targets⟩

/-- A job for the file of a class writes a file that is not hidden. -/
theorem visible_of_isStem {root : Path} {job : Job} {className package : String}
    (h : IsStem className) (habs : root.isAbsolute = true) (hup : ".." ∉ root.names)
    (hext : '/' ∉ config.output.extension.toList)
    (hpath : job.path = Layout.file config root package className) : job.Visible := by
  have ht := targets_of_isStem h hext habs hup hpath
  refine ⟨ht.own, ?_⟩
  rw [ht.file_eq]
  exact h.head?_ne_dot _

/-- A job for the file of a class, if it has a text. -/
def Output.Job.IsOfClass (job : Job) (config : Config) (root : Path) : Prop :=
  ∃ package className, job.path = Layout.file config root package className ∧
    (job.HasText → IsStem className)

theorem isOfClass_artifact (config : Config) (root : Path) (a : Artifact) :
    (a.job config root).IsOfClass config root :=
  ⟨a.package, a.className, rfl, fun ⟨_, hc⟩ => Artifact.isStem_of_render hc⟩

theorem isOfClass_draft (config : Config) (root : Path) (d : Artifact.Draft) :
    (d.job config root).IsOfClass config root := by
  refine ⟨d.package, d.shownClass, rfl, fun ⟨content, hr⟩ => ?_⟩
  obtain ⟨className, hc, hstem⟩ := Artifact.Draft.exists_stem_of_render hr
  unfold Artifact.Draft.shownClass
  rwa [hc, Option.getD_some]

theorem Output.Job.IsOfClass.proper {root : Path} {job : Job} (h : job.IsOfClass config root)
    (habs : root.isAbsolute = true) (hup : ".." ∉ root.names)
    (hext : '/' ∉ config.output.extension.toList) : job.Proper := by
  obtain ⟨package, className, hpath, hstem⟩ := h
  cases hc : job.content with
  | error e => exact .inl ⟨e, hc⟩
  | ok content => exact .inr (visible_of_isStem (hstem ⟨content, hc⟩) habs hup hext hpath)

/-- Without `/` in the extension a job writes to the class with the extension, and else to a name
that the extension gives alone. Neither is the name of a temporary file of another job. -/
theorem avoids_of_isOfClass {root : Path} {job other : Job} (h : job.IsOfClass config root)
    (ho : other.IsOfClass config root) (hc : job.HasText) (hco : other.HasText) :
    job.Avoids other := by
  obtain ⟨first, others, hnames⟩ := exists_names_of_ending config.output.extension
  have hname : ∀ package className, IsStem className →
      (Layout.file config root package className).name =
        ((className ++ String.ofList first) :: others).getLast?.getD "" := by
    intro package className hs
    unfold Layout.file Path.name
    rw [hnames className hs, Path.join_of_isRelative rfl]
    show (_ ++ (className ++ String.ofList first) :: others).getLast?.getD "" = _
    rw [List.getLast?_append_of_ne_nil _ (by simp)]
  obtain ⟨package, className, hpath, hstem⟩ := h
  obtain ⟨otherPackage, otherName, hother, hostem⟩ := ho
  intro k he
  rw [hpath, hother, hname _ _ (hstem hc), hname _ _ (hostem hco)] at he
  rcases List.eq_nil_or_concat others with hn | ⟨front, last, hl⟩
  · rw [hn] at he
    have he : className ++ String.ofList first =
        temporaryName (otherName ++ String.ofList first) k := he
    refine (hstem hc).head?_ne_dot (String.ofList first) ?_
    rw [he]
    exact head?_temporaryName _ k
  · rw [hl] at he
    have hlast : ∀ name : String, (name :: front.concat last).getLast?.getD "" = last := by
      intro name
      rw [List.concat_eq_append, ← List.cons_append, List.getLast?_concat, Option.getD_some]
    rw [hlast, hlast] at he
    exact temporaryName_ne_self last k he.symm

theorem allOpen_of_isOfClass {root : Path} {jobs : List Job} (habs : root.isAbsolute = true)
    (h : ∀ job ∈ jobs, job.IsOfClass config root) : Job.AllOpen jobs where
  isAbsolute job hm := by
    obtain ⟨package, className, hpath, -⟩ := h job hm
    rw [hpath]
    exact Path.isAbsolute_join (Path.isAbsolute_join habs)
  avoids job hm other ho := avoids_of_isOfClass (h job hm) (h other ho)

/-! ## Runs -/

/-- A run leaves the disk alone or does all its jobs. -/
theorem Plan.writeJobs_cases [Surrogates] {settings : Settings} {plan : Plan} {output : Path}
    {P : Disk → Prop} {jobs : Path → List Job} (h : P disk)
    (hstep : ∀ root, disk.resolve output = .ok root →
      P (writeAll settings.config.output (jobs root) disk).2) :
    P (plan.writeJobs settings jobs output disk).2 := by
  unfold Plan.writeJobs Plan.outputRoot
  cases hr : disk.resolve output with
  | error fault => exact h
  | ok root =>
    cases settings.checkOutput "overwrite" with
    | error e => exact h
    | ok u =>
    cases settings.checkWorkers with
    | error e => exact h
    | ok u =>
      have hrun : writeAllBy settings.workers [] settings.config.output (jobs root) disk = _ :=
        writeAllBy_single (.inl rfl)
      dsimp only
      rw [hrun]
      exact hstep root hr

/-- A run that writes artifacts, or drafts of some, below an output directory. -/
structure WriteRun where
  settings : Settings
  plan : Plan
  units : List (Artifact ⊕ Artifact.Draft)
  output : Path

namespace WriteRun

section

variable [Surrogates]

def options (run : WriteRun) : OutputOptions := run.settings.config.output

def jobs (run : WriteRun) (root : Path) : List Job :=
  run.units.map (Sum.elim (Artifact.job run.settings.config root)
    (Artifact.Draft.job run.settings.config root))

/-- The disk after a run. -/
def perform (run : WriteRun) (disk : Disk) (turns : List Nat := []) : Disk :=
  (run.plan.writeJobs run.settings run.jobs run.output disk turns).2

/-- The disk after runs, one after the other. -/
def performAll (runs : List WriteRun) (disk : Disk) : Disk :=
  runs.foldl (fun disk run => run.perform disk) disk

variable {run : WriteRun} {runs : List WriteRun}

/-- A run that writes whole artifacts only. -/
theorem perform_artifacts (settings : Settings) (plan : Plan) (artifacts : List Artifact)
    (output : Path) (disk : Disk) :
    perform { settings, plan, units := artifacts.map .inl, output } disk =
      (plan.write settings artifacts output disk).2 := by
  unfold perform jobs Plan.write
  simp only [List.map_map]
  rfl

theorem isOfClass_of_mem_jobs (run : WriteRun) (root : Path) :
    ∀ job ∈ run.jobs root, job.IsOfClass run.settings.config root := by
  intro job hm
  obtain ⟨unit, -, rfl⟩ := List.mem_map.mp hm
  cases unit with
  | inl a => exact isOfClass_artifact _ root a
  | inr d => exact isOfClass_draft _ root d

theorem proper_of_mem_jobs {root : Path} (hext : '/' ∉ run.options.extension.toList)
    (hroot : disk.resolve run.output = .ok root) : ∀ job ∈ run.jobs root, job.Proper :=
  fun job hm => (isOfClass_of_mem_jobs run root job hm).proper (isAbsolute_of_resolve hroot)
    (up_notMem_of_resolve hroot) hext

theorem allOpen_jobs {root : Path} (hroot : disk.resolve run.output = .ok root) :
    Job.AllOpen (run.jobs root) :=
  allOpen_of_isOfClass (isAbsolute_of_resolve hroot) (isOfClass_of_mem_jobs run root)

theorem placed_of_mem_jobs {root : Path} (hext : '/' ∉ run.options.extension.toList)
    (hroot : disk.resolve run.output = .ok root) : ∀ job ∈ run.jobs root, job.Placed :=
  fun job hm => (proper_of_mem_jobs hext hroot job hm).placed

/-- What every job of a run keeps true, the run does. -/
theorem perform_induction {P : Disk → Prop} (hext : '/' ∉ run.options.extension.toList)
    (hstep : ∀ job : Job, job.Placed → ∀ disk, P disk → P (job.settle run.options disk).2)
    (h : P disk) : P (run.perform disk) := by
  refine Plan.writeJobs_cases h fun root hroot => ?_
  exact writeAll_induction (fun job hm => hstep job (placed_of_mem_jobs hext hroot job hm)) h

theorem performAll_induction {P : Disk → Prop}
    (hext : ∀ run ∈ runs, '/' ∉ run.options.extension.toList)
    (hstep : ∀ run ∈ runs, ∀ job : Job, job.Placed → ∀ disk, P disk →
      P (job.settle run.options disk).2) (h : P disk) : P (performAll runs disk) := by
  induction runs generalizing disk with
  | nil => exact h
  | cons run r ih =>
    refine ih (fun run hr => hext run (List.mem_cons_of_mem _ hr))
      (fun run hr => hstep run (List.mem_cons_of_mem _ hr)) ?_
    exact perform_induction (hext run List.mem_cons_self) (hstep run List.mem_cons_self) h

/-- No content is lost: with backups of what they overwrite, any number of runs keep the bytes of
every file, and the file itself where none of them overwrites. -/
theorem performAll_keeps (wf : disk.WellFormed)
    (hext : ∀ run ∈ runs, '/' ∉ run.options.extension.toList)
    (hpolicy : ∀ run ∈ runs, run.options.overwrite = false ∨ run.options.backup = true)
    (hf : disk.get? (dir ++ [name]) = some (.file bytes)) :
    (performAll runs disk).Keeps dir name bytes ∧
    ((∀ run ∈ runs, run.options.overwrite = false) →
      (performAll runs disk).get? (dir ++ [name]) = some (.file bytes)) := by
  constructor
  · have hstep : ∀ run ∈ runs, ∀ job : Job, job.Placed → ∀ disk : Disk,
        disk.WellFormed ∧ disk.Keeps dir name bytes →
        (job.settle run.options disk).2.WellFormed ∧
          (job.settle run.options disk).2.Keeps dir name bytes := by
      rintro run hr job hj disk ⟨wf, hk⟩
      exact ⟨settle_wellFormed wf hj, settle_preserves wf hj (hpolicy run hr) hk⟩
    exact (performAll_induction hext hstep ⟨wf, [], hf⟩).2
  · intro ho
    have hstep : ∀ run ∈ runs, ∀ job : Job, job.Placed → ∀ disk : Disk,
        disk.WellFormed ∧ disk.get? (dir ++ [name]) = some (.file bytes) →
        (job.settle run.options disk).2.WellFormed ∧
          (job.settle run.options disk).2.get? (dir ++ [name]) = some (.file bytes) := by
      rintro run hr job hj disk ⟨wf, hk⟩
      exact ⟨settle_wellFormed wf hj, settle_file wf hj (ho run hr) hk⟩
    exact (performAll_induction hext hstep ⟨wf, hf⟩).2

end

open scoped Surrogates

/-- A run that replaces a file and backs it up, without a temporary file. -/
def replacing : WriteRun where
  settings := { output := .options [("overwrite", .bool true), ("backup", .bool true),
    ("atomic_write", .bool false), ("file_extension", .string ".java")] }
  plan := { package := "a.domain", tree := ⟨⟨"a", "", .single, []⟩, true, none, []⟩ }
  units := [.inl (Artifact.wrapper "a.domain" "A" .serialNumber "" .string)]
  output := .ofString "/out"

theorem performAll_keeps_replacing :
    (performAll [replacing, replacing]
      { entries := [(["out", "A.java"], .file [65]), (["out"], .directory)] }).Keeps
        ["out"] "A.java" [65] :=
  (performAll_keeps (by decide) (by decide) (by decide) (by decide)).1

end WriteRun

end DomainCodegen
