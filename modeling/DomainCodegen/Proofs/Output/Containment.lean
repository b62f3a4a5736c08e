import DomainCodegen.Proofs.Disk.Storing
import DomainCodegen.Proofs.Output.Preservation

/-!
# Faults stay with their jobs

Whatever goes wrong in a job becomes the result of that job, and a job leaves every file a file
(`settle_kept`). A file that was written is found when a report is verified, whatever turns the
tasks take, so a run whose settings are accepted always ends with a report that is verified
(`WriteRun.writeJobs_contained`).
-/

namespace DomainCodegen

namespace Output

open Disk

variable {disk after : Disk} {options : OutputOptions} {job : Job} {jobs : List Job} {r : Result}
  {p : Path} {content : String}

/-! ## Counts -/

/-- Every result has one of the four statuses. -/
theorem Report.count_add (report : Report) :
    report.count .created + report.count .updated + report.count .skipped + report.count .failed =
      report.results.length := by
  unfold Report.count Report.byStatus
  induction report.results with
  | nil => rfl
  | cons r rest ih =>
    rw [List.length_cons, ← ih]
    cases hs : r.status <;> simp [hs] <;> omega

theorem Report.count_eq_zero {report : Report} {status : Status}
    (h : ∀ r ∈ report.results, r.status ≠ status) : report.count status = 0 := by
  unfold Report.count Report.byStatus
  rw [List.length_eq_zero_iff, List.filter_eq_nil_iff]
  intro r hr
  simpa using h r hr

theorem Report.length_written (report : Report) :
    report.written.length = report.count .created + report.count .updated := by
  unfold Report.written Report.count Report.byStatus
  induction report.results with
  | nil => rfl
  | cons r rest ih =>
    have hwritten : ∀ s : Status,
        s.isWritten = (decide (s = .created) || decide (s = .updated)) := by
      intro s
      cases s <;> rfl
    cases hs : r.status <;> simp [hs, hwritten] at ih ⊢ <;> omega

/-! ## One job -/

variable [Surrogates]

theorem backUpIf_lasts (wanted : Bool) (disk : Disk) (p : Path) :
    Lasts disk (backUpIf wanted disk p).2 := by
  have hb := backUp_lasts disk p
  unfold backUpIf
  split
  · rcases he : disk.backUp p with ⟨fault | backup, after⟩ <;>
    · rw [he] at hb
      exact hb
  · exact Lasts.refl disk

/-- What an attempt at a job leaves: everything lasts, and a file that was written is there. -/
structure KeptAs (p : Path) (disk : Disk) (r : Except SaveFault Result × Disk) : Prop where
  lasts : Lasts disk r.2
  isFile : ∀ result, r.1 = .ok result → result.status.isWritten = true → r.2.isFile p = .ok true

theorem keptAs_of_error {fault : SaveFault} (h : Lasts disk after) :
    KeptAs p disk (.error fault, after) :=
  ⟨h, nofun⟩

theorem replace_kept (options : OutputOptions) (job : Job) (content : String) (disk : Disk) :
    KeptAs job.path disk (job.replace options content disk) := by
  have hb := backUpIf_lasts options.backup disk job.path
  unfold Job.replace
  rcases he : backUpIf options.backup disk job.path with ⟨fault | backup, backed⟩ <;> rw [he] at hb
  · exact keptAs_of_error hb
  have hs := (save_kept backed (saveMode options) job.path content).of_lasts hb
  dsimp only
  rcases hr : backed.save (saveMode options) job.path content with ⟨fault | u, saved⟩ <;>
    rw [hr] at hs
  · exact keptAs_of_error hs.lasts
  · exact ⟨hs.lasts, fun _ _ _ => hs.isFile rfl⟩

theorem put_kept (options : OutputOptions) (job : Job) (content : String) (disk : Disk) :
    KeptAs job.path disk (job.put options content disk) := by
  unfold Job.put
  cases disk.holds job.path with
  | error fault => exact keptAs_of_error (Lasts.refl disk)
  | ok taken =>
  cases taken with
  | false =>
    have hs := save_kept disk (saveMode options) job.path content
    dsimp only
    rcases hr : disk.save (saveMode options) job.path content with ⟨fault | u, saved⟩ <;>
      rw [hr] at hs
    · exact keptAs_of_error hs.lasts
    · exact ⟨hs.lasts, fun _ _ _ => hs.isFile rfl⟩
  | true =>
    dsimp only
    split
    · exact replace_kept options job content disk
    · refine ⟨Lasts.refl disk, fun result hr hw => ?_⟩
      cases hr
      cases hw

/-- A job leaves every file a file, and its own is one if its result says that it was written. -/
theorem settle_kept (options : OutputOptions) (job : Job) (disk : Disk) :
    Lasts disk (job.settle options disk).2 ∧
      ((job.settle options disk).1.status.isWritten = true →
        (job.settle options disk).2.isFile job.path = .ok true) := by
  unfold Job.settle Job.write
  cases job.content with
  | error e =>
    by_cases ha : e.cause.isOfArtifact = true
    · simp only [if_pos ha]
      exact ⟨Lasts.refl disk, nofun⟩
    · simp only [if_neg ha]
      exact ⟨Lasts.refl disk, nofun⟩
  | ok content =>
    have hp := put_kept options job content disk
    dsimp only
    rcases hr : job.put options content disk with ⟨fault | result, after⟩ <;> rw [hr] at hp
    · by_cases ha : fault.isOfFile = true
      · simp only [if_pos ha]
        exact ⟨hp.lasts, nofun⟩
      · simp only [if_neg ha]
        exact ⟨hp.lasts, nofun⟩
    · exact ⟨hp.lasts, hp.isFile result rfl⟩

/-! ## All jobs -/

theorem writeAll_lasts (options : OutputOptions) (jobs : List Job) (disk : Disk) :
    Lasts disk (writeAll options jobs disk).2 :=
  writeAll_induction (P := fun after => Lasts disk after)
    (fun job _ after h => h.trans (settle_kept options job after).1) (Lasts.refl disk)

/-! ## Reports -/

theorem missing_of_found {results : List Result}
    (h : ∀ r ∈ results, disk.isFile r.path = .ok true) : Report.missing disk results = .ok [] := by
  induction results with
  | nil => rfl
  | cons r rest ih =>
    unfold Report.missing
    rw [h r List.mem_cons_self]
    exact ih fun r hr => h r (List.mem_cons_of_mem _ hr)

/-- A report of files that are all there is verified. -/
theorem verify_of_found {report : Report} (extension : String)
    (h : ∀ r ∈ report.written, disk.isFile r.path = .ok true) :
    report.verify disk extension = .ok { report with
      verification := some { expected := report.written.length
                             verified := report.written.length } } := by
  unfold Report.verify
  rw [missing_of_found h]
  unfold Report.withScan
  cases report.root <;> simp [Verification.isOk, Except.map]

end Output

/-! ## Runs -/

open Disk Output

section

variable [Surrogates] {settings : Settings} {plan : Plan} {disk : Disk} {output root : Path}

/-- The report of a run before its files are looked for. -/
def Plan.unverified (settings : Settings) (plan : Plan) (turns : List Nat) (jobs : List Job)
    (root : Path) (disk : Disk) : Report where
  results := (writeAllBy settings.workers turns settings.config.output jobs disk).1
  root := some root
  packagePath := some (plan.packagePath settings.config)

/-- A run whose settings are accepted does all jobs and verifies the report. -/
theorem Plan.writeJobs_eq {jobs : Path → List Job} {turns : List Nat}
    (ho : settings.checkOutput "overwrite" = .ok ()) (hw : settings.checkWorkers = .ok ())
    (hroot : disk.resolve output = .ok root) :
    plan.writeJobs settings jobs output disk turns =
      (((plan.unverified settings turns (jobs root) root disk).verify
          (writeAllBy settings.workers turns settings.config.output (jobs root) disk).2
          settings.config.output.extension).mapError .search,
        (writeAllBy settings.workers turns settings.config.output (jobs root) disk).2) := by
  unfold Plan.writeJobs Plan.outputRoot
  rw [hroot, ho, hw]
  rfl

theorem Plan.found_unverified {turns : List Nat} {jobs : List Job} (wf : disk.WellFormed)
    (hj : Job.AllOpen jobs) (plan : Plan) (root : Path) :
    ∀ r ∈ (plan.unverified settings turns jobs root disk).written,
      (writeAllBy settings.workers turns settings.config.output jobs disk).2.isFile r.path =
        .ok true := by
  intro r hr
  obtain ⟨hm, hs⟩ := List.mem_filter.mp hr
  exact isFile_of_writeAllBy wf hj hm hs

/-- Every file that the report says was written is found. -/
theorem Plan.writeJobs_verified (plan : Plan) {jobs : Path → List Job} {turns : List Nat}
    (ho : settings.checkOutput "overwrite" = .ok ()) (hw : settings.checkWorkers = .ok ())
    (hroot : disk.resolve output = .ok root) (wf : disk.WellFormed)
    (hj : Job.AllOpen (jobs root)) :
    plan.writeJobs settings jobs output disk turns =
      (.ok { plan.unverified settings turns (jobs root) root disk with
        verification := some {
          expected := (plan.unverified settings turns (jobs root) root disk).written.length
          verified := (plan.unverified settings turns (jobs root) root disk).written.length } },
        (writeAllBy settings.workers turns settings.config.output (jobs root) disk).2) := by
  rw [plan.writeJobs_eq ho hw hroot, verify_of_found _ (plan.found_unverified wf hj _)]
  rfl

namespace WriteRun

/-- The files and classes that a run is to write. -/
def targets (run : WriteRun) (root : Path) : List (Path × Option String) :=
  run.units.map (Sum.elim
    (fun a => (a.path run.settings.config root, some a.className))
    (fun d => (Layout.file run.settings.config root d.package d.shownClass, d.className)))

theorem targets_eq (run : WriteRun) (root : Path) :
    (run.jobs root).map (fun job => (job.path, job.className)) = run.targets root := by
  unfold jobs targets
  rw [List.map_map]
  refine List.map_congr_left fun unit _ => ?_
  cases unit <;> rfl

/-- A run gives a report whatever fails in it, and whatever turns its tasks take. There is one
result for each artifact, about its file and class, so that the counts add up; and every file that
is reported as written is found. -/
theorem writeJobs_contained (run : WriteRun) (disk : Disk) (turns : List Nat)
    (wf : disk.WellFormed) (ho : run.settings.checkOutput "overwrite" = .ok ())
    (hw : run.settings.checkWorkers = .ok ()) (hfit : run.output.hasUnfit = false) :
    ∃ root report after, disk.resolve run.output = .ok root ∧
      run.plan.writeJobs run.settings run.jobs run.output disk turns = (.ok report, after) ∧
      report.results.map (fun r => (r.path, r.className)) = run.targets root ∧
      report.results.length = run.units.length ∧
      report.count .created + report.count .updated + report.count .skipped +
        report.count .failed = run.units.length ∧
      (∀ r ∈ report.written, after.isFile r.path = .ok true) ∧
      ∃ v, report.verification = some v ∧ v.isOk = true ∧
        v.expected = (report.count .created + report.count .updated : Nat) ∧
        v.verified = v.expected := by
  obtain ⟨root, hroot⟩ : ∃ root, disk.resolve run.output = .ok root :=
    ⟨_, resolve_eq_ok_iff.mpr ⟨hfit, rfl⟩⟩
  have hj := run.allOpen_jobs hroot
  have hids := writeAllBy_identity run.settings.workers turns run.settings.config.output
    (run.jobs root) disk
  rw [run.targets_eq root] at hids
  have hlen : (writeAllBy run.settings.workers turns run.settings.config.output (run.jobs root)
      disk).1.length = run.units.length := by
    have := congrArg List.length hids
    rwa [List.length_map, targets, List.length_map] at this
  have hrun : run.plan.writeJobs run.settings run.jobs run.output disk turns = _ :=
    run.plan.writeJobs_verified ho hw hroot wf hj
  have hfound : ∀ r ∈ (run.plan.unverified run.settings turns (run.jobs root) root disk).written,
      _ := run.plan.found_unverified wf hj root
  have hcount := Report.length_written
    (run.plan.unverified run.settings turns (run.jobs root) root disk)
  refine ⟨root, _, _, hroot, hrun, hids, hlen, ?_, hfound, _, rfl, rfl, ?_, rfl⟩
  · rw [← hlen]
    exact Report.count_add _
  · exact congrArg Int.ofNat hcount

/-- Nothing is written below a path that the system does not take. -/
theorem writeJobs_of_hasUnfit (run : WriteRun) (disk : Disk) (turns : List Nat)
    (h : run.output.hasUnfit = true) :
    ∃ fault, run.plan.writeJobs run.settings run.jobs run.output disk turns =
      (.error (.search (.disk fault)), disk) := by
  unfold Plan.writeJobs Plan.outputRoot
  cases hroot : disk.resolve run.output with
  | error fault => exact ⟨fault, rfl⟩
  | ok root =>
    rw [(resolve_eq_ok_iff.mp hroot).1] at h
    cases h

end WriteRun

end

namespace WriteRun

open scoped Surrogates

/-- A run whose second artifact has no name that Java allows, with an extension that leads out of
the directory again and an encoding that there is not. -/
def faulty : WriteRun where
  settings := { output := .options [("file_extension", .string "/../x"),
    ("encoding", .string "no such encoding")] }
  plan := { package := "a.domain", tree := ⟨⟨"a", "", .single, []⟩, true, none, []⟩ }
  units := [.inl (Artifact.wrapper "a.domain" "A" .serialNumber "" .string),
    .inl (Artifact.wrapper "a.domain" "1" .serialNumber "" .string)]
  output := .ofString "/out"

theorem writeJobs_contained_faulty :
    ∃ report after, faulty.plan.writeJobs faulty.settings faulty.jobs faulty.output
        { entries := [(["out"], .file [65])] } [1, 0, 1] = (.ok report, after) ∧
      report.results.length = 2 ∧
      ∃ v, report.verification = some v ∧ v.isOk = true := by
  obtain ⟨root, report, after, -, hrun, -, hlen, -, -, v, hv, hok, -⟩ :=
    writeJobs_contained faulty { entries := [(["out"], .file [65])] } [1, 0, 1] (by decide) rfl rfl
      (by decide)
  exact ⟨report, after, hrun, hlen, v, hv, hok⟩

/-- A run of nothing into a directory whose name is a lone surrogate. -/
def nameless : WriteRun where
  settings := {}
  plan := faulty.plan
  units := []
  output := .ofString (String.ofList [Text.charOfCode 0xd800])

/-- A directory without a NUL in its path can be one for which there is no report. -/
theorem not_reported_of_surrogate :
    nameless.output.hasNul = false ∧ nameless.settings.checkOutput "overwrite" = .ok () ∧
      nameless.settings.checkWorkers = .ok () ∧
      ∀ report after, nameless.plan.writeJobs nameless.settings nameless.jobs nameless.output
        {} [] ≠ (.ok report, after) := by
  refine ⟨by decide, rfl, rfl, fun report after hrun => ?_⟩
  obtain ⟨fault, hfault⟩ := writeJobs_of_hasUnfit nameless {} [] (by decide)
  rw [hfault] at hrun
  cases hrun

end WriteRun

end DomainCodegen
