import DomainCodegen.Proofs.Artifact.Writable
import DomainCodegen.Proofs.Disk.Ready
import DomainCodegen.Proofs.Layout
import DomainCodegen.Proofs.Output.History

/-!
# What an answer says about the files

Whatever a job answers, the files of the disk agree with it (`Intact`): a job that failed or was
skipped has changed no file, and at most a copy of its target is new; a job that created or updated
its file has put its whole text there. Only the way to a new file needs care: behind a `..` that
leads nowhere a file can be overwritten unseen, so the output root must have none (`write_intact`).
-/

namespace DomainCodegen

section

variable [Surrogates]

namespace Disk

variable {disk after later : Disk} {p : Path} {place : Location} {way : Location → Prop}
  {mode : SaveMode} {content : String}

/-- The same files with the same bytes. -/
def SameFiles (disk after : Disk) : Prop :=
  ∀ place bytes, after.get? place = some (.file bytes) ↔ disk.get? place = some (.file bytes)

/-- One file is new, at the path of a backup and with the bytes of the file that it is a backup of;
the others are the same. -/
def Copied (p : Path) (disk after : Disk) : Prop :=
  ∃ k place bytes, disk.fileAt p = .ok bytes ∧ disk.locate (backupPath p k) = .ok place ∧
    disk.get? place = none ∧ after.get? place = some (.file bytes) ∧
    ∀ other, other ≠ place → ∀ old,
      after.get? other = some (.file old) ↔ disk.get? other = some (.file old)

omit [Surrogates] in
theorem SameFiles.refl (disk : Disk) : SameFiles disk disk := fun _ _ => Iff.rfl

omit [Surrogates] in
theorem Gains.sameFiles (h : Gains way disk after) : SameFiles disk after := fun _ _ => h.file_iff

theorem Copied.sameFiles (h : Copied p disk after) (hs : SameFiles after later) :
    Copied p disk later := by
  obtain ⟨k, place, bytes, hf, hl, hn, hb, hothers⟩ := h
  exact ⟨k, place, bytes, hf, hl, hn, (hs place bytes).mpr hb,
    fun other ho old => (hs other old).trans (hothers other ho old)⟩

/-- A backup that fails leaves the disk alone, and any other one is a copy. -/
theorem backUp_copied (disk : Disk) (p : Path) :
    (∃ fault, disk.backUp p = (.error fault, disk)) ∨
    ∃ backup after, disk.backUp p = (.ok backup, after) ∧ Copied p disk after := by
  obtain ⟨k, -, -, ⟨fault, he⟩ | ⟨place, bytes, -, hf, -, hl, hn, he⟩⟩ := backUp_first disk p
  · exact .inl ⟨fault, he⟩
  have hset : ∀ other, (disk.set place (.file bytes)).get? other =
      if other = place then some (.file bytes) else disk.get? other :=
    fun other => get?_set (ne_nil_of_not_directory (by rw [hn]; exact nofun))
  refine .inr ⟨_, _, he, k, place, bytes, hf, hl, hn, ?_, fun other ho old => ?_⟩
  · rw [hset, if_pos rfl]
  · rw [hset, if_neg ho]

/-- A text that was saved is in the file. -/
theorem fileAt_of_save (h : disk.save mode p content = (.ok (), after)) :
    ∃ bytes, mode.encode content = .ok bytes ∧ after.fileAt p = .ok bytes := by
  obtain ⟨made, place, bytes, -, hs⟩ := save_eq_ok h
  refine ⟨bytes, hs.encode, fileAt_eq_ok_iff.mpr ⟨place, hs.locate_after, ?_⟩⟩
  rw [hs.get?_eq, if_pos rfl]

/-- A path without `..` leads to what stands at its end, if anything does: the directories on the
way are there. -/
theorem locate_of_isSome (wf : disk.WellFormed) (hhome : after.home = disk.home)
    (hup : ".." ∉ p.names) (hl : after.locate p = .ok place) (hs : (disk.get? place).isSome) :
    disk.locate p = .ok place := by
  have hstart : after.startOf p = disk.startOf p := by
    unfold startOf
    rw [hhome]
  obtain ⟨rfl, hnames, -⟩ := walk_eq_ok hup (walk_of_locate hl)
  rw [hstart] at hl hs ⊢
  have hwalk : disk.walk (disk.startOf p) p.names = .ok (disk.startOf p ++ p.names) := by
    rw [walk_of_directories hup fun front hf hne => wf.directories_of_prefix hs hf hne,
      if_pos hnames]
  unfold locate at hl ⊢
  split at hl
  · cases hl
  next hn =>
  split at hl
  · cases hl
  next ht =>
  rw [if_neg ht, hwalk]
  rfl

/-- Where nothing was found by a path without `..`, nothing is written over. -/
theorem free_of_save (wf : disk.WellFormed) (hup : ".." ∉ p.names)
    (hh : disk.holds p = .ok false) (h : disk.save mode p content = (.ok (), after)) :
    ∃ place, after.locate p = .ok place ∧ disk.get? place = none := by
  obtain ⟨made, place, bytes, hg, hs⟩ := save_eq_ok h
  refine ⟨place, hs.locate_after, ?_⟩
  by_contra hnot
  have hsome := Option.isSome_iff_ne_none.mpr hnot
  have hl := locate_of_isSome wf hg.home hup hs.locate hsome
  unfold holds look at hh
  rw [hl] at hh
  simp [Except.map, hnot] at hh

end Disk

namespace Output

open Disk

variable {disk after : Disk} {options : OutputOptions} {job : Job} {content : String}

/-! ## One job -/

/-- The files after a job are as its answer says; a job that raised a fault is as one that
failed. -/
structure Intact (options : OutputOptions) (job : Job) (disk : Disk)
    (r : Except JobFault Result × Disk) : Prop where
  failed : answered r.1 = none ∨ answered r.1 = some .failed → SameFiles disk r.2 ∨
    (options.overwrite = true ∧ options.backup = true ∧ Copied job.path disk r.2)
  skipped : answered r.1 = some .skipped → SameFiles disk r.2
  created : answered r.1 = some .created → disk.holds job.path = .ok false ∧
    (∃ place, r.2.locate job.path = .ok place ∧ disk.get? place = none) ∧
    ∃ bytes, Encodes (options, job) bytes ∧ r.2.fileAt job.path = .ok bytes
  updated : answered r.1 = some .updated → options.overwrite = true ∧
    disk.holds job.path = .ok true ∧
    ∃ bytes, Encodes (options, job) bytes ∧ r.2.fileAt job.path = .ok bytes

/-- A file that could not be replaced is as it was, and at most a copy of it is new. -/
theorem replace_error (ha : options.atomic = true) {fault : SaveFault}
    (h : job.replace options content disk = (.error fault, after)) :
    SameFiles disk after ∨ (options.backup = true ∧ Copied job.path disk after) := by
  have hsaved : ∀ {later : Disk}, ∀ {met}, later.save (saveMode options) job.path content =
      (.error met, after) → SameFiles later after :=
    fun hs => (gains_of_save_error ha hs).sameFiles
  unfold Job.replace backUpIf at h
  by_cases hb : options.backup = true
  · rw [if_pos hb] at h
    rcases backUp_copied disk job.path with ⟨met, he⟩ | ⟨backup, later, he, hcopied⟩ <;>
      rw [he] at h <;> dsimp only at h
    · cases h
      exact .inl (SameFiles.refl disk)
    rcases hs : later.save (saveMode options) job.path content with ⟨met | u, last⟩ <;>
      rw [hs] at h <;> cases h
    exact .inr ⟨hb, hcopied.sameFiles (hsaved hs)⟩
  · rw [if_neg hb] at h
    dsimp only at h
    rcases hs : disk.save (saveMode options) job.path content with ⟨met | u, last⟩ <;>
      rw [hs] at h <;> cases h
    exact .inl (hsaved hs)

theorem put_error (ha : options.atomic = true) {fault : SaveFault}
    (h : job.put options content disk = (.error fault, after)) :
    SameFiles disk after ∨
      (options.overwrite = true ∧ options.backup = true ∧ Copied job.path disk after) := by
  unfold Job.put at h
  split at h
  · cases h
    exact .inl (SameFiles.refl disk)
  · rcases hs : disk.save (saveMode options) job.path content with ⟨met | u, last⟩ <;>
      rw [hs] at h <;> cases h
    exact .inl (gains_of_save_error ha hs).sameFiles
  · split at h
    next ho => exact (replace_error ha h).imp_right fun hc => ⟨ho, hc⟩
    next => cases h

/-- What a job that has a result has done. -/
theorem put_eq_ok {result : Result} (h : job.put options content disk = (.ok result, after)) :
    (result.status = .skipped ∧ after = disk) ∨
    (result.status = .created ∧ disk.holds job.path = .ok false ∧
      disk.save (saveMode options) job.path content = (.ok (), after)) ∨
    (result.status = .updated ∧ options.overwrite = true ∧ disk.holds job.path = .ok true ∧
      ∃ later : Disk, later.save (saveMode options) job.path content = (.ok (), after)) := by
  unfold Job.put at h
  split at h
  · cases h
  next hh =>
    rcases hs : disk.save (saveMode options) job.path content with ⟨met | u, last⟩ <;>
      rw [hs] at h <;> cases h
    exact .inr (.inl ⟨rfl, hh, rfl⟩)
  next hh =>
    split at h
    next ho =>
      obtain ⟨backup, later, -, hs, hout⟩ := replace_eq_ok h
      exact .inr (.inr ⟨congrArg Prod.fst hout, ho, hh, later, hs⟩)
    next =>
      cases h
      exact .inl ⟨rfl, rfl⟩

/-- A job that has no result of its own has failed to make its text or to put it. -/
theorem intact_of_kept {answer : Except JobFault Result}
    (hs : answered answer = none ∨ answered answer = some .failed)
    (h : SameFiles disk after ∨
      (options.overwrite = true ∧ options.backup = true ∧ Copied job.path disk after)) :
    Intact options job disk (answer, after) where
  failed _ := h
  skipped hk := by rcases hs with hs | hs <;> rw [hs] at hk <;> cases hk
  created hk := by rcases hs with hs | hs <;> rw [hs] at hk <;> cases hk
  updated hk := by rcases hs with hs | hs <;> rw [hs] at hk <;> cases hk

/-- A text that was put is in the file. -/
theorem encodes_of_save {later : Disk} (hc : job.content = .ok content)
    (h : later.save (saveMode options) job.path content = (.ok (), after)) :
    ∃ bytes, Encodes (options, job) bytes ∧ after.fileAt job.path = .ok bytes := by
  obtain ⟨bytes, hencode, hf⟩ := fileAt_of_save h
  exact ⟨bytes, ⟨content, hc, hencode⟩, hf⟩

theorem intact_of_put {result : Result} (wf : disk.WellFormed) (hup : ".." ∉ job.path.names)
    (hc : job.content = .ok content) (hp : job.put options content disk = (.ok result, after)) :
    Intact options job disk (.ok result, after) := by
  have hanswer : answered (.ok result) = some result.status := rfl
  rcases put_eq_ok hp with ⟨hr, rfl⟩ | ⟨hr, hh, hs⟩ | ⟨hr, ho, hh, later, hs⟩ <;> rw [hr] at hanswer
  · constructor <;> intro hk <;> simp only [hanswer] at hk
    · simp at hk
    · exact SameFiles.refl _
    · cases hk
    · cases hk
  · constructor <;> intro hk <;> simp only [hanswer] at hk
    · simp at hk
    · cases hk
    · exact ⟨hh, free_of_save wf hup hh hs, encodes_of_save hc hs⟩
    · cases hk
  · constructor <;> intro hk <;> simp only [hanswer] at hk
    · simp at hk
    · cases hk
    · cases hk
    · exact ⟨ho, hh, encodes_of_save hc hs⟩

theorem job_intact (wf : disk.WellFormed) (ha : options.atomic = true)
    (hup : ∀ content, job.content = .ok content → ".." ∉ job.path.names) :
    Intact options job disk (job.write options disk) := by
  unfold Job.write
  cases hc : job.content with
  | error e =>
    dsimp only
    refine intact_of_kept ?_ (.inl (SameFiles.refl disk))
    split
    · exact .inr rfl
    · exact .inl rfl
  | ok content =>
  dsimp only
  rcases hp : job.put options content disk with ⟨fault | result, after⟩
  · refine intact_of_kept ?_ (put_error ha hp)
    split
    · exact .inr rfl
    · exact .inl rfl
  · exact intact_of_put wf (hup content hc) hc hp

end Output

/-! ## Artifacts and drafts -/

open Output Disk

variable {config : Config} {root : Path} {disk : Disk}

/-- The job that writes an artifact or a draft. -/
def jobOf (config : Config) (root : Path) : Artifact ⊕ Artifact.Draft → Job :=
  Sum.elim (Artifact.job config root) (Artifact.Draft.job config root)

omit [Surrogates] in
theorem up_notMem_jobOf {content : String} (hup : ".." ∉ root.names)
    (hext : '/' ∉ config.output.extension.toList) (unit : Artifact ⊕ Artifact.Draft)
    (h : (jobOf config root unit).content = .ok content) :
    ".." ∉ (jobOf config root unit).path.names := by
  rcases unit with a | d
  · exact Layout.up_notMem_file (Artifact.isStem_of_render h) hext hup a.package
  · obtain ⟨className, hc, hstem⟩ := Artifact.Draft.exists_stem_of_render h
    have hfile := Layout.up_notMem_file hstem hext hup d.package
    show ".." ∉ (Layout.file config root d.package d.shownClass).names
    unfold Artifact.Draft.shownClass
    rwa [hc, Option.getD_some]

/-- Writing an artifact or a draft leaves the tree intact unless it succeeds, when files are written
through temporary ones and the output root leads nowhere upwards. -/
theorem write_intact (unit : Artifact ⊕ Artifact.Draft) (wf : disk.WellFormed)
    (hup : ".." ∉ root.names) (hext : '/' ∉ config.output.extension.toList)
    (ha : config.output.atomic = true) :
    Intact config.output (jobOf config root unit) disk
      ((jobOf config root unit).write config.output disk) :=
  job_intact wf ha fun _ => up_notMem_jobOf hup hext unit

end

/-! ## An example -/

open Disk Output
open scoped Surrogates

/-- Files are written over after a backup. -/
def replacingConfig : Config := { output := { overwrite := true, backup := true } }

/-- A disk with one file. -/
def oneWrapper : Disk where
  entries := [(["out", "A.java"], .file [65]), (["out"], .directory)]

def wrapperUnit (className : String) : Artifact ⊕ Artifact.Draft :=
  .inl (Artifact.wrapper "a.domain" className .serialNumber "" .string)

/-- The disk after the file was backed up. -/
def copiedWrapper : Disk := oneWrapper.set ["out", "A.java.bak"] (.file [65])

theorem answered_oneWrapper :
    answered ((jobOf replacingConfig (.ofString "/out") (wrapperUnit "A")).write
      replacingConfig.output oneWrapper).1 = some .updated := by
  have hwritable : (Artifact.wrapper "a.domain" "A" .serialNumber "" .string).isWritable
      replacingConfig = true := Artifact.isWritable_of_bytes rfl (by decide +kernel)
  obtain ⟨text, hr, hs⟩ := Artifact.isWritable_iff.mp hwritable
  have hbackup : backUpIf replacingConfig.output.backup oneWrapper
      (jobOf replacingConfig (.ofString "/out") (wrapperUnit "A")).path =
        (.ok (some (.ofString "/out/A.java.bak")), copiedWrapper) := rfl
  have htargets : (jobOf replacingConfig (.ofString "/out") (wrapperUnit "A")).Targets ["out"]
      "A.java" := ⟨rfl, by decide, by decide, by decide⟩
  have wf : copiedWrapper.WellFormed := by decide
  have hready : copiedWrapper.Ready (saveMode replacingConfig.output).atomic ["out"] "A.java"
      (jobOf replacingConfig (.ofString "/out") (wrapperUnit "A")).path :=
    ⟨open_of_directory wf rfl, by decide, by decide,
      fun _ => ⟨0, by decide, by decide, by decide⟩⟩
  obtain ⟨-, -, hsave, -⟩ := save_of_ready wf (htargets.beside _) htargets.isAbsolute _ text hready
  rw [encode_utf8 rfl hs] at hsave
  have hput : (jobOf replacingConfig (.ofString "/out") (wrapperUnit "A")).put
      replacingConfig.output text oneWrapper =
        (jobOf replacingConfig (.ofString "/out") (wrapperUnit "A")).replace
          replacingConfig.output text oneWrapper :=
    (put_of_taken (by decide)).trans (if_pos rfl)
  exact congrArg answered (write_of_put hr (hput ▸ replace_of_saved hbackup hsave))

/-- The file of the wrapper is updated, and the one of a class that Java does not allow is not
made. -/
theorem write_intact_oneWrapper :
    (∃ bytes, Encodes (replacingConfig.output, jobOf replacingConfig (.ofString "/out")
        (wrapperUnit "A")) bytes ∧
      ((jobOf replacingConfig (.ofString "/out") (wrapperUnit "A")).write replacingConfig.output
        oneWrapper).2.fileAt (.ofString "/out/A.java") = .ok bytes) ∧
    SameFiles oneWrapper ((jobOf replacingConfig (.ofString "/out") (wrapperUnit "1")).write
      replacingConfig.output oneWrapper).2 := by
  have hintact : ∀ className, Intact replacingConfig.output
      (jobOf replacingConfig (.ofString "/out") (wrapperUnit className)) oneWrapper
      ((jobOf replacingConfig (.ofString "/out") (wrapperUnit className)).write
        replacingConfig.output oneWrapper) :=
    fun className => write_intact (wrapperUnit className) (by decide) (by decide) (by decide) rfl
  constructor
  · exact ((hintact "A").updated answered_oneWrapper).2.2
  · refine ((hintact "1").failed (.inr (by decide +kernel))).resolve_right ?_
    rintro ⟨-, -, k, place, bytes, hf, -⟩
    revert hf
    have hmissing : oneWrapper.fileAt (.ofString "/out/1.java") =
        .error (.refused .missing (.ofString "/out/1.java")) := by decide +kernel
    have hpath : (jobOf replacingConfig (.ofString "/out") (wrapperUnit "1")).path =
        .ofString "/out/1.java" := by decide +kernel
    rw [hpath, hmissing]
    exact nofun

end DomainCodegen
