import DomainCodegen.Proofs.Disk.Listing
import DomainCodegen.Proofs.Output.Containment

/-!
# Reports and the disk

The results of a report fall apart into those of written, skipped and failed files, each in order.
Its verification names the written files that are not there, and lists what is below the output
root when there are any (`verify_consistent`).
-/

namespace DomainCodegen.Output

open Disk (isWild)

/-- Parts that keep the order of a list, have nothing in common, and make it up together. -/
structure IsPartition {α : Type} (parts : List (List α)) (whole : List α) : Prop where
  ordered : ∀ part ∈ parts, part.Sublist whole
  disjoint : parts.Pairwise List.Disjoint
  complete : parts.flatten.Perm whole

namespace Report

variable {disk : Disk} {report : Report} {root : Path} {place : Location} {extension : String}
  {results : List Result}

/-! ## Results by status -/

theorem status_of_mem_byStatus {status : Status} {r : Result} (h : r ∈ report.byStatus status) :
    r.status = status := of_decide_eq_true (List.mem_filter.mp h).2

theorem isWritten_of_mem_written {r : Result} (h : r ∈ report.written) :
    r.status.isWritten = true := (List.mem_filter.mp h).2

theorem isPartition_byStatus (report : Report) :
    IsPartition [report.written, report.byStatus .skipped, report.byStatus .failed]
      report.results where
  ordered := by
    simp only [List.forall_mem_cons]
    exact ⟨List.filter_sublist, List.filter_sublist, List.filter_sublist, nofun⟩
  disjoint := by
    have hwritten {status : Status} (hs : status.isWritten = false) :
        List.Disjoint report.written (report.byStatus status) := by
      intro r hw hr
      have := isWritten_of_mem_written hw
      rw [status_of_mem_byStatus hr, hs] at this
      cases this
    have hskipped : List.Disjoint (report.byStatus .skipped) (report.byStatus .failed) := by
      intro r hs hf
      have := status_of_mem_byStatus hs
      rw [status_of_mem_byStatus hf] at this
      cases this
    simpa using ⟨⟨hwritten rfl, hwritten rfl⟩, hskipped⟩
  complete := by
    have hothers : (report.results.filter fun r => !r.status.isWritten).Perm
        (report.byStatus .skipped ++ report.byStatus .failed) := by
      refine .trans (List.filter_append_perm (fun r => r.status = .skipped) _).symm (.of_eq ?_)
      rw [List.filter_filter, List.filter_filter]
      unfold byStatus
      congr 2 <;>
      · funext r
        cases hs : r.status <;> simp [Status.isWritten]
    have hflat : [report.written, report.byStatus .skipped, report.byStatus .failed].flatten =
        report.written ++ (report.byStatus .skipped ++ report.byStatus .failed) := by simp
    rw [hflat]
    exact (hothers.symm.append_left report.written).trans (List.filter_append_perm _ _)

/-! ## Missing files -/

theorem missing_of_isShort [Surrogates] (disk : Disk) (h : ∀ r ∈ results, r.path.IsShort) :
    missing disk results = .ok (results.filter fun r => ¬ disk.HasFile r.path) := by
  induction results with
  | nil => rfl
  | cons r rest ih =>
    obtain ⟨hr, hrest⟩ := List.forall_mem_cons.mp h
    rw [missing, Disk.isFile_of_isShort disk hr, ih hrest]
    by_cases hf : disk.HasFile r.path <;> simp [hf, Except.map]

/-! ## The search for files -/

/-- What looking for the files below the output root adds to a verification. -/
structure Searched (disk : Disk) (root : Path) (place : Location) (extension : String)
    (v after : Verification) : Prop where
  expected : after.expected = v.expected
  verified : after.verified = v.verified
  mismatches : after.mismatches = v.mismatches
  unscanned : v.mismatches = [] → after.scanned = v.scanned
  scanned : v.mismatches ≠ [] → after.scanFault = none →
    disk.IsListing root place extension after.scanned
  /-- Only a path that is too long keeps the files from being listed. -/
  unhindered : (∀ names, (disk.get? (place ++ names)).isSome → (root.extend names).IsShort) →
    after.scanFault = v.scanFault

theorem withScan_searched [Surrogates] (h : disk.Lawful) (hl : disk.locate root = .ok place)
    (hd : disk.get? place = some .directory) (hsep : '/' ∉ extension.toList)
    (hwild : ∀ c ∈ extension.toList, isWild c = false) (v : Verification) :
    ∃ after, withScan disk (some root) extension v = .ok after ∧
      Searched disk root place extension v after := by
  by_cases hm : v.mismatches = []
  · refine ⟨v, if_pos (List.isEmpty_iff.mpr hm), ?_⟩
    exact ⟨rfl, rfl, rfl, fun _ => rfl, fun hne => absurd hm hne, fun _ => rfl⟩
  unfold withScan
  dsimp only
  rw [if_neg fun hok : v.isOk = true => hm (List.isEmpty_iff.mp hok)]
  cases hs : disk.scan root extension with
  | ok found =>
    exact ⟨_, rfl, rfl, rfl, rfl, fun h => absurd h hm,
      fun _ _ => Disk.isListing_of_scan h hl hd hsep hwild hs, fun _ => rfl⟩
  | error why =>
    cases why with
    | doubleStar => exact absurd hs (Disk.scan_ne_doubleStar hsep hwild)
    | disk fault =>
      refine ⟨_, rfl, rfl, rfl, rfl, fun h => absurd h hm, fun _ => nofun, fun hall => ?_⟩
      obtain ⟨found, hfound⟩ := Disk.exists_scan hl hd hsep hwild hall
      rw [hs] at hfound
      cases hfound

/-- How a report, its verification and the disk belong together. -/
structure Consistent [Surrogates] (disk : Disk) (root : Path) (place : Location)
    (extension : String)
    (report : Report) (v : Verification) : Prop where
  total : report.count .created + report.count .updated + report.count .skipped +
    report.count .failed = report.results.length
  partition : IsPartition [report.written, report.byStatus .skipped, report.byStatus .failed]
    report.results
  written : ∀ r ∈ report.written, r.status.isWritten = true
  byStatus : ∀ status, ∀ r ∈ report.byStatus status, r.status = status
  expected : v.expected = report.written.length
  mismatches : v.mismatches =
    (report.written.filter fun r => ¬ disk.HasFile r.path).map mismatch
  verified : v.expected = v.verified + v.mismatches.length
  unscanned : v.mismatches = [] → v.scanned = []
  scanned : v.mismatches ≠ [] → v.scanFault = none → disk.IsListing root place extension v.scanned
  /-- Only a path that is too long keeps the files below the root from being listed. -/
  unhindered : (∀ names, (disk.get? (place ++ names)).isSome → (root.extend names).IsShort) →
    v.scanFault = none

/-- Every report on an output root that is there can be verified, and its verification is right
about the disk. -/
theorem verify_consistent [Surrogates] (h : disk.Lawful) (hroot : report.root = some root)
    (hl : disk.locate root = .ok place) (hd : disk.get? place = some .directory)
    (hsep : '/' ∉ extension.toList) (hwild : ∀ c ∈ extension.toList, isWild c = false)
    (hshort : ∀ r ∈ report.results, r.path.IsShort) :
    ∃ v, report.verify disk extension = .ok { report with verification := some v } ∧
      Consistent disk root place extension report v := by
  have hmissing : missing disk report.written =
      .ok (report.written.filter fun r => ¬ disk.HasFile r.path) :=
    missing_of_isShort disk fun r hr => hshort r (List.mem_of_mem_filter hr)
  generalize hlost : (report.written.filter fun r => ¬ disk.HasFile r.path) = lost at hmissing
  obtain ⟨v, hscan, hsearched⟩ := withScan_searched h hl hd hsep hwild
    { expected := report.written.length
      verified := report.written.length - lost.length
      mismatches := lost.map mismatch }
  refine ⟨v, ?_, ?_⟩
  · unfold verify
    rw [hmissing, hroot]
    dsimp only
    rw [hscan]
    rfl
  exact
    { total := report.count_add
      partition := report.isPartition_byStatus
      written := fun r => isWritten_of_mem_written
      byStatus := fun status r => status_of_mem_byStatus
      expected := hsearched.expected
      mismatches := by rw [hsearched.mismatches, hlost]
      verified := by rw [hsearched.expected, hsearched.verified, hsearched.mismatches]; simp
      unscanned := fun hm => hsearched.unscanned (hsearched.mismatches ▸ hm)
      scanned := fun hm => hsearched.scanned (hsearched.mismatches ▸ hm)
      unhindered := hsearched.unhindered }

/-- Two directories that are in another order than the texts of their paths. -/
def neighbours : Disk where
  entries :=
    [(["out"], .directory), (["out", "a-b"], .directory), (["out", "a-b", "X.java"], .file []),
      (["out", "a"], .directory), (["out", "a", "Y.java"], .file [1]),
      (["out", "a", "notes.txt"], .file [2])]

/-- A file that is there, one that is lost, and a directory in the place of a file. -/
def lossy : Report where
  results :=
    [{ path := Path.ofString "/out/a/Y.java", status := .created },
      { path := Path.ofString "/out/a/Lost.java", status := .updated },
      { path := Path.ofString "/out/a", status := .created },
      { path := Path.ofString "/out/a-b/X.java", status := .skipped },
      { path := Path.ofString "/out/\x00", status := .failed }]
  root := some (Path.ofString "/out")

open scoped Surrogates in
theorem verify_consistent_lossy :
    ∃ v, lossy.verify neighbours ".java" = .ok { lossy with verification := some v } ∧
      Consistent neighbours (Path.ofString "/out") ["out"] ".java" lossy v ∧
      v.mismatches.length = 2 := by
  obtain ⟨v, hv, hc⟩ : ∃ v, lossy.verify neighbours ".java" =
      .ok { lossy with verification := some v } ∧
      Consistent neighbours (Path.ofString "/out") ["out"] ".java" lossy v :=
    verify_consistent ⟨by decide, by decide⟩ rfl (by decide) (by decide) (by decide)
      (by simp [isWild]) (by decide)
  refine ⟨v, hv, hc, ?_⟩
  rw [hc.mismatches]
  decide

end Report

end DomainCodegen.Output
