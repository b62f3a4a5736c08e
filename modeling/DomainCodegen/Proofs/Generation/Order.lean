import DomainCodegen.Proofs.Artifact.Places

/-!
# The order of the artifacts

The artifacts of a schema may be written in any order. Below a package that has the anchor their
jobs never meet, so each of them has the same outcome in every order, and the files are the same in
the end, whatever is on the disk before and whatever fails (`writeAll_artifacts_perm`).
-/

namespace DomainCodegen

open Disk Output

variable {config : Config} {disk : Disk} {doc : Json} {tree : Schema.Tree} {package : String}
  {output root : Path} {artifacts order : List Artifact}

/-- In every order each artifact has the same status and backup, and the files in the end are the
same. -/
theorem writeAll_artifacts_perm [Surrogates] (hc : config.Standard)
    (hread : Schema.Tree.read doc = .ok tree)
    (ha : tree.artifacts config package = .ok artifacts)
    (hanchor : Layout.HasAnchor config.anchor package) (hroot : disk.resolve output = .ok root)
    (wf : disk.WellFormed) (hp : order.Perm artifacts) :
    (∃ outcome : Artifact → Status × Option Path,
      (writeAll config.output (artifacts.map (Artifact.job config root)) disk).1.map
          Result.outcome = artifacts.map outcome ∧
      (writeAll config.output (order.map (Artifact.job config root)) disk).1.map
          Result.outcome = order.map outcome) ∧
    ∀ place bytes,
      (writeAll config.output (order.map (Artifact.job config root)) disk).2.get? place =
          some (.file bytes) ↔
        (writeAll config.output (artifacts.map (Artifact.job config root)) disk).2.get? place =
          some (.file bytes) := by
  have hsep := separate_of_read hc hread ha hanchor hroot
  have hperm := hp.map (Artifact.job config root)
  refine ⟨⟨fun a => ((a.job config root).settle config.output disk).1.outcome, ?_, ?_⟩,
    fun place bytes => writeAll_perm wf hsep hperm⟩
  · rw [(writeAll_isolated wf hsep).1, List.map_map]
    rfl
  · rw [(writeAll_isolated wf (hsep.perm hperm)).1, List.map_map]
    rfl

def sampleArtifacts : List Artifact := Schema.sampleTree.node.artifacts {} "a.domain"

/-- A disk on which a file stands in the way of some of these artifacts. -/
def obstructed : Disk where
  entries := [(["out", "valueobject"], .file [65]), (["out"], .directory)]

def sampleRun [Surrogates] (artifacts : List Artifact) : List Result × Disk :=
  writeAll {} (artifacts.map (Artifact.job {} (.ofString "/out"))) obstructed

open scoped Surrogates in
theorem writeAll_sample_reverse :
    (∃ outcome : Artifact → Status × Option Path,
      (sampleRun sampleArtifacts).1.map Result.outcome = sampleArtifacts.map outcome ∧
      (sampleRun sampleArtifacts.reverse).1.map Result.outcome =
        sampleArtifacts.reverse.map outcome) ∧
    ∀ place bytes, (sampleRun sampleArtifacts.reverse).2.get? place = some (.file bytes) ↔
      (sampleRun sampleArtifacts).2.get? place = some (.file bytes) := by
  have ha : Schema.sampleTree.artifacts {} "a.domain" = .ok sampleArtifacts := rfl
  have hanchor : Layout.HasAnchor ({} : Config).anchor "a.domain" := .inr (by decide)
  have hroot : obstructed.resolve (.ofString "/out") = .ok (.ofString "/out") := rfl
  have h := writeAll_artifacts_perm standard_default Schema.read_sample ha hanchor hroot
    (by decide) (List.reverse_perm _)
  exact h

end DomainCodegen
