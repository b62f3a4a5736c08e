import DomainCodegen.Proofs.Generation.Frame

/-!
# Artifacts that share a file

The directory of a package says nothing of what stands before its anchor, so that artifacts with
different qualified names can share a file: they do if their classes are the same and their packages
have one directory. An artifact that shares its file with no other is not affected by the others,
and where the package of the schema has the anchor all of them are so (`sharing_of_plan`). Without
the anchor an artifact can find its file taken by one before it (`shared_sample`).
-/

namespace DomainCodegen

open Disk Output

variable {config : Config} {schema package : Json} {plan : Plan} {artifacts : List Artifact}
  {disk : Disk} {output root : Path}

/-- When the artifacts of a plan share a file. One that shares its file with no other has the
outcome that it has alone, and its file is as it leaves it alone. Below a package with the anchor no
two share a file. -/
theorem sharing_of_plan [Surrogates] (hc : config.Standard)
    (hplan : Plan.ofJson schema package = .ok plan)
    (ha : plan.artifacts config = .ok artifacts) (hroot : disk.resolve output = .ok root)
    (wf : disk.WellFormed) :
    (∀ a ∈ artifacts, ∀ b ∈ artifacts, a.path config root = b.path config root ↔
      a.className = b.className ∧
        Layout.packagePath config.anchor a.package =
          Layout.packagePath config.anchor b.package) ∧
    (∀ before a after, artifacts = before ++ a :: after →
      (∀ b ∈ before ++ after, a.path config root ≠ b.path config root) →
      ((writeAll config.output (artifacts.map (Artifact.job config root)) disk).1.map
          Result.outcome)[before.length]? =
        some ((a.job config root).settle config.output disk).1.outcome ∧
      (writeAll config.output (artifacts.map (Artifact.job config root)) disk).2.get?
          (a.path config root).names =
        ((a.job config root).settle config.output disk).2.get? (a.path config root).names) ∧
    (Layout.HasAnchor config.anchor plan.package →
      (artifacts.map (Artifact.path config root)).Nodup) := by
  obtain ⟨hvalid, hread⟩ := ofJson_eq_ok hplan
  have hplain := isPlain_of_isValid hvalid
  have hall := artifacts_eq_ok ha
  obtain ⟨hnamed, -⟩ := artifacts_of_read hc hread hall
  have habs := isAbsolute_of_resolve hroot
  have hup := up_notMem_of_resolve hroot
  refine ⟨fun a hma b hmb => path_eq_iff hc hplain (hnamed a hma) (hnamed b hmb), ?_,
    fun hanchor => ?_⟩
  · rintro before a after rfl hne
    have htargets : ∀ b ∈ before ++ a :: after, (b.job config root).Targets
        (b.job config root).directory (b.job config root).file :=
      fun b hb => (targets_of_named hc habs hup (hnamed b hb)).own
    have hma : a ∈ before ++ a :: after := by simp
    have hother : ∀ b ∈ before ++ after, b ∈ before ++ a :: after := by
      intro b hb
      rcases List.mem_append.mp hb with hb | hb <;> simp [hb]
    have hjobs : (before ++ a :: after).map (Artifact.job config root) =
        before.map (Artifact.job config root) ++
          a.job config root :: after.map (Artifact.job config root) := by
      rw [List.map_append, List.map_cons]
    have ht : ∀ j ∈ before.map (Artifact.job config root) ++
        a.job config root :: after.map (Artifact.job config root),
        j.Targets j.directory j.file := by
      rw [← hjobs]
      exact List.forall_mem_map.mpr htargets
    have hap : ∀ j ∈ before.map (Artifact.job config root) ++ after.map (Artifact.job config root),
        Apart (a.job config root).directory (a.job config root).file j.directory j.file := by
      rw [← List.map_append]
      refine List.forall_mem_map.mpr fun b hb => ?_
      exact apart_of_path_ne hc habs hup hplain (hnamed a hma) (hnamed b (hother b hb)) (hne b hb)
    obtain ⟨hout, halike⟩ := writeAll_alone config.output wf ht hap
    have hnames : (a.path config root).names =
        (a.job config root).directory ++ [(a.job config root).file] := (htargets a hma).names
    rw [List.length_map] at hout
    rw [hjobs, hnames]
    exact ⟨hout, halike.entry _ (kin_self _)⟩
  · have hnodup := (separate_of_read hc hread hall hanchor hroot).nodup_paths
    rwa [List.map_map] at hnodup

/-- A job finds its file taken after jobs among which is one that makes it. -/
theorem settle_of_taken [Surrogates] {job : Job} {content : String} {dir : Location} {name : String}
    {bytes : List UInt8} (options : OutputOptions) (wf : disk.WellFormed)
    (ht : job.Targets dir name) (hp : job.path.Fits) (hc : job.content = .ok content)
    (hno : options.overwrite = false)
    (hf : disk.get? (dir ++ [name]) = some (.file bytes)) :
    (job.settle options disk).1.outcome = (.skipped, none) := by
  have hb := ht.beside disk
  have hh : disk.holds job.path = .ok true := by
    rw [holds_of_fits wf hb.straight hp, hb.place, hf]
    rfl
  rw [(settle_of_ok hc).1, put_of_taken hh, hno]
  rfl

open scoped Surrogates

/-- The artifacts of the example without the one that shares its file with another one. -/
def front : List Artifact := (Schema.sampleTree.node.artifacts {} "p").take 3

theorem isWritable_front : ∀ a ∈ front, a.isWritable {} = true := by
  refine List.forall_mem_cons.mpr ⟨?_, List.forall_mem_cons.mpr ⟨?_,
    List.forall_mem_singleton.mpr ?_⟩⟩
  all_goals exact Artifact.isWritable_of_bytes rfl (by decide +kernel)

theorem freshStart_front : FreshStart {} front (.ofString "/out") {} := by
  have hvalid : PackageName.isValid "p" = true := by decide
  have hall : Schema.Tree.artifacts {} "p" Schema.sampleTree =
      .ok (Schema.sampleTree.node.artifacts {} "p") := rfl
  have hroot : Disk.resolve {} (.ofString "/out") = .ok (.ofString "/out") := rfl
  obtain ⟨hnamed, -⟩ := artifacts_of_read standard_default Schema.read_sample hall
  have hfront : ∀ a ∈ front, a.Named "p" := fun a hm => hnamed a (List.mem_of_mem_take hm)
  have hpaths : front.Pairwise fun a b =>
      a.path {} (.ofString "/out") ≠ b.path {} (.ofString "/out") := by decide
  have hapart : front.Pairwise fun a b =>
      Apart (a.job {} (.ofString "/out")).directory (a.job {} (.ofString "/out")).file
        (b.job {} (.ofString "/out")).directory (b.job {} (.ofString "/out")).file :=
    hpaths.imp_of_mem fun ha hb hne => apart_of_path_ne standard_default rfl (by decide)
      (isPlain_of_isValid hvalid) (hfront _ ha) (hfront _ hb) hne
  have htargets : ∀ a ∈ front, (a.job {} (.ofString "/out")).Targets
      (a.job {} (.ofString "/out")).directory (a.job {} (.ofString "/out")).file := fun a hm =>
    (targets_of_named standard_default rfl (by decide) (hfront a hm)).own
  have hfits : ∀ a ∈ front, (a.job {} (.ofString "/out")).path.Fits ∧
      (temporaryPath (homePath {}) (a.job {} (.ofString "/out")).path 0).Fits := by
    decide
  have h := freshStart_of_named ordinary_default hvalid hfront hroot
    ⟨List.forall_mem_map.mpr htargets, List.pairwise_map.mpr hapart⟩ (by decide) (vacant_empty _)
    fun a hm text _ => ⟨(hfits a hm).1, fun _ => (hfits a hm).2⟩
  exact h

theorem outcomes_shared :
    (writeAll {} ((Schema.sampleTree.node.artifacts {} "p").map
        (Artifact.job {} (.ofString "/out"))) {}).1.map Result.outcome =
      [(.created, none), (.created, none), (.created, none), (.skipped, none)] := by
  have h := freshStart_front
  have hframe := writeAll_frame {} h.wellFormed h.separate.targets
  obtain ⟨houtcomes, halike, -⟩ :
      (writeAll {} (front.map (Artifact.job {} (.ofString "/out"))) {}).1.map Result.outcome = _ ∧
        _ ∧ _ :=
    writeAll_isolated h.wellFormed h.separate
  have hcreated : ∀ job ∈ front.map (Artifact.job {} (.ofString "/out")),
      (job.settle {} {}).1.outcome = (.created, none) := by
    refine List.forall_mem_map.mpr fun a hm => (h.settle hm).1.trans ?_
    unfold Artifact.freshOutcome
    rw [isWritable_front a hm]
    rfl
  -- the file of the entity is there when the last artifact comes to it
  obtain ⟨entity, hm, ht⟩ : ∃ a ∈ front,
      (a.job {} (.ofString "/out")).Targets ["out"] "OrderEntity.java" :=
    ⟨_, List.mem_cons_self, rfl, by decide, by decide, by decide⟩
  obtain ⟨text, -, hbytes⟩ := Artifact.exists_freshBytes (isWritable_front entity hm)
  have hf := ((h.settle hm).2 _ (.inl rfl) _).mpr ⟨hbytes, ht.own.names.symm⟩
  rw [← (halike _ (List.mem_map_of_mem hm)).entry _ (kin_self _), ht.directory_eq,
    ht.file_eq] at hf
  obtain ⟨last, hsplit, htlast, hfits, content, hc⟩ : ∃ last,
      Schema.sampleTree.node.artifacts {} "p" = front ++ [last] ∧
        (last.job {} (.ofString "/out")).Targets ["out"] "OrderEntity.java" ∧
        (last.job {} (.ofString "/out")).path.Fits ∧
        ∃ content, (last.job {} (.ofString "/out")).content = .ok content :=
    ⟨_, rfl, ⟨rfl, by decide, by decide, by decide⟩, by decide, _, rfl⟩
  have hskipped := settle_of_taken {} hframe.wellFormed htlast hfits hc rfl hf
  rw [hsplit, List.map_append, List.map_singleton, writeAll_concat, List.map_append,
    List.map_singleton, houtcomes, List.map_congr_left hcreated, hskipped]
  rfl

/-- Not all artifacts of a plan have files of their own: without the anchor the value object of the
example has the file of the entity, and is skipped because of it. -/
theorem shared_sample :
    ¬ (∀ (schema package : Json) (plan : Plan) (artifacts : List Artifact) (root : Path),
      Plan.ofJson schema package = .ok plan → plan.artifacts {} = .ok artifacts →
        (artifacts.map (Artifact.path {} root)).Nodup) ∧
    (writeAll {} ((Schema.sampleTree.node.artifacts {} "p").map
        (Artifact.job {} (.ofString "/out"))) {}).1.map Result.outcome =
      [(.created, none), (.created, none), (.created, none), (.skipped, none)] := by
  have ha : Plan.artifacts {} ⟨"p", Schema.sampleTree⟩ =
      .ok (Schema.sampleTree.node.artifacts {} "p") := rfl
  refine ⟨fun h => ?_, outcomes_shared⟩
  have hnodup := h _ _ _ _ (.ofString "/out") (ofJson_sample (by decide)) ha
  revert hnodup
  decide

/-- Below the anchor the same artifacts have files of their own. Without it the second of them still
has one, between two that share theirs, and is written as if it were alone. -/
theorem sharing_of_plan_sample :
    ((Schema.sampleTree.node.artifacts {} "a.domain").map
      (Artifact.path {} (.ofString "/out"))).Nodup ∧
    ∃ before a after, Schema.sampleTree.node.artifacts {} "p" = before ++ a :: after ∧
      (∃ b ∈ before, ∃ c ∈ after,
        b.path {} (.ofString "/out") = c.path {} (.ofString "/out")) ∧
      ((writeAll {} ((Schema.sampleTree.node.artifacts {} "p").map
          (Artifact.job {} (.ofString "/out"))) {}).1.map Result.outcome)[before.length]? =
        some ((a.job {} (.ofString "/out")).settle {} {}).1.outcome ∧
      (writeAll {} ((Schema.sampleTree.node.artifacts {} "p").map
          (Artifact.job {} (.ofString "/out"))) {}).2.get? (a.path {} (.ofString "/out")).names =
        ((a.job {} (.ofString "/out")).settle {} {}).2.get?
          (a.path {} (.ofString "/out")).names := by
  have ha : Plan.artifacts {} ⟨"a.domain", Schema.sampleTree⟩ =
      .ok (Schema.sampleTree.node.artifacts {} "a.domain") := rfl
  have hshared : Plan.artifacts {} ⟨"p", Schema.sampleTree⟩ =
      .ok (Schema.sampleTree.node.artifacts {} "p") := rfl
  have hroot : Disk.resolve {} (.ofString "/out") = .ok (.ofString "/out") := rfl
  have hanchor : Layout.HasAnchor ({} : Config).anchor "a.domain" := .inr (by decide)
  have hplan : ∀ name, PackageName.isValid name = true →
      Plan.ofJson Schema.sample (.string name) = .ok ⟨name, Schema.sampleTree⟩ :=
    fun _ => ofJson_sample
  refine ⟨(sharing_of_plan standard_default (hplan "a.domain" (by decide)) ha hroot
    (by decide)).2.2 hanchor, ?_⟩
  have hsplit : Schema.sampleTree.node.artifacts {} "p" =
      (Schema.sampleTree.node.artifacts {} "p").take 1 ++
        (Schema.sampleTree.node.artifacts {} "p").get ⟨1, by decide⟩ ::
          (Schema.sampleTree.node.artifacts {} "p").drop 2 := rfl
  exact ⟨_, _, _, hsplit, by decide, (sharing_of_plan standard_default (hplan "p" (by decide))
    hshared hroot (by decide)).2.1 _ _ _ hsplit (by decide)⟩

end DomainCodegen
