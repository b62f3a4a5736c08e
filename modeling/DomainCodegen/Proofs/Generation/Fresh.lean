import DomainCodegen.Proofs.Artifact.Places
import DomainCodegen.Proofs.Artifact.Writable
import DomainCodegen.Proofs.Disk.Ready
import DomainCodegen.Proofs.Output.Containment
import DomainCodegen.Proofs.Output.Undisturbed

/-!
# Fresh runs

A run into a directory that is empty or not there creates the file of every artifact that can be
rendered, and nothing else, whatever turns its tasks take: `generate_fresh` lists the results, the
files below the output root with their bytes, and what the verification finds.
-/

namespace DomainCodegen

namespace Disk

variable {disk : Disk} {p : Path} {place dir : Location} {name kin content : String}
  {bytes : List UInt8} {mode : SaveMode}

/-! ## Vacant directories -/

/-- A directory that can be made, or that is there and empty. -/
structure Vacant (disk : Disk) (place : Location) : Prop where
  way : disk.Open place
  below : ∀ rest, rest ≠ [] → disk.get? (place ++ rest) = none

theorem Vacant.open_append (h : disk.Vacant place) (rest : Location) :
    disk.Open (place ++ rest) := by
  intro front hf bytes hb
  rcases List.prefix_or_prefix_of_prefix hf (List.prefix_append place rest) with hp | ⟨more, rfl⟩
  · exact h.way front hp bytes hb
  · by_cases hm : more = []
    · rw [hm, List.append_nil] at hb
      exact h.way place List.prefix_rfl bytes hb
    · rw [h.below more hm] at hb
      cases hb

theorem Vacant.get?_eq_none (h : disk.Vacant place) (rest : Location) :
    disk.get? (place ++ rest ++ [name]) = none := by
  rw [List.append_assoc]
  exact h.below _ append_singleton_ne_nil

end Disk

namespace Output

open Disk

variable [Surrogates] {disk : Disk} {options : OutputOptions} {job : Job} {dir : Location}
  {name content : String}

/-- Where nothing is, a job creates its file, or fails if its text cannot be encoded. -/
theorem settle_of_vacant (wf : disk.WellFormed) (ht : job.Targets dir name)
    (hc : job.content = .ok content) (ho : disk.Open dir) (hp : job.path.Fits)
    (htemp : options.atomic = true → (temporaryPath disk.homePath job.path 0).Fits)
    (hfree : ∀ kin, disk.get? (dir ++ [kin]) = none) :
    (job.settle options disk).1.outcome =
        (if ((saveMode options).encode content).isOk then .created else .failed, none) ∧
      (job.settle options disk).2.get? (dir ++ [name]) =
        ((saveMode options).written content).map .file ∧
      ∀ k, (job.settle options disk).2.get? (dir ++ [backupName name k]) = none := by
  have hb := ht.beside disk
  have hh : disk.holds job.path = .ok false := by
    rw [holds_of_fits wf hb.straight hp, hb.place, hfree name]
    rfl
  rw [(settle_of_ok hc).1, (settle_of_ok hc).2, (put_of_free hh).1, (put_of_free hh).2]
  have hready : disk.Ready options.atomic dir name job.path :=
    ready_of_free ho hp htemp hfree
  obtain ⟨made, hg, hs, hsame⟩ :=
    save_of_ready wf hb ht.isAbsolute (saveMode options) content hready
  have hnone : ∀ kin, made.get? (dir ++ [kin]) = none := fun kin => by
    rw [hg.get?_eq append_singleton_not_prefix, hfree kin]
  refine ⟨?_, ?_, fun k => ?_⟩
  · rw [hs]
    cases (saveMode options).encode content <;> rfl
  · rw [hsame.entry]
    cases (saveMode options).written content with
    | none => exact hnone name
    | some bytes => exact get?_set_self
  · rw [hsame.entry]
    cases (saveMode options).written content with
    | none => exact hnone _
    | some bytes =>
      refine (get?_set_append.trans (if_neg ?_)).trans (hnone _)
      simpa using backupName_ne_self name k

end Output

/-! ## Plans -/

variable {settings : Settings} {config : Config} {schema package : Json} {plan : Plan}
  {artifacts : List Artifact} {disk : Disk} {output root : Path}

open Disk Output

theorem artifacts_eq_ok (h : plan.artifacts config = .ok artifacts) :
    plan.tree.artifacts config plan.package = .ok artifacts := by
  unfold Plan.artifacts at h
  cases ha : plan.tree.artifacts config plan.package with
  | error e => rw [ha] at h; cases h
  | ok all =>
    rw [ha] at h
    cases h
    rfl

section

variable [Surrogates]

/-- The parts of a plan are what is read from the two values it is made of. -/
theorem parts_of_ofJson (h : Plan.ofJson schema package = .ok plan) :
    PackageName.ofJson package = .ok plan.package ∧ Schema.Tree.read schema = .ok plan.tree := by
  unfold Plan.ofJson at h
  split at h
  · cases h
  next name hname =>
  split at h
  · cases h
  next tree hread =>
  cases h
  exact ⟨hname, hread⟩

theorem ofJson_eq_ok (h : Plan.ofJson schema package = .ok plan) :
    PackageName.isValid plan.package = true ∧ Schema.Tree.read schema = .ok plan.tree := by
  obtain ⟨hname, hread⟩ := parts_of_ofJson h
  refine ⟨?_, hread⟩
  unfold PackageName.ofJson at hname
  split at hname
  · split at hname
    · next hv =>
      obtain rfl := Except.ok.inj hname
      exact hv
    · cases hname
  · cases hname

theorem ofJson_of_read {name : String} {tree : Schema.Tree} (h : PackageName.isValid name = true)
    (hread : Schema.Tree.read schema = .ok tree) :
    Plan.ofJson schema (.string name) = .ok ⟨name, tree⟩ := by
  have hname : PackageName.ofJson (.string name) = .ok name := if_pos h
  unfold Plan.ofJson
  rw [hname, hread]

/-- Settings of an ordinary run: the default names and places, UTF-8, and output options and a
number of workers that are accepted. -/
structure Settings.Ordinary (settings : Settings) : Prop where
  standard : settings.config.Standard
  encoding : settings.config.output.encoding = .ok .utf8
  output : settings.checkOutput "overwrite" = .ok ()
  workers : settings.checkWorkers = .ok ()

/-- A run whose settings are accepted does the jobs of all artifacts and verifies the report. -/
theorem generate_eq {turns : List Nat} (ho : settings.Ordinary)
    (hplan : Plan.ofJson schema package = .ok plan)
    (ha : plan.artifacts settings.config = .ok artifacts)
    (hroot : disk.resolve output = .ok root) :
    generate settings schema package output disk turns =
      (((plan.unverified settings turns (artifacts.map (Artifact.job settings.config root)) root
          disk).verify (writeAllBy settings.workers turns settings.config.output
            (artifacts.map (Artifact.job settings.config root)) disk).2
          settings.config.output.extension).mapError .search,
        (writeAllBy settings.workers turns settings.config.output
          (artifacts.map (Artifact.job settings.config root)) disk).2) := by
  unfold generate Plan.generate
  simp only [hplan, ha]
  exact Plan.writeJobs_eq ho.output ho.workers hroot

/-! ## A fresh run -/

/-- The outcome of an artifact where nothing is in its way. -/
def Artifact.freshOutcome (config : Config) (a : Artifact) : Status × Option Path :=
  (if a.isWritable config then .created else .failed, none)

/-- What the file of an artifact holds where nothing was, if there is a file. One that was opened
for a text without bytes is left empty. -/
def Artifact.freshBytes (config : Config) (a : Artifact) : Option (List UInt8) :=
  match a.render config with
  | .error _ => none
  | .ok text =>
    if Text.hasSurrogate text then if config.output.atomic then none else some []
    else some (Text.Utf8.encode text.toList)

theorem Artifact.hasText_of_freshBytes {a : Artifact} {bytes : List UInt8}
    (h : a.freshBytes config = some bytes) : (a.job config root).HasText := by
  unfold freshBytes at h
  cases hr : a.render config with
  | error e => rw [hr] at h; cases h
  | ok text => exact ⟨text, hr⟩

theorem Artifact.exists_freshBytes {a : Artifact} (h : a.isWritable config = true) :
    ∃ text, a.render config = .ok text ∧
      a.freshBytes config = some (Text.Utf8.encode text.toList) := by
  obtain ⟨text, hr, hs⟩ := isWritable_iff.mp h
  refine ⟨text, hr, ?_⟩
  unfold freshBytes
  rw [hr]
  exact if_neg (by simp [hs])

/-- What the system has to take: the path of a file, and that of the temporary file for it. -/
structure Output.Job.WithinLimits (options : OutputOptions) (disk : Disk) (job : Job) : Prop where
  path : job.path.Fits
  temporary : options.atomic = true → (temporaryPath disk.homePath job.path 0).Fits

theorem settle_fresh {a : Artifact} {dir rest : Location} {name : String}
    (henc : config.output.encoding = .ok .utf8) (ht : (a.job config root).Targets dir name)
    (hdir : dir = root.names ++ rest) (wf : disk.WellFormed) (hv : disk.Vacant root.names)
    (hlim : ∀ text, a.render config = .ok text →
      (a.job config root).WithinLimits config.output disk) :
    ((a.job config root).settle config.output disk).1.outcome = a.freshOutcome config ∧
      ∀ place, Owns dir name place → ∀ bytes,
        ((a.job config root).settle config.output disk).2.get? place = some (.file bytes) ↔
          a.freshBytes config = some bytes ∧ place = dir ++ [name] := by
  have hfree : ∀ kin, disk.get? (dir ++ [kin]) = none := fun kin => by
    rw [hdir]
    exact hv.get?_eq_none rest
  cases hr : a.render config with
  | error e =>
    have hc : (a.job config root).content = .error e := hr
    rw [(settle_of_error hc).1, (settle_of_error hc).2]
    unfold Artifact.freshOutcome Artifact.isWritable Artifact.freshBytes
    rw [hr]
    refine ⟨rfl, fun place hown bytes => iff_of_false ?_ nofun⟩
    obtain ⟨kin, -, rfl⟩ := exists_kin_of_owns hown
    rw [hfree kin]
    exact nofun
  | ok text =>
    have hc : (a.job config root).content = .ok text := hr
    obtain ⟨hout, hfile, hnone⟩ := settle_of_vacant wf ht hc
      (hdir ▸ hv.open_append rest) (hlim text hr).path (hlim text hr).temporary hfree
    have hwritable : a.isWritable config = ((saveMode config.output).encode text).isOk := by
      unfold Artifact.isWritable
      rw [hr]
      exact (isOk_encode_of_utf8 henc).symm
    have hbytes : a.freshBytes config = (saveMode config.output).written text := by
      have henc : (saveMode config.output).encoding = .ok .utf8 := henc
      unfold Artifact.freshBytes
      rw [hr, written_of_utf8 henc]
      rfl
    unfold Artifact.freshOutcome
    rw [hwritable, hbytes]
    refine ⟨hout, fun place hown bytes => ?_⟩
    rcases hown with rfl | ⟨k, rfl⟩
    · rw [hfile, and_iff_left rfl]
      simp
    · rw [hnone k]
      refine iff_of_false nofun fun h => ?_
      exact backupName_ne_self name k (by simpa using h.2)

/-- The start of a fresh run: nothing is below the output root, where all the artifacts go, and
their jobs do not meet. -/
structure FreshStart (config : Config) (artifacts : List Artifact) (root : Path) (disk : Disk) :
    Prop where
  encoding : config.output.encoding = .ok .utf8
  wellFormed : disk.WellFormed
  vacant : disk.Vacant root.names
  separate : Separate (artifacts.map (Artifact.job config root))
  proper : ∀ job ∈ artifacts.map (Artifact.job config root), job.Proper
  below : ∀ a ∈ artifacts, ∃ rest name, (a.job config root).Targets (root.names ++ rest) name
  limits : ∀ a ∈ artifacts, ∀ text, a.render config = .ok text →
    (a.job config root).WithinLimits config.output disk

/-- All artifacts of a plan go below the output root. -/
theorem targets_below {a : Artifact} {name : String} (hc : config.Standard) (hn : a.Named name)
    (hvalid : PackageName.isValid name = true) (hroot : disk.resolve output = .ok root) :
    (a.job config root).Targets
      (root.names ++ (Layout.packagePath config.anchor a.package).names)
      (a.className ++ config.output.extension) := by
  have ht := targets_of_named hc (isAbsolute_of_resolve hroot) (up_notMem_of_resolve hroot) hn
  rwa [Layout.directory_of_isPlain (hn.package.isPlain (isPlain_of_isValid hvalid))] at ht

theorem freshStart_of_named {name : String} (ho : settings.Ordinary)
    (hvalid : PackageName.isValid name = true) (hnamed : ∀ a ∈ artifacts, a.Named name)
    (hroot : disk.resolve output = .ok root)
    (hsep : Separate (artifacts.map (Artifact.job settings.config root))) (wf : disk.WellFormed)
    (hv : disk.Vacant root.names)
    (hlim : ∀ a ∈ artifacts, ∀ text, a.render settings.config = .ok text →
      (a.job settings.config root).WithinLimits settings.config.output disk) :
    FreshStart settings.config artifacts root disk := by
  have hext : '/' ∉ settings.config.output.extension.toList := by
    rw [ho.standard.extension]
    decide
  exact ⟨ho.encoding, wf, hv, hsep,
    List.forall_mem_map.mpr fun a _ =>
      (isOfClass_artifact _ root a).proper (isAbsolute_of_resolve hroot)
        (up_notMem_of_resolve hroot) hext,
    fun a hm => ⟨_, _, targets_below ho.standard (hnamed a hm) hvalid hroot⟩, hlim⟩

theorem freshStart_of_plan (ho : settings.Ordinary)
    (hplan : Plan.ofJson schema package = .ok plan)
    (ha : plan.artifacts settings.config = .ok artifacts)
    (hanchor : Layout.HasAnchor settings.config.anchor plan.package)
    (hroot : disk.resolve output = .ok root) (wf : disk.WellFormed)
    (hv : disk.Vacant root.names)
    (hlim : ∀ a ∈ artifacts, ∀ text, a.render settings.config = .ok text →
      (a.job settings.config root).WithinLimits settings.config.output disk) :
    FreshStart settings.config artifacts root disk := by
  obtain ⟨hvalid, hread⟩ := ofJson_eq_ok hplan
  have hall := artifacts_eq_ok ha
  obtain ⟨hnamed, -⟩ := artifacts_of_read ho.standard hread hall
  exact freshStart_of_named ho hvalid hnamed hroot
    (separate_of_read ho.standard hread hall hanchor hroot) wf hv hlim

namespace FreshStart

theorem settle {a : Artifact} (h : FreshStart config artifacts root disk) (ha : a ∈ artifacts) :
    ((a.job config root).settle config.output disk).1.outcome = a.freshOutcome config ∧
      ∀ place, Owns (a.job config root).directory (a.job config root).file place → ∀ bytes,
        ((a.job config root).settle config.output disk).2.get? place = some (.file bytes) ↔
          a.freshBytes config = some bytes ∧ place = (a.path config root).names := by
  obtain ⟨rest, name, ht⟩ := h.below a ha
  have hnames : (a.path config root).names = root.names ++ rest ++ [name] := ht.names
  rw [ht.directory_eq, ht.file_eq, hnames]
  exact settle_fresh h.encoding ht rfl h.wellFormed h.vacant (h.limits a ha)

variable {workers : Option Nat} {turns : List Nat}

theorem results (h : FreshStart config artifacts root disk) :
    (writeAllBy workers turns config.output (artifacts.map (Artifact.job config root)) disk).1.map
        (fun r => ((r.path, r.className), r.outcome)) =
      artifacts.map fun a => ((a.path config root, some a.className), a.freshOutcome config) := by
  have hout : (artifacts.map (Artifact.job config root)).map
      (fun job => (job.settle config.output disk).1.outcome) =
        artifacts.map (Artifact.freshOutcome config) := by
    rw [List.map_map]
    exact List.map_congr_left fun a ha => (h.settle ha).1
  have hid : (artifacts.map (Artifact.job config root)).map (fun job => (job.path, job.className)) =
      artifacts.map fun a => (a.path config root, some a.className) := by
    rw [List.map_map]
    rfl
  obtain ⟨houtcomes, -⟩ : (writeAllBy workers turns config.output _ disk).1.map _ = _ ∧ _ :=
    writeAllBy_isolated workers turns config.output h.wellFormed h.separate.keepsApart h.proper
  rw [← List.zip_map', writeAllBy_identity, houtcomes, hout, hid, List.zip_map']

/-- The files below the output root after a fresh run are those of its artifacts. -/
theorem files (h : FreshStart config artifacts root disk) (rest : Location) (bytes : List UInt8) :
    (writeAllBy workers turns config.output (artifacts.map (Artifact.job config root)) disk).2.get?
        (root.names ++ rest) = some (.file bytes) ↔
      ∃ a ∈ artifacts, a.freshBytes config = some bytes ∧
        (a.path config root).names = root.names ++ rest := by
  obtain ⟨-, halike, hrest⟩ : (writeAllBy workers turns config.output _ disk).1.map _ = _ ∧ _ :=
    writeAllBy_isolated workers turns config.output h.wellFormed h.separate.keepsApart h.proper
  have hown : ∀ a ∈ artifacts, (a.job config root).HasText → ∀ place,
      Owns (a.job config root).directory (a.job config root).file place →
      (writeAllBy workers turns config.output (artifacts.map (Artifact.job config root))
          disk).2.get? place =
        ((a.job config root).settle config.output disk).2.get? place := by
    intro a ha hc place ho
    obtain ⟨kin, hk, rfl⟩ := exists_kin_of_owns ho
    exact (halike _ (List.mem_map_of_mem ha) hc).entry kin hk
  constructor
  · intro hf
    by_cases ho : ∃ a ∈ artifacts, (a.job config root).HasText ∧
        Owns (a.job config root).directory (a.job config root).file (root.names ++ rest)
    · obtain ⟨a, ha, hc, ho⟩ := ho
      rw [hown a ha hc _ ho, (h.settle ha).2 _ ho] at hf
      exact ⟨a, ha, hf.1, hf.2.symm⟩
    · -- a place of no artifact with a text holds what it held before
      exfalso
      rw [hrest] at hf
      · by_cases hne : rest = []
        · rw [hne, List.append_nil] at hf
          exact h.vacant.way _ List.prefix_rfl bytes hf
        · rw [h.vacant.below rest hne] at hf
          cases hf
      · intro job hj hc hjo
        obtain ⟨a, ha, rfl⟩ := List.mem_map.mp hj
        exact ho ⟨a, ha, hc, hjo⟩
  · rintro ⟨a, ha, hb, hp⟩
    have ho : Owns (a.job config root).directory (a.job config root).file (root.names ++ rest) := by
      obtain ⟨front, name, ht⟩ := h.below a ha
      rw [ht.directory_eq, ht.file_eq, ← hp]
      exact .inl ht.names
    rw [hown a ha (Artifact.hasText_of_freshBytes hb) _ ho, (h.settle ha).2 _ ho]
    exact ⟨hb, hp.symm⟩

/-- In a fresh run a file is created or has failed. -/
theorem status (h : FreshStart config artifacts root disk) {r : Result}
    (hr : r ∈ (writeAllBy workers turns config.output (artifacts.map (Artifact.job config root))
      disk).1) : r.status = .created ∨ r.status = .failed := by
  have hm := List.mem_map_of_mem (f := fun r : Result => ((r.path, r.className), r.outcome)) hr
  rw [h.results] at hm
  obtain ⟨a, -, he⟩ := List.mem_map.mp hm
  have hstatus : (a.freshOutcome config).1 = r.status := congrArg (fun t => t.2.1) he
  rw [← hstatus]
  unfold Artifact.freshOutcome
  cases a.isWritable config with
  | false => exact .inr rfl
  | true => exact .inl rfl

/-- A fresh run ends with a report, and all files that it says were created are found. -/
theorem exists_report (h : FreshStart settings.config artifacts root disk) (turns : List Nat)
    (ho : settings.Ordinary) (hplan : Plan.ofJson schema package = .ok plan)
    (ha : plan.artifacts settings.config = .ok artifacts) (hroot : disk.resolve output = .ok root) :
    ∃ report after, generate settings schema package output disk turns = (.ok report, after) ∧
      (report.results, after) = writeAllBy settings.workers turns settings.config.output
        (artifacts.map (Artifact.job settings.config root)) disk ∧
      ∃ v, report.verification = some v ∧ v.isOk = true ∧ v.verified = report.count .created := by
  have hopen : Job.AllOpen (artifacts.map (Artifact.job settings.config root)) :=
    allOpen_of_isOfClass (isAbsolute_of_resolve hroot)
      (List.forall_mem_map.mpr fun a _ => isOfClass_artifact _ root a)
  rw [generate_eq ho hplan ha hroot,
    verify_of_found _ (plan.found_unverified h.wellFormed hopen root)]
  refine ⟨_, _, rfl, rfl, _, rfl, rfl, ?_⟩
  show ((List.length _ : Nat) : Int) = (List.length _ : Nat)
  refine congrArg (fun results : List Result => (results.length : Int))
    (List.filter_congr fun r hr => ?_)
  rcases h.status hr with hs | hs <;> rw [hs] <;> rfl

end FreshStart

/-- A fresh run has one result for each artifact, in order: its file is created if it has a text
that can be written, and has failed otherwise. The files below the output root are those of the
artifacts, each at a path of its own with the text in UTF-8, and the verification finds all files
that were created. -/
theorem generate_fresh (turns : List Nat) (ho : settings.Ordinary)
    (hplan : Plan.ofJson schema package = .ok plan)
    (ha : plan.artifacts settings.config = .ok artifacts)
    (hanchor : Layout.HasAnchor settings.config.anchor plan.package)
    (hroot : disk.resolve output = .ok root) (wf : disk.WellFormed)
    (hv : disk.Vacant root.names)
    (hlim : ∀ a ∈ artifacts, ∀ text, a.render settings.config = .ok text →
      (a.job settings.config root).WithinLimits settings.config.output disk) :
    ∃ report after, generate settings schema package output disk turns = (.ok report, after) ∧
      report.results.map (fun r => ((r.path, r.className), r.outcome)) =
        artifacts.map (fun a => ((a.path settings.config root, some a.className),
          a.freshOutcome settings.config)) ∧
      (artifacts.map (Artifact.path settings.config root)).Nodup ∧
      (∀ rest bytes, after.get? (root.names ++ rest) = some (.file bytes) ↔
        ∃ a ∈ artifacts, a.freshBytes settings.config = some bytes ∧
          (a.path settings.config root).names = root.names ++ rest) ∧
      ∃ v, report.verification = some v ∧ v.isOk = true ∧ v.verified = report.count .created := by
  have h := freshStart_of_plan ho hplan ha hanchor hroot wf hv hlim
  have hnodup := h.separate.nodup_paths
  rw [List.map_map] at hnodup
  obtain ⟨report, after, hg, hwrite, hverified⟩ := h.exists_report turns ho hplan ha hroot
  obtain ⟨hresults, hafter⟩ := Prod.mk.inj hwrite
  refine ⟨report, after, hg, ?_, hnodup, fun rest bytes => ?_, hverified⟩
  · rw [hresults]
    exact h.results
  · rw [hafter]
    exact h.files rest bytes

end

/-! ## Examples -/

open scoped Surrogates

theorem ordinary_default : Settings.Ordinary {} :=
  ⟨standard_default, rfl, rfl, rfl⟩

theorem ofJson_sample {name : String} (h : PackageName.isValid name = true) :
    Plan.ofJson Schema.sample (.string name) = .ok ⟨name, Schema.sampleTree⟩ :=
  ofJson_of_read h Schema.read_sample

theorem vacant_empty (place : Location) : Disk.Vacant {} place where
  way := Disk.open_empty place
  below rest hr := by
    unfold Disk.get?
    rw [if_neg (by simp [hr])]
    rfl

/-- The artifacts of the sample. -/
theorem isWritable_sample : ∀ a ∈ Schema.sampleTree.node.artifacts (Settings.config {}) "a.domain",
    a.isWritable (Settings.config {}) = true := by
  refine List.forall_mem_cons.mpr ⟨?_, List.forall_mem_cons.mpr ⟨?_, List.forall_mem_cons.mpr
    ⟨?_, List.forall_mem_singleton.mpr ?_⟩⟩⟩
  all_goals exact Artifact.isWritable_of_bytes rfl (by decide +kernel)

theorem generate_fresh_sample :
    ∃ report after, ∃ text : String,
      generate {} Schema.sample (.string "a.domain") (.ofString "/out") {} [0, 1, 0, 3] =
        (.ok report, after) ∧
      report.results.map (·.status) = [.created, .created, .created, .created] ∧
      after.get? ["out", "OrderEntity.java"] = some (.file (Text.Utf8.encode text.toList)) ∧
      (∀ bytes, after.get? ["out", ".OrderEntity.java.00000000.tmp"] ≠ some (.file bytes)) ∧
      ∃ v, report.verification = some v ∧ v.isOk = true ∧
        v.verified = report.count .created := by
  have ha : Plan.artifacts (Settings.config {}) ⟨"a.domain", Schema.sampleTree⟩ =
      .ok (Schema.sampleTree.node.artifacts (Settings.config {}) "a.domain") := rfl
  have hanchor : Layout.HasAnchor (Settings.config {}).anchor "a.domain" := .inr (by decide)
  have hroot : Disk.resolve {} (.ofString "/out") = .ok (.ofString "/out") := rfl
  have hfits : ∀ a ∈ Schema.sampleTree.node.artifacts (Settings.config {}) "a.domain",
      (a.job (Settings.config {}) (.ofString "/out")).path.Fits ∧
      (Disk.temporaryPath (Disk.homePath {})
        (a.job (Settings.config {}) (.ofString "/out")).path 0).Fits := by
    decide
  obtain ⟨report, after, hg, hresults, -, hfiles, hv⟩ := generate_fresh [0, 1, 0, 3]
    ordinary_default (ofJson_sample (by decide)) ha hanchor hroot (by decide) (vacant_empty _)
    fun a hm text _ => ⟨(hfits a hm).1, fun _ => (hfits a hm).2⟩
  have hstatus : report.results.map (·.status) =
      (Schema.sampleTree.node.artifacts (Settings.config {}) "a.domain").map
        fun a => (a.freshOutcome (Settings.config {})).1 := by
    have houtcomes := congrArg (List.map fun t => t.2.1) hresults
    rwa [List.map_map, List.map_map] at houtcomes
  have hcreated : ∀ a ∈ Schema.sampleTree.node.artifacts (Settings.config {}) "a.domain",
      (a.freshOutcome (Settings.config {})).1 = .created := fun a hm => by
    unfold Artifact.freshOutcome
    rw [isWritable_sample a hm]
    rfl
  obtain ⟨text, -, hbytes⟩ :=
    Artifact.exists_freshBytes (isWritable_sample _ (List.head_mem (by decide)))
  refine ⟨report, after, text, hg, hstatus.trans (List.map_congr_left hcreated),
    (hfiles ["OrderEntity.java"] _).mpr ⟨_, List.head_mem _, hbytes, by decide⟩,
    fun bytes hf => ?_, hv⟩
  obtain ⟨a, hm, -, hnames⟩ := (hfiles [".OrderEntity.java.00000000.tmp"] bytes).mp hf
  revert a
  decide

/-! ## A text and a directory that cannot be written -/

/-- A lone surrogate, as it is read from an escape in a schema. -/
def lone : String := String.ofList [Text.charOfCode 0xd800]

def loneSample : Json :=
  .object [("name", .string "order"), ("type", .string "SimpleEntity"),
    ("description", .string lone)]

def loneTree : Schema.Tree where
  info := ⟨"order", lone, .single, []⟩
  isRoot := false
  subPackage := none
  members := []

open Schema in
theorem read_loneSample : Tree.read loneSample = .ok loneTree := by
  have hhead : readHead loneSample [] = .ok (.simpleEntity, ⟨"order", lone, .single, []⟩) := rfl
  have hdocs : attributes? loneSample = some [] := rfl
  have hmembers : readChildren .entity [] 0 [] = .ok loneTree.members := by
    rw [readChildren]
    rfl
  have hnode : readNode loneSample [] = .ok loneTree.node :=
    readNode_of_simpleEntity hhead hdocs hmembers
  have hread : Tree.read loneSample = Tree.ofDocument loneSample := rfl
  rw [hread]
  unfold Tree.ofDocument
  rw [hnode]
  rfl

/-- The run of a schema with a lone surrogate, where nothing is. -/
theorem freshStart_lone :
    FreshStart (Settings.config {}) (loneTree.node.artifacts (Settings.config {}) "a.domain")
      (.ofString "/out") {} := by
  have ha : Plan.artifacts (Settings.config {}) ⟨"a.domain", loneTree⟩ =
      .ok (loneTree.node.artifacts (Settings.config {}) "a.domain") := rfl
  have hroot : Disk.resolve {} (.ofString "/out") = .ok (.ofString "/out") := rfl
  have hfits : ∀ a ∈ loneTree.node.artifacts (Settings.config {}) "a.domain",
      (a.job (Settings.config {}) (.ofString "/out")).path.Fits ∧
      (Disk.temporaryPath (Disk.homePath {})
        (a.job (Settings.config {}) (.ofString "/out")).path 0).Fits := by
    decide
  exact freshStart_of_plan ordinary_default (ofJson_of_read (by decide) read_loneSample) ha
    (.inr (by decide)) hroot (by decide) (vacant_empty _)
    fun a hm text _ => ⟨(hfits a hm).1, fun _ => (hfits a hm).2⟩

/-- The file of the entity has the description of the schema, and so a text without bytes. -/
theorem exists_lone_text : ∃ a ∈ loneTree.node.artifacts (Settings.config {}) "a.domain",
    ∃ text, a.render (Settings.config {}) = .ok text ∧ Text.hasSurrogate text = true := by
  obtain ⟨entity, hm, file, hfile, hdoc⟩ :
      ∃ a ∈ loneTree.node.artifacts (Settings.config {}) "a.domain",
        ∃ file, a.file (Settings.config {}) = .ok file ∧ file.doc = lone :=
    ⟨_, List.head_mem (by decide), _, rfl, rfl⟩
  exact ⟨entity, hm, file.print, congrArg (Except.map Java.File.print) hfile,
    Java.hasSurrogate_print (by rw [hdoc]; decide +kernel)⟩

/-- A text with a lone surrogate can be made, but not written, and there is no run at all into a
directory whose path holds a NUL. -/
theorem not_created_and_not_generated :
    (∃ artifacts report after,
      Plan.artifacts (Settings.config {}) ⟨"a.domain", loneTree⟩ = .ok artifacts ∧
      generate {} loneSample (.string "a.domain") (.ofString "/out") {} = (.ok report, after) ∧
      ∃ a ∈ artifacts, (a.render (Settings.config {})).isOk = true ∧
        ∃ r ∈ report.results, r.path = a.path (Settings.config {}) (.ofString "/out") ∧
          r.status = .failed) ∧
    ¬ ∃ report after, generate {} Schema.sample (.string "a.domain") (.ofString "out\x00") {} =
      (.ok report, after) := by
  constructor
  · have ha : Plan.artifacts (Settings.config {}) ⟨"a.domain", loneTree⟩ =
        .ok (loneTree.node.artifacts (Settings.config {}) "a.domain") := rfl
    have hroot : Disk.resolve {} (.ofString "/out") = .ok (.ofString "/out") := rfl
    obtain ⟨report, after, hg, hwrite, -⟩ := freshStart_lone.exists_report [] ordinary_default
      (ofJson_of_read (by decide) read_loneSample) ha hroot
    obtain ⟨entity, hm, text, hrender, hlone⟩ := exists_lone_text
    have hmem := List.mem_map_of_mem (f := fun a : Artifact =>
      ((a.path (Settings.config {}) (.ofString "/out"), some a.className),
        a.freshOutcome (Settings.config {}))) hm
    rw [← freshStart_lone.results, ← congrArg Prod.fst hwrite] at hmem
    obtain ⟨r, hr, he⟩ := List.mem_map.mp hmem
    have hpath : r.path = entity.path (Settings.config {}) (.ofString "/out") :=
      congrArg (fun t => t.1.1) he
    have hstatus : r.status = (entity.freshOutcome (Settings.config {})).1 :=
      congrArg (fun t => t.2.1) he
    refine ⟨_, report, after, ha, hg, entity, hm, by rw [hrender]; rfl, r, hr, hpath,
      hstatus.trans ?_⟩
    unfold Artifact.freshOutcome Artifact.isWritable
    rw [hrender]
    simp [hlone]
  · have ha : Plan.artifacts (Settings.config {}) ⟨"a.domain", Schema.sampleTree⟩ =
        .ok (Schema.sampleTree.node.artifacts (Settings.config {}) "a.domain") := rfl
    rintro ⟨report, after, h⟩
    unfold generate Plan.generate at h
    rw [ofJson_sample (by decide)] at h
    simp only [ha] at h
    cases h

end DomainCodegen
