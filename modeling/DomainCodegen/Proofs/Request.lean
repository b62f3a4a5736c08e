import DomainCodegen.Proofs.Disk.Faults
import DomainCodegen.Proofs.Generation.Fresh
import DomainCodegen.Proofs.Output.Containment
import DomainCodegen.Request

/-!
# What a request may do

A request asks once, and only after everything that can be refused has been looked at. Without a
report it leaves the disk alone; with one it has done what generation does in the directory that was
asked for, with the two flags as options (`run_honoured`).
-/

namespace DomainCodegen

/-! ## Resolving in steps -/

namespace Path

variable {p q : Path}

theorem normalFrom_append (back front rest : List String) :
    normalFrom back (front ++ rest) = normalFrom (normalFrom back front).reverse rest := by
  induction front generalizing back with
  | nil => rw [List.nil_append, normalFrom, List.reverse_reverse]
  | cons name r ih =>
    rw [List.cons_append, normalFrom, normalFrom]
    split
    · exact ih _
    · exact ih _

/-- Names that are normal already can be gone on from. -/
theorem normalNames_append (front rest : List String) :
    normalNames (normalNames front ++ rest) = normalNames (front ++ rest) := by
  have hfront : normalNames (normalNames front) = normalNames front :=
    Disk.normalNames_of_straight (up_notMem_normalFrom nofun)
  unfold normalNames at hfront ⊢
  rw [normalFrom_append [] (normalFrom [] front), hfront, normalFrom_append [] front]

theorem hasAny_ofString {kind : Char → Bool} {s : String} (h : s.toList.any kind = false) :
    (ofString s).hasAny kind = false := by
  rw [hasAny_eq_false_iff]
  intro name hm
  obtain ⟨piece, hp, rfl⟩ := List.mem_map.mp hm
  rw [String.toList_ofList, List.any_eq_false]
  intro c hc
  exact List.any_eq_false.mp h c (mem_of_mem_splitOn (List.mem_of_mem_filter hp) _ hc).1

theorem join_current (p : Path) : p.join .current = p := by
  show { p with names := p.names ++ [] } = p
  rw [List.append_nil]

/-- What is seen from a path is seen from a third one as the path is. -/
theorem names_join_join (p : Path) (hq : q.isAbsolute = false) (home : Path) :
    (home.join (p.join q)).names = (home.join p).names ++ q.names := by
  rw [join_of_not_isAbsolute hq]
  cases hp : p.isAbsolute with
  | true =>
    have hlonger : ({ p with names := p.names ++ q.names } : Path).isAbsolute = true := hp
    rw [join_of_isAbsolute hlonger, join_of_isAbsolute hp]
  | false =>
    have hlonger : ({ p with names := p.names ++ q.names } : Path).isAbsolute = false := hp
    rw [join_of_not_isAbsolute hlonger, join_of_not_isAbsolute hp, List.append_assoc]

end Path

namespace Disk

variable {disk : Disk} {p q root : Path}

/-- Where a path leads, without `..`. -/
def rootOf (disk : Disk) (p : Path) : Path :=
  { start := .slash, names := (Path.normal disk.homePath p).names }

theorem resolve_of_fit [Surrogates] (h : p.hasUnfit = false) :
    disk.resolve p = .ok (disk.rootOf p) :=
  resolve_eq_ok_iff.mpr ⟨h, rfl⟩

theorem rootOf_fit [Surrogates] (h : (disk.homePath.join p).hasUnfit = false) :
    (disk.rootOf p).hasUnfit = false :=
  Path.hasAny_normal h

/-- A path can be resolved before another one is seen from it. -/
theorem rootOf_join (disk : Disk) (p q : Path) :
    disk.rootOf ((disk.rootOf p).join q) = disk.rootOf (p.join q) := by
  cases hq : q.isAbsolute with
  | true => rw [Path.join_of_isAbsolute hq, Path.join_of_isAbsolute hq]
  | false =>
    have hhome : disk.homePath.join (disk.rootOf p) = disk.rootOf p :=
      Path.join_of_isAbsolute rfl
    show Path.mk .slash (Path.normalNames (disk.homePath.join ((disk.rootOf p).join q)).names) =
      Path.mk .slash (Path.normalNames (disk.homePath.join (p.join q)).names)
    rw [Path.names_join_join _ hq, Path.names_join_join _ hq, hhome]
    exact congrArg _ (Path.normalNames_append _ _)

theorem rootOf_rootOf (disk : Disk) (p : Path) : disk.rootOf (disk.rootOf p) = disk.rootOf p := by
  have hjoin := disk.rootOf_join p .current
  rwa [Path.join_current, Path.join_current] at hjoin

end Disk

/-! ## Settings with flags -/

namespace Settings

variable {s s' : Settings}

/-- The settings of a configuration: there are options for the output, and nothing is given in the
place of the list of settings. -/
structure IsConfiguration (s : Settings) : Prop where
  output : ∃ members, s.output = .options members
  members : s.values.lookup membersKey = none

/-- Settings that a run accepts. -/
structure Accepted (s : Settings) : Prop where
  output : s.checkOutput "overwrite" = .ok ()
  workers : s.checkWorkers = .ok ()

theorem config_congr [Surrogates]
    (hget : ∀ name ∈ defaultValues.map Prod.fst, s.get name = s'.get name)
    (ho : s.output = s'.output) (hc : s.codecs = s'.codecs) : s.config = s'.config := by
  unfold config textOf classOf
  simp (disch := decide) only [hget, ho, hc]

theorem lookup_map_fst {f : String → Json} {name : String} {values : List (String × Json)}
    (h : name ∈ values.map Prod.fst) :
    (values.map fun (name, _) => (name, f name)).lookup name = some (f name) := by
  induction values with
  | nil => cases h
  | cons value values ih =>
    obtain ⟨first, v⟩ := value
    rw [List.map_cons, List.lookup_cons]
    by_cases he : name = first
    · rw [he, beq_self_eq_true]
    · rw [beq_eq_false_iff_ne.mpr he]
      exact ih ((List.mem_cons.mp h).resolve_left he)

/-- Settings with all their values written out mean the same. -/
theorem get_allValues {name : String} (output : OutputSetting) (codecs : Text.Codecs)
    (h : name ∈ defaultValues.map Prod.fst) :
    get { values := s.allValues, output, codecs } name = s.get name := by
  have hlookup : s.allValues.lookup name = some (s.get name) := lookup_map_fst h
  show ((s.allValues.lookup name).or (defaultValues.lookup name)).getD .null = s.get name
  rw [hlookup]
  rfl

end Settings

namespace Request

variable {r : Request} {disk : Disk} {settings : Settings}

/-! ## What a request gives -/

/-- What a flag can be given as: nothing, a truth value, or a word for one, with blanks at its ends
and in any letter case. -/
inductive FlagMeans : Json → Bool → Prop where
  | absent : FlagMeans .null false
  | truth (b : Bool) : FlagMeans (.bool b) b
  | word {s : String} {b : Bool}
    (h : String.ofList (Text.smalls (Text.strip s.toList)) ∈ if b then trueWords else falseWords) :
    FlagMeans (.string s) b

theorem flagOfWord?_eq_some_iff {s : String} {b : Bool} : flagOfWord? s = some b ↔
    String.ofList (Text.smalls (Text.strip s.toList)) ∈ if b then trueWords else falseWords := by
  have hapart : ∀ w ∈ falseWords, w ∉ trueWords := by decide
  unfold flagOfWord?
  dsimp only
  generalize String.ofList (Text.smalls (Text.strip s.toList)) = word
  by_cases ht : word ∈ trueWords
  · rw [if_pos (List.contains_iff_mem.mpr ht)]
    cases b with
    | true => simp [ht]
    | false => simpa using fun hf => hapart word hf ht
  · rw [if_neg (mt List.contains_iff_mem.mp ht)]
    cases b with
    | true => simp [ht]
    | false => simp

theorem flag_eq_ok_iff {name : String} {b : Bool} :
    r.flag name = .ok b ↔ FlagMeans (r.param name) b := by
  unfold flag
  cases hg : r.param name with
  | null =>
    constructor
    · rintro ⟨⟩
      exact .absent
    · rintro ⟨⟩
      rfl
  | bool given =>
    constructor
    · rintro ⟨⟩
      exact .truth _
    · rintro ⟨⟩
      rfl
  | string s =>
    dsimp only
    constructor
    · intro h
      cases hw : flagOfWord? s with
      | none => rw [hw] at h; cases h
      | some given =>
        rw [hw] at h
        cases h
        exact .word (flagOfWord?_eq_some_iff.mp hw)
    · rintro ⟨⟩
      next h => rw [flagOfWord?_eq_some_iff.mpr h]; rfl
  | _ => constructor <;> intro h <;> cases h

/-- The directory that is asked for, as it is given. -/
def target (r : Request) : Path :=
  match r.param "output_dir" with
  | .string s => .ofString s
  | _ => .current

/-- The settings with the two flags as output options. -/
def flagged? (r : Request) (overwrite backup : Bool) : Option Settings :=
  (r.settings.setOption? "overwrite" (.bool overwrite)).bind
    (Settings.setOption? "backup" (.bool backup))

/-- The settings that the flags of a request ask for. -/
def Wants (r : Request) (settings : Settings) : Prop :=
  ∃ overwrite backup, FlagMeans (r.param "overwrite") overwrite ∧
    FlagMeans (r.param "backup") backup ∧ r.flagged? overwrite backup = some settings

/-- A request that a tool can get: parameters with names, over a configuration, with paths that the
system takes. -/
structure WellPosed [Surrogates] (r : Request) (disk : Disk) : Prop where
  params : ∃ members, r.params = .object members
  settings : r.settings.IsConfiguration
  workers : r.settings.checkWorkers = .ok ()
  schema : ∀ e, Schema.Tree.read (r.param "json_schema") = .error e → e.cause.isOfSchema = true
  cwd : (disk.homePath.join r.cwd).hasUnfit = false
  outputDir : (r.param "output_dir").isTrue = false ∨
    ∃ s, r.param "output_dir" = .string s ∧ s.toList.any Path.isUnfit = false

theorem WellPosed.fit_cwd [Surrogates] (h : r.WellPosed disk) : r.cwd.hasUnfit = false :=
  Path.hasAny_of_join h.cwd

theorem target_of_string {s : String} (h : r.param "output_dir" = .string s) :
    r.target = .ofString s := by
  unfold target
  rw [h]

theorem target_of_not_isTrue (h : (r.param "output_dir").isTrue = false) : r.target = .current := by
  unfold target
  split
  next s hs =>
    rw [hs] at h
    have hempty : s = "" := by simpa [Json.isTrue] using h
    rw [hempty]
    rfl
  · rfl

section Replies

variable [Surrogates]

theorem WellPosed.fit_target (h : r.WellPosed disk) : r.target.hasUnfit = false := by
  rcases h.outputDir with hfalse | ⟨s, hs, hfit⟩
  · rw [target_of_not_isTrue hfalse]
    rfl
  · rw [target_of_string hs]
    exact Path.hasAny_ofString hfit

theorem WellPosed.fit_root (h : r.WellPosed disk) :
    (disk.rootOf (r.cwd.join r.target)).hasUnfit = false := by
  apply Disk.rootOf_fit
  cases ha : r.target.isAbsolute with
  | true =>
    rw [Path.join_of_isAbsolute ha, Path.join_of_isAbsolute ha]
    exact h.fit_target
  | false =>
    have hcwd := h.cwd
    have htarget := h.fit_target
    unfold Path.hasUnfit Path.hasAny at hcwd htarget ⊢
    rw [Path.names_join_join _ ha, List.any_append, hcwd, htarget]
    rfl

theorem WellPosed.resolve_target (h : r.WellPosed disk) :
    disk.resolve (r.cwd.join r.target) = .ok (disk.rootOf (r.cwd.join r.target)) :=
  Disk.resolve_of_fit (Path.hasAny_join h.fit_cwd h.fit_target)

theorem WellPosed.resolve_root (h : r.WellPosed disk) :
    disk.resolve (disk.rootOf (r.cwd.join r.target)) = .ok (disk.rootOf (r.cwd.join r.target)) := by
  rw [Disk.resolve_of_fit h.fit_root, Disk.rootOf_rootOf]

/-- The output directory leads where the directory that is asked for leads from the working
directory. -/
theorem WellPosed.outputDir_eq_ok (h : r.WellPosed disk) :
    ∃ dir, r.outputDir disk = .ok dir ∧
      disk.resolve dir = .ok (disk.rootOf (r.cwd.join r.target)) := by
  have hroot := h.resolve_root
  unfold Request.outputDir
  rw [Disk.resolve_of_fit h.fit_cwd]
  dsimp only
  cases ht : (r.param "output_dir").isTrue with
  | false =>
    refine ⟨disk.rootOf r.cwd, if_pos rfl, ?_⟩
    rwa [target_of_not_isTrue ht, Path.join_current] at hroot ⊢
  | true =>
  obtain ⟨s, hs, -⟩ := h.outputDir.resolve_left (by simp [ht])
  have htarget := target_of_string hs
  rw [if_neg (by simp), hs]
  simp only [← htarget]
  cases ha : r.target.isAbsolute with
  | true =>
    refine ⟨r.target, if_pos rfl, ?_⟩
    rw [Disk.resolve_of_fit h.fit_target, Path.join_of_isAbsolute ha]
  | false =>
    have hfit : ((disk.rootOf r.cwd).join r.target).hasUnfit = false :=
      Path.hasAny_join (Disk.rootOf_fit h.cwd) h.fit_target
    refine ⟨disk.rootOf (r.cwd.join r.target), ?_, hroot⟩
    rw [if_neg Bool.false_ne_true, Disk.resolve_of_fit hfit, Disk.rootOf_join]
    rfl

theorem WellPosed.isOfRequest (h : r.WellPosed disk) {e : RequestError}
    (he : Plan.ofJson (r.param "json_schema") (r.param "package_name") = .error e) :
    e.isOfRequest = true := by
  unfold Plan.ofJson at he
  cases hp : PackageName.ofJson (r.param "package_name") with
  | error e' =>
    rw [hp] at he
    cases he
    rfl
  | ok package =>
  cases hs : Schema.Tree.read (r.param "json_schema") with
  | error e' =>
    rw [hp, hs] at he
    cases he
    exact h.schema e' hs
  | ok tree =>
    rw [hp, hs] at he
    cases he

/-! ## Proposals -/

/-- What a proposal has to do with its request: settings that mean what the request wants, the plan
that it gives, and a directory that leads where it asks for. -/
structure Proposes (r : Request) (disk : Disk) (p : Proposal) (wanted : Settings) :
    Prop where
  wants : r.Wants wanted
  config : p.settings.config = wanted.config
  workers : p.settings.workers = wanted.workers
  accepted : p.settings.Accepted
  wanted_accepted : wanted.Accepted
  plan : Plan.ofJson (r.param "json_schema") (r.param "package_name") = .ok p.plan
  artifacts : p.plan.artifacts wanted.config = .ok p.artifacts
  outputDir : disk.resolve p.outputDir = .ok (disk.rootOf (r.cwd.join r.target))

theorem WellPosed.settingsWith_eq_ok (h : r.WellPosed disk) (overwrite backup : Bool) :
    ∃ settings wanted, r.settingsWith overwrite backup = .ok settings ∧
      r.flagged? overwrite backup = some wanted ∧ settings.config = wanted.config ∧
      settings.workers = wanted.workers ∧ settings.Accepted ∧ wanted.Accepted := by
  obtain ⟨members, hm⟩ := h.settings.output
  have hmembers : r.settings.hasMembers = .ok true := by
    unfold Settings.hasMembers
    rw [h.settings.members]
  have hget : ∀ output codecs, ∀ name ∈ Settings.defaultValues.map Prod.fst,
      Settings.get { values := r.settings.allValues, output, codecs } name = r.settings.get name :=
    fun output codecs name hn => Settings.get_allValues output codecs hn
  have hworkers : ∀ settings : Settings,
      settings.get Settings.workersKey = r.settings.get Settings.workersKey →
        settings.checkWorkers = .ok () := by
    intro settings hs
    have hbase := h.workers
    unfold Settings.checkWorkers at hbase ⊢
    rwa [hs]
  unfold settingsWith flagged? Settings.setOption?
  simp only [hm, Option.bind_some]
  unfold Settings.replaceOptions
  rw [hmembers]
  have hkey : ∀ output codecs, Settings.get { values := r.settings.allValues, output, codecs }
      Settings.workersKey = r.settings.get Settings.workersKey := fun output codecs =>
    hget output codecs _ (by decide)
  refine ⟨_, _, rfl, rfl, Settings.config_congr (hget _ _) rfl rfl, ?_,
    ⟨rfl, hworkers _ (hkey _ _)⟩, rfl, hworkers _ rfl⟩
  unfold Settings.workers
  rw [hkey]
  rfl

/-- A request is refused at once, or it becomes a proposal. -/
theorem WellPosed.propose_cases (h : r.WellPosed disk) :
    (∃ rejection, r.propose disk = .ok (.error rejection)) ∨
      ∃ p wanted, r.propose disk = .ok (.ok p) ∧ r.Proposes disk p wanted := by
  obtain ⟨members, hparams⟩ := h.params
  unfold propose
  rw [hparams]
  cases r.missing? with
  | some name => exact .inl ⟨_, rfl⟩
  | none =>
  dsimp only
  unfold proposeComplete
  cases ho : r.flag "overwrite" with
  | error rejection => exact .inl ⟨rejection, rfl⟩
  | ok overwrite =>
  cases hb : r.flag "backup" with
  | error rejection => exact .inl ⟨rejection, rfl⟩
  | ok backup =>
  obtain ⟨settings, wanted, hs, hwanted, hconfig, hworkers, haccepted, hwa⟩ :=
    h.settingsWith_eq_ok overwrite backup
  obtain ⟨dir, hdir, hroot⟩ := h.outputDir_eq_ok
  simp only [hs, hdir]
  cases hplan : Plan.ofJson (r.param "json_schema") (r.param "package_name") with
  | error e => exact .inl ⟨.invalid e, if_pos (h.isOfRequest hplan)⟩
  | ok plan =>
  cases ha : plan.artifacts settings.config with
  | error e => exact .inl ⟨.invalid e, by simp only [ha]⟩
  | ok artifacts =>
  refine .inr ⟨⟨settings, plan, artifacts, dir, r.cwd⟩, wanted, by simp only [ha], ?_⟩
  exact {
    wants := ⟨overwrite, backup, flag_eq_ok_iff.mp ho, flag_eq_ok_iff.mp hb, hwanted⟩
    config := hconfig
    workers := hworkers
    accepted := haccepted
    wanted_accepted := hwa
    plan := hplan
    artifacts := hconfig ▸ ha
    outputDir := hroot }

/-! ## Carrying out -/

theorem outputRoot_of_accepted {dir root : Path} (ha : settings.Accepted)
    (hroot : disk.resolve dir = .ok root) : Plan.outputRoot settings dir disk = .ok root := by
  unfold Plan.outputRoot
  rw [hroot, ha.output, ha.workers]

/-- A run depends on what its settings mean and on where its directory leads. -/
theorem write_congr {settings' : Settings} {dir dir' root : Path} {turns : List Nat}
    (plan : Plan)
    (artifacts : List Artifact) (hc : settings.config = settings'.config)
    (hw : settings.workers = settings'.workers) (ha : settings.Accepted)
    (ha' : settings'.Accepted) (hroot : disk.resolve dir = .ok root)
    (hroot' : disk.resolve dir' = .ok root) :
    plan.write settings artifacts dir disk turns =
      plan.write settings' artifacts dir' disk turns := by
  unfold Plan.write Plan.writeJobs
  rw [outputRoot_of_accepted ha hroot, outputRoot_of_accepted ha' hroot', hc, hw]

omit [Surrogates] in
open Output in
theorem isOk_iff {report : Report} {v : Verification} (hv : report.verification = some v)
    (hok : v.isOk = true) :
    report.isOk = true ↔ ∀ result ∈ report.results, result.status ≠ .failed := by
  have hcount : report.count .failed = 0 ↔ ∀ result ∈ report.results, result.status ≠ .failed := by
    unfold Report.count Report.byStatus
    rw [List.length_eq_zero_iff, List.filter_eq_nil_iff]
    simp
  rw [← hcount]
  unfold Report.isOk Report.hasErrors
  rw [hv]
  simp [hok]

/-- A text whose sixth line counts the files. -/
def ShowsCount (n : Nat) (text : String) : Prop :=
  ∃ front back, front.length = 5 ∧
    text = "\n".intercalate (front ++ ("- Files: " ++ toString n) :: back)

theorem showsCount_summary (p : Proposal) : ShowsCount p.artifacts.length p.summary :=
  ⟨["Generate Java DDD code:", "- Entity: " ++ p.plan.tree.info.name,
      "- Kind: " ++ p.plan.tree.node.kind.word, "- Package: " ++ p.plan.package,
      "- Output directory: " ++ p.outputDir.text],
    ["- Overwrite existing files: " ++ Proposal.yesNo p.settings.config.output.overwrite,
      "- Back up existing files: " ++ Proposal.yesNo p.settings.config.output.backup], rfl, rfl⟩

/-- What carrying out a proposal gives is what generation gives in the same turns. -/
theorem Proposes.carryOut_eq {p : Proposal} {wanted : Settings} {turns : List Nat}
    (h : r.WellPosed disk) (hp : r.Proposes disk p wanted) (wf : disk.WellFormed) :
    ∃ report reply after, p.carryOut disk turns = (.ok reply, after) ∧
      reply.report = some report ∧
      generate wanted (r.param "json_schema") (r.param "package_name")
        (disk.rootOf (r.cwd.join r.target)) disk turns = (.ok report, after) ∧
      report.results.length = p.artifacts.length ∧
      (reply.ok = true ↔ ∀ result ∈ report.results, result.status ≠ .failed) := by
  have hroot := h.resolve_root
  have hsame : p.plan.write p.settings p.artifacts p.outputDir disk turns = _ :=
    write_congr p.plan p.artifacts hp.config hp.workers hp.accepted
      hp.wanted_accepted hp.outputDir hroot
  have hgenerate : generate wanted (r.param "json_schema") (r.param "package_name")
      (disk.rootOf (r.cwd.join r.target)) disk turns =
        p.plan.write wanted p.artifacts (disk.rootOf (r.cwd.join r.target)) disk turns := by
    unfold generate Plan.generate
    rw [hp.plan]
    simp only [hp.artifacts]
  rw [hgenerate, ← hsame]
  have hopen : Output.Job.AllOpen (p.artifacts.map (Artifact.job p.settings.config
      (disk.rootOf (r.cwd.join r.target)))) :=
    allOpen_of_isOfClass rfl (List.forall_mem_map.mpr fun a _ => isOfClass_artifact _ _ a)
  have hwrite : p.plan.write p.settings p.artifacts p.outputDir disk turns = _ :=
    p.plan.writeJobs_verified hp.accepted.output hp.accepted.workers hp.outputDir
      wf hopen
  unfold Proposal.carryOut
  rw [hwrite]
  refine ⟨_, _, _, rfl, rfl, rfl, ?_, isOk_iff rfl rfl⟩
  have hids := congrArg List.length (Output.writeAllBy_identity p.settings.workers turns
    p.settings.config.output (p.artifacts.map (Artifact.job p.settings.config
      (disk.rootOf (r.cwd.join r.target)))) disk)
  rwa [List.length_map, List.length_map, List.length_map] at hids

/-! ## Answers -/

/-- What a request is answered with. It asks at most once, and only if the flags, the package and
the schema are in order. Without a report the disk is as it was. A report is the one of generation
into the directory that is asked for, over as many files as were shown, and the answer is that all
went well exactly if none of them failed. -/
structure Honoured (r : Request) (approve : Option (String → Bool)) (disk : Disk)
    (turns : List Nat) (outcome : Outcome) : Prop where
  answers : ∃ reply, outcome.reply = .ok reply
  once : outcome.asked.length ≤ 1
  asked : outcome.asked ≠ [] → ∃ wanted package tree artifacts, r.Wants wanted ∧
    PackageName.ofJson (r.param "package_name") = .ok package ∧
    Schema.Tree.read (r.param "json_schema") = .ok tree ∧
    tree.artifacts wanted.config package = .ok artifacts
  unreported : ∀ reply, outcome.reply = .ok reply → reply.report = none → outcome.disk = disk
  reported : ∀ reply report, outcome.reply = .ok reply → reply.report = some report →
    ∃ wanted root, r.Wants wanted ∧ disk.resolve (r.cwd.join r.target) = .ok root ∧
      generate wanted (r.param "json_schema") (r.param "package_name") root disk turns =
        (.ok report, outcome.disk) ∧
      (reply.ok = true ↔ ∀ result ∈ report.results, result.status ≠ .failed)
  approved : ∀ reply report answer, outcome.reply = .ok reply → reply.report = some report →
    approve = some answer → ∃ text, outcome.asked = [text] ∧ answer text = true ∧
      ShowsCount report.results.length text

theorem Proposes.asked {p : Proposal} {wanted : Settings}
    (hp : r.Proposes disk p wanted) :
    ∃ wanted package tree artifacts, r.Wants wanted ∧
      PackageName.ofJson (r.param "package_name") = .ok package ∧
      Schema.Tree.read (r.param "json_schema") = .ok tree ∧
      tree.artifacts wanted.config package = .ok artifacts := by
  obtain ⟨hname, htree⟩ := parts_of_ofJson hp.plan
  exact ⟨wanted, p.plan.package, p.plan.tree, p.artifacts, hp.wants, hname, htree,
    artifacts_eq_ok hp.artifacts⟩

/-- An answer without a report leaves the disk as it was. -/
theorem honoured_of_unreported {approve : Option (String → Bool)} {reply : Reply}
    {asked : List String} {turns : List Nat} (hreport : reply.report = none)
    (honce : asked.length ≤ 1)
    (hasked : asked ≠ [] → ∃ p wanted, r.Proposes disk p wanted) :
    r.Honoured approve disk turns ⟨.ok reply, asked, disk⟩ where
  answers := ⟨reply, rfl⟩
  once := honce
  asked hne := by
    obtain ⟨p, wanted, hp⟩ := hasked hne
    exact hp.asked
  unreported _ _ _ := rfl
  reported _ _ h hr := by
    cases h
    rw [hreport] at hr
    cases hr
  approved _ _ _ h hr := by
    cases h
    rw [hreport] at hr
    cases hr

/-- A proposal that is carried out, after it has been shown to whoever approves it. -/
theorem honoured_of_proposes {approve : Option (String → Bool)} {p : Proposal}
    {wanted : Settings}
    {turns : List Nat} (h : r.WellPosed disk) (hp : r.Proposes disk p wanted)
    (wf : disk.WellFormed)
    (happroved : ∀ answer, approve = some answer → answer p.summary = true) :
    r.Honoured approve disk turns ⟨(p.carryOut disk turns).1,
      approve.toList.map fun _ => p.summary, (p.carryOut disk turns).2⟩ := by
  obtain ⟨report, reply, after, hcarry, hreport, hgenerate, hlength, hok⟩ :=
    hp.carryOut_eq h wf
  rw [hcarry]
  refine ⟨⟨reply, rfl⟩, ?_, fun _ => hp.asked, ?_, ?_, ?_⟩
  · cases approve <;> simp
  · intro _ he hr
    cases he
    rw [hreport] at hr
    cases hr
  · intro _ _ he hr
    cases he
    rw [hreport] at hr
    cases hr
    exact ⟨wanted, _, hp.wants, h.resolve_target, hgenerate, hok⟩
  · rintro _ _ answer he hr rfl
    cases he
    rw [hreport] at hr
    cases hr
    exact ⟨p.summary, rfl, happroved answer rfl, hlength ▸ showsCount_summary p⟩

/-- A request over a configuration is answered, whatever its parameters are and whatever turns its
tasks take, and it does no more than what has been approved. -/
theorem run_honoured (r : Request) (approve : Option (String → Bool)) (disk : Disk)
    (turns : List Nat) (h : r.WellPosed disk) (wf : disk.WellFormed) :
    r.Honoured approve disk turns (r.run approve disk turns) := by
  unfold run
  rcases h.propose_cases with ⟨rejection, hp⟩ | ⟨p, wanted, hp, hproposes⟩
  · rw [hp]
    exact honoured_of_unreported rfl (Nat.zero_le 1) (absurd rfl)
  rw [hp]
  cases approve with
  | none => exact honoured_of_proposes h hproposes wf nofun
  | some answer =>
    dsimp only
    split
    next hyes =>
      refine honoured_of_proposes h hproposes wf ?_
      rintro _ ⟨⟩
      exact hyes
    · exact honoured_of_unreported rfl (le_refl 1) fun _ => ⟨p, wanted, hproposes⟩

end Replies

/-- A request from a directory, with a word for its first flag. -/
def sampleRequest (word : String) : Request where
  params := .object [("json_schema", Schema.sample), ("package_name", .string "a.domain"),
    ("overwrite", .string word), ("output_dir", .string "out")]
  cwd := .ofString "/home"
  settings := {}

open scoped Surrogates in
theorem wellPosed_sampleRequest (word : String) : (sampleRequest word).WellPosed {} where
  params := ⟨_, rfl⟩
  settings := ⟨⟨_, rfl⟩, rfl⟩
  workers := rfl
  schema e he := by
    revert he
    have hread : Schema.Tree.read Schema.sample = .ok Schema.sampleTree := Schema.read_sample
    rw [show (sampleRequest word).param "json_schema" = Schema.sample from rfl, hread]
    exact nofun
  cwd := by
    show ((({} : Disk).homePath).join (.ofString "/home")).hasUnfit = false
    decide
  outputDir := .inr ⟨"out", rfl, by decide⟩

open scoped Surrogates in
theorem exists_propose_sampleRequest :
    ∃ p, (sampleRequest " YES ").propose {} = .ok (.ok p) ∧ p.artifacts.length = 4 := by
  have hplan : Plan.ofJson ((sampleRequest " YES ").param "json_schema")
      ((sampleRequest " YES ").param "package_name") = .ok ⟨"a.domain", Schema.sampleTree⟩ :=
    ofJson_sample (by decide)
  have hoverwrite : (sampleRequest " YES ").flag "overwrite" = .ok true :=
    flag_eq_ok_iff.mpr (.word (by decide))
  have hbackup : (sampleRequest " YES ").flag "backup" = .ok false := rfl
  obtain ⟨settings, wanted, hsettings, hwanted, hconfig, -⟩ :=
    (wellPosed_sampleRequest " YES ").settingsWith_eq_ok true false
  obtain ⟨dir, hdir, -⟩ := (wellPosed_sampleRequest " YES ").outputDir_eq_ok
  cases hwanted
  have hartifacts : Plan.artifacts settings.config ⟨"a.domain", Schema.sampleTree⟩ =
      .ok (Schema.sampleTree.node.artifacts settings.config "a.domain") := by
    rw [hconfig]
    rfl
  refine ⟨⟨settings, ⟨"a.domain", Schema.sampleTree⟩,
    Schema.sampleTree.node.artifacts settings.config "a.domain", dir, .ofString "/home"⟩, ?_, ?_⟩
  · show (sampleRequest " YES ").proposeComplete {} = _
    unfold proposeComplete
    simp only [hoverwrite, hbackup, hsettings, hdir, hplan, hartifacts]
    rfl
  · rw [hconfig]
    rfl

open scoped Surrogates in
/-- A request is answered, and one with a flag that is no truth value asks nothing. -/
theorem run_honoured_sampleRequest :
    (∃ reply report wanted text root,
      ((sampleRequest " YES ").run (some fun _ => true) {} [1, 0]).reply = .ok reply ∧
      reply.report = some report ∧
      generate wanted Schema.sample (.string "a.domain") root {} [1, 0] =
        (.ok report, ((sampleRequest " YES ").run (some fun _ => true) {} [1, 0]).disk) ∧
      ((sampleRequest " YES ").run (some fun _ => true) {} [1, 0]).asked = [text] ∧
      ShowsCount report.results.length text ∧ report.results.length = 4) ∧
    ((sampleRequest "maybe").run (some fun _ => true) {}).asked = [] := by
  have wf : Disk.WellFormed {} := by decide
  have honoured : ∀ word turns, (sampleRequest word).Honoured (some fun _ => true) {} turns _ :=
    fun word turns => run_honoured _ _ _ turns (wellPosed_sampleRequest word) wf
  constructor
  · obtain ⟨p, hp, hfour⟩ := exists_propose_sampleRequest
    obtain ⟨_, hproposes⟩ : ∃ wanted, (sampleRequest " YES ").Proposes {} p wanted := by
      rcases (wellPosed_sampleRequest " YES ").propose_cases with ⟨_, hr⟩ | ⟨_, wanted, hr, h⟩
      · rw [hp] at hr
        cases hr
      · rw [hp] at hr
        cases hr
        exact ⟨wanted, h⟩
    have hrun : (sampleRequest " YES ").run (some fun _ => true) {} [1, 0] =
        ⟨(p.carryOut {} [1, 0]).1, [p.summary], (p.carryOut {} [1, 0]).2⟩ := by
      unfold run
      rw [hp]
      rfl
    obtain ⟨report, reply, after, hcarry, hreport, -, hlength, -⟩ :=
      hproposes.carryOut_eq (wellPosed_sampleRequest " YES ") wf
    have hreply : ((sampleRequest " YES ").run (some fun _ => true) {} [1, 0]).reply =
        .ok reply := by
      rw [hrun, hcarry]
    have h := honoured " YES " [1, 0]
    obtain ⟨wanted, root, -, -, hgenerate, -⟩ := h.reported reply report hreply hreport
    obtain ⟨text, htext, -, hcount⟩ := h.approved reply report _ hreply hreport rfl
    exact ⟨reply, report, wanted, text, root, hreply, hreport, hgenerate, htext, hcount,
      hlength.trans hfour⟩
  · by_contra hne
    obtain ⟨wanted, -, -, -, ⟨overwrite, backup, hflag, -⟩, -⟩ := (honoured "maybe" []).asked hne
    have hparam : (sampleRequest "maybe").param "overwrite" = .string "maybe" := rfl
    rw [hparam] at hflag
    cases hflag with
    | word h => cases overwrite <;> exact absurd h (by decide)

end Request

end DomainCodegen
