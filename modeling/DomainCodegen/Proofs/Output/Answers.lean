import DomainCodegen.Proofs.Artifact.Rendering
import DomainCodegen.Proofs.Disk.Faults
import DomainCodegen.Proofs.Output.Containment
import DomainCodegen.Proofs.Output.Intact

/-!
# What a job answers

A job whose path holds no NUL, with an encoding that there is, always answers with a result, and a
failure of any kind is a failed result (`write_answers`). With a NUL in its path or without an
encoding it raises a fault where it would have opened or written its file.
-/

namespace DomainCodegen

/-! ## Files of classes -/

namespace Path

variable {p q : Path} {s ending : String}

theorem ne_empty_of_mem_ofString {name : String} (h : name ∈ (ofString s).names) : name ≠ "" := by
  obtain ⟨piece, hp, rfl⟩ := List.mem_map.mp h
  have hname : isName piece = true := (List.mem_filter.mp hp).2
  intro hempty
  have hpiece : piece = [] := by simpa using congrArg String.toList hempty
  rw [hpiece] at hname
  cases hname

/-- A path read from a text that starts with a stem has a name. -/
theorem names_ofString_ne_nil (h : IsStem s) : (ofString (s ++ ending)).names ≠ [] := by
  obtain ⟨c, r, hs⟩ := List.exists_cons_of_ne_nil (show s.toList ≠ [] by simpa using h.ne_empty)
  have hslash : c ≠ '/' := fun hc => h.slash_notMem (by rw [hs, hc]; exact List.mem_cons_self)
  have hdot : c ≠ '.' := fun hc => h.dot_notMem (by rw [hs, hc]; exact List.mem_cons_self)
  obtain ⟨first, others, hsplit⟩ := List.exists_cons_of_ne_nil
    (List.splitOn_ne_nil '/' (r ++ ending.toList))
  have hpieces : (s ++ ending).toList.splitOn '/' = (c :: first) :: others := by
    rw [String.toList_append, hs, List.cons_append, List.splitOn_cons_eq_if_modifyHead,
      if_neg (by simpa using hslash), hsplit, List.modifyHead_cons]
  have hname : isName (c :: first) = true := by simp [isName, hdot]
  unfold ofString
  rw [hpieces, List.filter_cons, if_pos hname]
  exact List.cons_ne_nil _ _

theorem name_join_ne_empty (hne : q.names ≠ []) (h : ∀ name ∈ q.names, name ≠ "") :
    (p.join q).name ≠ "" := by
  have hlast : (p.join q).names.getLast? = some (q.names.getLast hne) := by
    unfold join
    split
    · exact List.getLast?_eq_getLast_of_ne_nil hne
    · show (p.names ++ q.names).getLast? = _
      rw [List.getLast?_append_of_ne_nil _ hne, List.getLast?_eq_getLast_of_ne_nil hne]
  unfold Path.name
  rw [hlast]
  exact h _ (List.getLast_mem hne)

end Path

theorem Layout.name_file_ne_empty {config : Config} {className : String} (h : IsStem className)
    (root : Path) (package : String) : (Layout.file config root package className).name ≠ "" :=
  Path.name_join_ne_empty (Path.names_ofString_ne_nil h) fun _ => Path.ne_empty_of_mem_ofString

namespace Artifact

variable {config : Config} {a : Artifact}

/-! ## Artifacts without a text -/

theorem isOfArtifact_of_checkNames {fields : List Field} {index : Nat} {cause : RenderCause}
    (h : a.checkNames index fields = .error cause) : cause.isOfArtifact = true := by
  induction fields generalizing index with
  | nil => cases h
  | cons f r ih =>
    unfold checkNames at h
    split at h
    · exact ih h
    · cases h
      rfl

theorem isOfArtifact_of_checkClasses {classes : List ClassSetting} {cause : RenderCause}
    (h : checkClasses classes = .error cause) : cause.isOfArtifact = true := by
  unfold checkClasses at h
  split at h <;> cases h <;> rfl

theorem isOfArtifact_of_entityFile {cause : RenderCause}
    (hi : ∃ name, config.valueInterface = .named name)
    (h : a.entityFile config = .error cause) : cause.isOfArtifact = true := by
  obtain ⟨name, hi⟩ := hi
  unfold entityFile at h
  dsimp only at h
  split at h
  · cases h
    rfl
  · split at h
    next hclasses =>
      cases h
      exact isOfArtifact_of_checkClasses hclasses
    next hinterface _ =>
      rw [hi] at hinterface
      cases hinterface
    · cases h
  · cases h
    rfl

theorem isOfArtifact_of_enumFile {cause : RenderCause} (h : a.enumFile config = .error cause) :
    cause.isOfArtifact = true := by
  unfold enumFile at h
  split at h
  · cases h
    rfl
  split at h
  next hvariants =>
    cases h
    have hseen : ∀ s ∈ ([] : List String), s ∈ ([] : List Schema.Variant).map (·.constant) := nofun
    exact (checkVariants_eq_error hseen hvariants).1
  next hclasses _ =>
    cases h
    exact isOfArtifact_of_checkClasses hclasses
  · cases h

theorem isOfArtifact_of_valueFile {cause : RenderCause} (h : a.valueFile config = .error cause) :
    cause.isOfArtifact = true := by
  unfold valueFile at h
  split at h
  · cases h
    rfl
  split at h
  next hclasses =>
    cases h
    exact isOfArtifact_of_checkClasses hclasses
  · cases h

/-- With a name for the interface of value objects, an artifact has no text for a reason of its
own. -/
theorem isOfArtifact_of_render (hi : ∃ name, config.valueInterface = .named name)
    {e : RenderError} (h : a.render config = .error e) : e.cause.isOfArtifact = true := by
  cases hf : a.fileOrCause config with
  | ok file => rw [render_eq_ok hf] at h; cases h
  | error cause =>
  rw [render_eq_error hf] at h
  cases h
  show cause.isOfArtifact = true
  unfold fileOrCause at hf
  split at hf
  next hnames =>
    cases hf
    unfold checkAllNames at hnames
    split at hnames
    · exact isOfArtifact_of_checkNames hnames
    · cases hnames
      rfl
  split at hf
  · exact isOfArtifact_of_entityFile hi hf
  split at hf
  · exact isOfArtifact_of_enumFile hf
  · exact isOfArtifact_of_valueFile hf

theorem Draft.isOfArtifact_of_render {d : Draft} (hi : ∃ name, config.valueInterface = .named name)
    {e : RenderError} (h : d.render config = .error e) : e.cause.isOfArtifact = true := by
  unfold Draft.render at h
  cases hr : d.filled.render config with
  | ok content => rw [hr] at h; cases h
  | error met =>
    rw [hr] at h
    cases h
    dsimp only
    split
    · rfl
    · exact Artifact.isOfArtifact_of_render hi hr

end Artifact

namespace Output

open Disk Text

variable {disk after : Disk} {options : OutputOptions} {job : Job} {content : String}

/-! ## One job -/

variable [Surrogates]

/-- What is said of a job that fails: why it has no text, or why its text could not be put. -/
inductive Job.FailsWith (options : OutputOptions) (job : Job) (disk : Disk) :
    String → Prop where
  | render {e : Artifact.RenderError} (h : job.content = .error e) :
    FailsWith options job disk e.message
  | put {content : String} {fault : SaveFault} (hc : job.content = .ok content)
    (hp : (job.put options content disk).1 = .error fault) :
    FailsWith options job disk (job.faultMessage fault)

/-- How a job answers. A failure is a result unless a fault is raised, and a fault is raised only
for a NUL in the path or without an encoding. It is raised where directories could be made for a
path with a NUL that has bytes, and where the same job with another encoding would have written its
file. -/
structure Answers (options : OutputOptions) (job : Job) (disk : Disk) : Prop where
  total : (disk.homePath.join job.path).hasNul = false → options.encoding.isOk = true →
    ∃ result, (job.write options disk).1 = .ok result
  failed : ∀ message, job.FailsWith options disk message →
    (∃ result, (job.write options disk).1 = .ok result) →
      (job.write options disk).1 = .ok (job.failure message)
  done : ∀ result, (job.write options disk).1 = .ok result →
    (∀ message, ¬ job.FailsWith options disk message) →
      result.status ≠ .failed ∧ result.path = job.path ∧ result.className = job.className
  raised : ∀ fault, (job.write options disk).1 = .error fault →
    ∃ met, fault = .save met ∧ Escape (disk.homePath.join job.path) (saveMode options) met
  nul : ∀ content, job.content = .ok content →
    (disk.homePath.join job.path).hasSurrogate = false → job.path.hasNul = true →
    job.path.parent.hasNul = true ∨ (disk.makeDirectories job.path.parent).1 = .ok () →
      ∃ fault, (job.write options disk).1 = .error fault
  encoding : ∀ known why, options.encoding = .error why → ∀ result,
    (job.write { options with encoding := .ok known } disk).1 = .ok result →
      result.status.isWritten = true →
        (job.write options disk).1 = .error (.save (.noEncoding why))

theorem replace_escape {fault : SaveFault} (hname : job.path.name ≠ "")
    (hh : disk.holds job.path = .ok true)
    (h : (job.replace options content disk).1 = .error fault) (hf : fault.isOfFile = false) :
    Escape (disk.homePath.join job.path) (saveMode options) fault := by
  have hhome := (backUpIf_lasts options.backup disk job.path).homePath_eq
  unfold Job.replace at h
  rcases hb : backUpIf options.backup disk job.path with ⟨met | backup, later⟩ <;>
    rw [hb] at h hhome
  · cases h
    unfold backUpIf at hb
    split at hb
    · rcases hbacked : disk.backUp job.path with ⟨met | backup, last⟩ <;> rw [hbacked] at hb <;>
        cases hb
      rw [isOfFile_of_backUp hname hh hbacked] at hf
      cases hf
    · cases hb
  · dsimp only at h hhome
    rw [← hhome]
    rcases hs : later.save (saveMode options) job.path content with ⟨met | u, last⟩ <;>
      rw [hs] at h <;> cases h
    exact save_escape hs hf

/-- A fault that does not come from the file or its text is one of the two that escape. -/
theorem put_escape {fault : SaveFault} (hname : job.path.name ≠ "")
    (h : (job.put options content disk).1 = .error fault) (hf : fault.isOfFile = false) :
    Escape (disk.homePath.join job.path) (saveMode options) fault := by
  unfold Job.put at h
  split at h
  next hh =>
    cases h
    refine .of_disk hf fun he => ?_
    exact absurd (he ▸ hh) (holds_ne_nul disk job.path)
  · rcases hs : disk.save (saveMode options) job.path content with ⟨met | u, last⟩ <;>
      rw [hs] at h <;> cases h
    exact save_escape hs hf
  next hh =>
    split at h
    · exact replace_escape hname hh h hf
    · cases h

theorem write_of_put_error {fault : SaveFault} (hc : job.content = .ok content)
    (hp : (job.put options content disk).1 = .error fault) :
    (job.write options disk).1 =
      if fault.isOfFile then .ok (job.failure (job.faultMessage fault))
      else .error (.save fault) := by
  rcases hput : job.put options content disk with ⟨met | r, after⟩ <;> rw [hput] at hp <;>
    cases hp
  simp only [Job.write, hc, hput]

/-- Where a job with another encoding writes its file, the job without an encoding is stopped. -/
theorem put_noEncoding {known : Text.Codec} {why : EncodingFault} {result : Result}
    (he : options.encoding = .error why)
    (h : (job.put { options with encoding := .ok known } content disk).1 = .ok result)
    (hw : result.status.isWritten = true) :
    (job.put options content disk).1 = .error (.noEncoding why) := by
  have hsave : ∀ {d : Disk} {after : Disk},
      d.save (saveMode { options with encoding := .ok known }) job.path content = (.ok (), after) →
        ∃ last, d.save (saveMode options) job.path content = (.error (.noEncoding why), last) := by
    intro d after hs
    have hnone : (saveMode options).encoding = .error why := he
    exact ⟨_, Prod.ext (save_noEncoding (by rfl) hnone hs) rfl⟩
  rcases hput : job.put { options with encoding := .ok known } content disk with
    ⟨met | r, after⟩ <;> rw [hput] at h <;> cases h
  unfold Job.put at hput ⊢
  split at hput
  · cases hput
  · rcases hs : disk.save (saveMode { options with encoding := .ok known }) job.path content with
      ⟨met | u, last⟩ <;> rw [hs] at hput <;> cases hput
    obtain ⟨last, hs⟩ := hsave hs
    simp only [hs]
  · split at hput
    next ho =>
      obtain ⟨backup, later, hb, hs, -⟩ := replace_eq_ok hput
      obtain ⟨last, hs⟩ := hsave hs
      have hb : backUpIf options.backup disk job.path = (.ok backup, later) := hb
      have ho : options.overwrite = true := ho
      simp only [if_pos ho, Job.replace, hb, hs]
    · cases hput
      cases hw

theorem answers_of_error {e : Artifact.RenderError} (hc : job.content = .error e)
    (hr : e.cause.isOfArtifact = true) : Answers options job disk := by
  have hwrite : ∀ options, (job.write options disk).1 = .ok (job.failure e.message) := by
    intro options
    simp only [Job.write, hc, if_pos hr]
  refine ⟨fun _ _ => ⟨_, hwrite options⟩, ?_, ?_, ?_, ?_, ?_⟩
  · rintro message (⟨h⟩ | ⟨h, -⟩) -
    · rw [hc] at h
      cases h
      exact hwrite options
    · rw [hc] at h
      cases h
  · exact fun result _ hno => absurd (.render hc) (hno e.message)
  · intro fault h
    rw [hwrite options] at h
    cases h
  · intro content h
    rw [hc] at h
    cases h
  · intro known why _ result h hw
    rw [hwrite] at h
    cases h
    cases hw

/-- A path with a NUL is not written, where no directory is refused first. -/
theorem put_of_hasNul (hbytes : (disk.homePath.join job.path).hasSurrogate = false)
    (h : job.path.hasNul = true)
    (hmake : job.path.parent.hasNul = true ∨
      (disk.makeDirectories job.path.parent).1 = .ok ()) :
    ∃ fault, (job.put options content disk).1 = .error fault ∧ fault.isOfFile = false := by
  have hfree : disk.holds job.path = .ok false := holds_of_hasNul h
  obtain ⟨fault, hs, hf⟩ : ∃ fault,
      (disk.save (saveMode options) job.path content).1 = .error fault ∧ fault.isOfFile = false :=
    save_of_hasNul hbytes h hmake
  refine ⟨fault, ?_, hf⟩
  unfold Job.put
  rw [hfree]
  rcases hsave : disk.save (saveMode options) job.path content with ⟨met | u, last⟩ <;>
    rw [hsave] at hs <;> cases hs
  rfl

theorem put_done {result : Result}
    (h : (job.put options content disk).1 = .ok result) :
    result.status ≠ .failed ∧ result.path = job.path ∧ result.className = job.className := by
  refine ⟨?_, put_identity h⟩
  rcases put_eq_ok (Prod.ext h rfl : job.put options content disk = (.ok result, _)) with
    ⟨hs, -⟩ | ⟨hs, -⟩ | ⟨hs, -⟩ <;> rw [hs] <;> exact nofun

/-- A job with a text raises no fault but one that escapes. -/
theorem write_escape {fault : JobFault} (hc : job.content = .ok content)
    (hname : job.path.name ≠ "") (h : (job.write options disk).1 = .error fault) :
    ∃ met, fault = .save met ∧ Escape (disk.homePath.join job.path) (saveMode options) met := by
  cases hp : (job.put options content disk).1 with
  | ok result =>
    rw [write_of_put hc hp] at h
    cases h
  | error met =>
    rw [write_of_put_error hc hp] at h
    split at h <;> cases h
    next hf => exact ⟨met, rfl, put_escape hname hp (by simpa using hf)⟩

omit [Surrogates] in
/-- Without a NUL and with an encoding nothing escapes. -/
theorem not_escape {whole : Path} {fault : SaveFault} (hnul : whole.hasNul = false)
    (hknown : options.encoding.isOk = true) : ¬ Escape whole (saveMode options) fault := by
  rintro (hnul' | hnone)
  · rw [hnul] at hnul'
    cases hnul'
  · have hnone : options.encoding = .error _ := hnone
    rw [hnone] at hknown
    cases hknown

theorem answers_of_ok (hc : job.content = .ok content) (hname : job.path.name ≠ "") :
    Answers options job disk where
  total hnul hknown := by
    cases hw : (job.write options disk).1 with
    | ok result => exact ⟨result, rfl⟩
    | error fault =>
      obtain ⟨met, -, hescape⟩ := write_escape hc hname hw
      exact absurd hescape (not_escape hnul hknown)
  failed := by
    rintro message (⟨h⟩ | ⟨h, hp⟩) ⟨result, hw⟩
    · rw [hc] at h
      cases h
    · rw [write_of_put_error h hp] at hw ⊢
      split at hw
      next hf => rw [if_pos hf]
      next => cases hw
  done result hw hno := by
    cases hp : (job.put options content disk).1 with
    | error met => exact absurd (.put hc hp) (hno _)
    | ok r =>
      rw [write_of_put hc hp] at hw
      cases hw
      exact put_done hp
  raised fault h := write_escape hc hname h
  nul text _ hbytes hnul hmake := by
    obtain ⟨fault, hp, hf⟩ : ∃ fault, (job.put options content disk).1 = .error fault ∧
        fault.isOfFile = false := put_of_hasNul hbytes hnul hmake
    exact ⟨.save fault, by rw [write_of_put_error hc hp, hf]; rfl⟩
  encoding known why hnone result hw hwritten := by
    obtain ⟨text, htext, hp⟩ := put_of_write (Prod.ext hw rfl : job.write _ disk = (.ok result, _))
      (by rintro hs; rw [hs] at hwritten; cases hwritten)
    rw [hc] at htext
    cases htext
    have hput := put_noEncoding hnone (congrArg Prod.fst hp) hwritten
    rw [write_of_put_error hc hput]
    rfl

theorem job_answers (hr : ∀ e, job.content = .error e → e.cause.isOfArtifact = true)
    (hname : ∀ content, job.content = .ok content → job.path.name ≠ "") :
    Answers options job disk := by
  cases hc : job.content with
  | error e => exact answers_of_error hc (hr e hc)
  | ok content => exact answers_of_ok hc (hname content hc)

end Output

/-! ## Artifacts and drafts -/

open Output

/-- Every setting that is a text by default is a text. -/
structure Settings.Textual (s : Settings) : Prop where
  value : ∀ name default, Settings.defaultValues.lookup name = some (.string default) →
    ∃ text, s.get name = .string text
  output : ∃ members, s.output = .options members ∧
    ∀ name default, OutputSetting.defaults.lookup name = some (.string default) →
      ∃ text, members.lookup name = some (.string text)

variable {settings : Settings}

theorem Settings.Textual.valueInterface [Surrogates] (ht : settings.Textual) :
    ∃ name, settings.config.valueInterface = .named name := by
  obtain ⟨text, h⟩ := ht.value "value_object_interface" _ rfl
  refine ⟨text, ?_⟩
  show ClassSetting.ofJson (settings.get "value_object_interface") = _
  rw [h]
  rfl

/-- Writing an artifact or a draft answers with a result, unless there is a NUL in its path or no
encoding to write it in. -/
theorem write_answers [Surrogates] (ht : settings.Textual) (root : Path)
    (unit : Artifact ⊕ Artifact.Draft)
    (disk : Disk) :
    Answers settings.config.output (jobOf settings.config root unit) disk := by
  apply job_answers
  · intro e h
    cases unit with
    | inl a => exact a.isOfArtifact_of_render ht.valueInterface h
    | inr d => exact d.isOfArtifact_of_render ht.valueInterface h
  · intro content h
    cases unit with
    | inl a => exact Layout.name_file_ne_empty (Artifact.isStem_of_render h) root a.package
    | inr d =>
      obtain ⟨className, hc, hstem⟩ := Artifact.Draft.exists_stem_of_render h
      show (Layout.file settings.config root d.package d.shownClass).name ≠ ""
      unfold Artifact.Draft.shownClass
      rw [hc, Option.getD_some]
      exact Layout.name_file_ne_empty hstem root d.package

/-- Settings with an encoding that there is not. -/
def unknownEncoding : Settings :=
  { output := .options (Members.set "encoding" (.string "nope") OutputSetting.defaults) }

theorem textual_unknownEncoding : unknownEncoding.Textual where
  value name default h := by
    refine ⟨default, ?_⟩
    show ((unknownEncoding.values.lookup name).or
      (Settings.defaultValues.lookup name)).getD .null = _
    rw [h]
    rfl
  output := by
    refine ⟨_, rfl, fun name default h => ?_⟩
    obtain ⟨before, after, heq, -⟩ := List.lookup_eq_some_iff.mp h
    have hm : (name, Json.string default) ∈ OutputSetting.defaults := by rw [heq]; simp
    simp only [OutputSetting.defaults, List.mem_cons, Prod.mk.injEq, reduceCtorEq, and_false,
      false_or, Json.string.injEq, List.not_mem_nil, or_false] at hm
    rcases hm with ⟨rfl, -⟩ | ⟨rfl, -⟩ <;> exact ⟨_, rfl⟩

def moneyUnit : Artifact ⊕ Artifact.Draft :=
  .inl (Artifact.wrapper "com.example.orderbc.domain.orderaggr.valueobject" "OrderMoney"
    .valueObject "m" .decimal)

open scoped Surrogates in
theorem write_answers_unknownEncoding : unknownEncoding.Textual ∧
    ((jobOf unknownEncoding.config (.ofString "/out") moneyUnit).write
      unknownEncoding.config.output {}).1 = .error (.save (.noEncoding (.unknown "nope"))) := by
  refine ⟨textual_unknownEncoding, ?_⟩
  have hanswers := write_answers textual_unknownEncoding (.ofString "/out") moneyUnit {}
  have htargets : (jobOf unknownEncoding.config (.ofString "/out") moneyUnit).Targets
      ["out", "orderaggr", "valueobject"] "OrderMoney.java" :=
    ⟨rfl, by decide, by decide, by decide⟩
  have hready : Disk.Ready {} true ["out", "orderaggr", "valueobject"] "OrderMoney.java"
      (jobOf unknownEncoding.config (.ofString "/out") moneyUnit).path :=
    Disk.ready_of_free (Disk.open_empty _) (by decide) (fun _ => by decide) fun _ => rfl
  have hwritable : (Artifact.wrapper "com.example.orderbc.domain.orderaggr.valueobject" "OrderMoney"
      .valueObject "m" .decimal).isWritable unknownEncoding.config = true :=
    Artifact.isWritable_of_bytes rfl (by decide +kernel)
  obtain ⟨text, hr, hs⟩ := Artifact.isWritable_iff.mp hwritable
  obtain ⟨-, -, hsave, -⟩ := Disk.save_of_ready (by decide) (htargets.beside {})
    htargets.isAbsolute {} text hready
  rw [Disk.encode_utf8 rfl hs] at hsave
  exact hanswers.encoding .utf8 _ rfl _ (write_of_put hr (put_of_saved (by decide) hsave)) rfl

open scoped Surrogates in
/-- With texts as settings a fault can still be raised. -/
theorem not_forall_exists_result : ¬ ∀ settings : Settings, settings.Textual →
    ∀ root unit disk, ∃ result, ((jobOf settings.config root unit).write
      settings.config.output disk).1 = .ok result := by
  intro h
  obtain ⟨result, hr⟩ := h unknownEncoding textual_unknownEncoding (.ofString "/out") moneyUnit {}
  have hfault : ((jobOf unknownEncoding.config (.ofString "/out") moneyUnit).write
      unknownEncoding.config.output {}).1 = .error (.save (.noEncoding (.unknown "nope"))) := by
    decide +kernel
  rw [hr] at hfault
  cases hfault

end DomainCodegen
