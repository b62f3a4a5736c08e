import DomainCodegen.Proofs.Output.Repetition

/-!
# Running twice

A run without backups that is done again creates nothing (`WriteRun.perform_again`). It changes
nothing either, unless tasks that write over one file overlap in it: then the turns decide whose
text stays (`WriteRun.perform_again_racing`). Where jobs are done one after the other, the second
run writes over files only, and only those that the first one wrote. The last job to write a file is
the same in both: what makes a target ready for an earlier job in the second run makes it ready for
the last one as well. So a file has its final bytes in both runs, from the last time on that it is
written (`settle_agree`).
-/

namespace DomainCodegen

namespace Output

open Disk

variable [Surrogates] {disk first second last : Disk} {options : OutputOptions} {job : Job}
  {jobs : List Job} {place : Location} {bytes : List UInt8}

/-! ## Jobs that may overwrite -/

/-- A job that may overwrite puts its bytes into a target that is ready, and directories are all
that it makes else. -/
theorem settle_effect (wf : disk.WellFormed) (hj : job.Placed) (hb : options.backup = false)
    (ho : options.overwrite = true) :
    (∃ bytes, job.Writes options disk bytes ∧ ∃ made, Grows job.directory disk made ∧
      Same (made.set job.target (.file bytes)) (job.settle options disk).2) ∨
    ((∀ bytes, ¬ job.Writes options disk bytes) ∧
      Grows job.directory disk (job.settle options disk).2) := by
  cases hc : job.content with
  | error e =>
    rw [(settle_of_error hc).2]
    exact .inr ⟨fun bytes => not_writes_of_error hc, Grows.refl _ disk⟩
  | ok content =>
  have ht := hj.targets hc
  have hbeside := ht.beside disk
  have hgrows := (makeDirectories_made wf hbeside.parent_straight).grows
  rw [hbeside.parent_place] at hgrows
  rcases settle_cases hb hc with ⟨⟨fault, hh⟩, -, hs⟩ | ⟨-, hno, -, -⟩ | ⟨success, -, -, hs⟩
  · refine .inr ⟨fun bytes hw => ?_, by rw [hs]; exact Grows.refl _ disk⟩
    have hhold := holds_of_ready wf ht hw.1
    rw [hh] at hhold
    cases hhold
  · rw [ho] at hno
    cases hno
  · rw [hs]
    rcases save_effect wf hbeside ht.isAbsolute (saveMode options) content with
      ⟨bytes, hw, hsave⟩ | ⟨hnot, -, hsave⟩
    · exact .inl ⟨bytes, (Job.writes_iff hc).mpr hw, _, hgrows, hsave⟩
    · exact .inr ⟨fun bytes hw => hnot bytes ((Job.writes_iff hc).mp hw),
        hgrows.trans hsave.grows⟩

theorem settle_of_writes (wf : disk.WellFormed) (hj : job.Placed) (hb : options.backup = false)
    (ho : options.overwrite = true) (hw : job.Writes options disk bytes) :
    (job.settle options disk).2.get? job.target = some (.file bytes) := by
  rcases settle_effect wf hj hb ho with ⟨other, hother, made, -, hs⟩ | ⟨hnot, -⟩
  · obtain rfl : bytes = other := Option.some.inj (hw.2.symm.trans hother.2)
    rw [hs.entry]
    exact get?_set_self
  · exact absurd hw (hnot bytes)

/-- Where a job writes nothing, a directory may appear. -/
theorem settle_of_not_writes (wf : disk.WellFormed) (hj : job.Placed)
    (hb : options.backup = false) (ho : options.overwrite = true)
    (hn : ∀ bytes, place = job.target → ¬ job.Writes options disk bytes) :
    (job.settle options disk).2.get? place = disk.get? place ∨
      (disk.get? place = none ∧ (job.settle options disk).2.get? place = some .directory) := by
  have hentry : ∀ after, Grows job.directory disk after → after.get? place = disk.get? place ∨
      (disk.get? place = none ∧ after.get? place = some .directory) := fun after hg =>
    (hg.entry place).imp_right And.right
  rcases settle_effect wf hj hb ho with ⟨bytes, hw, made, hg, hs⟩ | ⟨-, hg⟩
  · rw [hs.entry]
    have hplace : place ≠ job.directory ++ [job.file] := fun he => hn bytes he hw
    rw [Job.target, get?_set_append, if_neg hplace]
    exact hentry made hg
  · exact hentry _ hg

/-! ## Two runs -/

/-- A second run will end with what the first one left at a place: it is there already, or both runs
have come to the same there and what is written last is still to be written in both. -/
def Agree (options : OutputOptions) (last first second : Disk) (place : Location) : Prop :=
  second.get? place = last.get? place ∨
  (first.get? place = second.get? place ∧
    ∃ dir name p, place = dir ++ [name] ∧ last.Ready options.atomic dir name p)

/-- A job keeps two runs in agreement. -/
theorem settle_agree (wf : first.WellFormed) (wf' : second.WellFormed) (hj : job.Placed)
    (hb : options.backup = false) (ho : options.overwrite = true)
    (hlast : Lasts (job.settle options first).2 last) (hnew : Lasts last second)
    (hold : Lasts second last) (hd : job.Done options second)
    (h : Agree options last first second place) :
    Agree options last (job.settle options first).2 (job.settle options second).2 place := by
  have hfirst : Lasts first last := (settle_kept options job first).1.trans hlast
  by_cases hw : place = job.target ∧ ∃ bytes, job.Writes options second bytes
  · -- the job writes in both runs
    obtain ⟨rfl, bytes, hw⟩ := hw
    have hready : job.Ready options last := hnew.ready hw.1
    have hwfirst : job.Writes options first bytes := ⟨hfirst.ready hready, hw.2⟩
    refine .inr ⟨?_, _, _, _, rfl, hready⟩
    rw [settle_of_writes wf hj hb ho hwfirst, settle_of_writes wf' hj hb ho hw]
  have hsecond : (job.settle options second).2.get? place = second.get? place := by
    have hstay := settle_of_not_writes wf' hj hb ho fun bytes he hwr => hw ⟨he, bytes, hwr⟩
    refine hstay.resolve_right ?_
    rintro ⟨hnone, hdir⟩
    have := (settle_repeated wf' hj hb hd).lasts.directory place hdir
    rw [hnone] at this
    cases this
  rw [Agree, hsecond]
  rcases h with h | ⟨heq, dir, name, p, rfl, hready⟩
  · exact .inl h
  by_cases hwf : dir ++ [name] = job.target ∧ ∃ bytes, job.Writes options first bytes
  · -- the job has written in the first run only, but its target is still ready
    obtain ⟨he, bytes, hwfirst⟩ := hwf
    obtain ⟨rfl, hname⟩ := List.append_inj' he rfl
    obtain rfl : name = job.file := by simpa using hname
    have hlastReady : job.Ready options last := hready.other hwfirst.1 hfirst.homePath_eq.symm
    exact absurd ⟨rfl, bytes, hold.ready hlastReady, hwfirst.2⟩ hw
  · rcases settle_of_not_writes wf hj hb ho fun bytes he hwr => hwf ⟨he, bytes, hwr⟩ with
      hf | ⟨hnone, hdir⟩
    · exact .inr ⟨hf.trans heq, dir, name, p, rfl, hready⟩
    · have := hnew.directory _ (hlast.directory _ hdir)
      rw [← heq, hnone] at this
      cases this

/-- Two runs of jobs that agree end alike. -/
theorem writeAll_agree (wf : first.WellFormed) (wf' : second.WellFormed)
    (hj : ∀ job ∈ jobs, job.Placed) (hb : options.backup = false)
    (ho : options.overwrite = true) (hnew : Lasts (writeAll options jobs first).2 second)
    (hold : Lasts second (writeAll options jobs first).2)
    (hd : ∀ job ∈ jobs, job.Done options second)
    (h : Agree options (writeAll options jobs first).2 first second place) :
    (writeAll options jobs second).2.get? place = (writeAll options jobs first).2.get? place := by
  induction jobs generalizing first second with
  | nil => exact h.elim id fun h => h.1.symm
  | cons job r ih =>
    have hjob := hj job List.mem_cons_self
    have hdone := hd job List.mem_cons_self
    have hkept := (settle_kept options job second).1
    have hadded := (settle_repeated wf' hjob hb hdone).lasts
    rw [writeAll_cons] at hnew hold h ⊢
    rw [writeAll_cons]
    exact ih (settle_wellFormed wf hjob) (settle_wellFormed wf' hjob)
      (fun j hm => hj j (List.mem_cons_of_mem _ hm)) (hnew.trans hkept) (hadded.trans hold)
      (fun j hm => (hd j (List.mem_cons_of_mem _ hm)).lasts hkept)
      (settle_agree wf wf' hjob hb ho (writeAll_lasts options r _) hnew hold hdone h)

/-- Jobs without backups that are done again leave every entry as it is. -/
theorem writeAll_again (wf : disk.WellFormed) (hj : ∀ job ∈ jobs, job.Placed)
    (hb : options.backup = false) (place : Location) :
    (writeAll options jobs (writeAll options jobs disk).2).2.get? place =
      (writeAll options jobs disk).2.get? place := by
  have hd : ∀ job ∈ jobs, job.Done options (writeAll options jobs disk).2 :=
    done_of_writeAll wf hj
  have wf' : (writeAll options jobs disk).2.WellFormed := wellFormed_of_writeAll wf hj
  cases ho : options.overwrite with
  | false => exact ((writeAll_repeated wf' hj hb hd).2 ho).entry place
  | true =>
    exact writeAll_agree wf wf' hj hb ho (Lasts.refl _) (Lasts.refl _) hd (.inl rfl)

/-! ## Jobs that do not meet -/

theorem Alike.ready {dir : Location} {name : String} {p : Path} {atomic : Bool}
    (h : Alike dir name first second) (hr : second.Ready atomic dir name p) :
    first.Ready atomic dir name p where
  way := h.open_iff.mp hr.way
  fits := hr.fits
  target hd := hr.target ((h.entry name (kin_self name)).trans hd)
  temporary ha := by
    obtain ⟨k, hk, hfits, hn⟩ := hr.temporary ha
    unfold homePath at hfits ⊢
    rw [h.home] at hfits
    exact ⟨k, hk, hfits, (h.entry _ (kin_temporary name k)).symm.trans hn⟩

variable {workers : Option Nat} {turns turns' : List Nat}

/-- Jobs that do not meet have their files afterwards, if these can be written. -/
theorem kept_of_apart (wf : disk.WellFormed) (hap : jobs.Pairwise Job.KeepsApart)
    (hj : ∀ job ∈ jobs, job.Proper) :
    ∀ job ∈ jobs, job.Kept options (writeAllBy workers turns options jobs disk).2 := by
  obtain ⟨-, halike, -⟩ : (writeAllBy workers turns options jobs disk).1.map _ = _ ∧ _ :=
    writeAllBy_isolated workers turns options wf hap hj
  intro job hm bytes hw
  cases hc : job.content with
  | error e => exact absurd hw (not_writes_of_error hc)
  | ok content =>
    have h := halike job hm ⟨content, hc⟩
    have hd : job.Done options (job.settle options disk).2 := done_of_settle wf (hj job hm).placed
    have hsome := hd.present bytes ⟨Alike.ready h hw.1, hw.2⟩
    rwa [Job.target, ← h.entry job.file (kin_self _)] at hsome

/-- Jobs that do not meet leave the same files when they are done again, in whatever turns. -/
theorem writeAllBy_again (wf : disk.WellFormed) (hap : jobs.Pairwise Job.KeepsApart)
    (hj : ∀ job ∈ jobs, job.Proper) (hb : options.backup = false) (place : Location)
    (bytes : List UInt8) :
    (writeAllBy workers turns' options jobs (writeAllBy workers turns options jobs disk).2).2.get?
        place = some (.file bytes) ↔
      (writeAllBy workers turns options jobs disk).2.get? place = some (.file bytes) := by
  obtain ⟨-, halike, -⟩ : (writeAllBy workers turns options jobs disk).1.map _ = _ ∧ _ :=
    writeAllBy_isolated workers turns options wf hap hj
  have wf' : (writeAllBy workers turns options jobs disk).2.WellFormed :=
    writeAllBy_wellFormed wf hj
  generalize (writeAllBy workers turns options jobs disk).2 = after at halike wf' ⊢
  obtain ⟨-, halike', hrest'⟩ : (writeAllBy workers turns' options jobs after).1.map _ = _ ∧ _ :=
    writeAllBy_isolated workers turns' options wf' hap hj
  by_cases ho : ∃ job ∈ jobs, job.HasText ∧ Owns job.directory job.file place
  · obtain ⟨job, hm, hc, ho⟩ := ho
    obtain ⟨kin, hk, rfl⟩ := exists_kin_of_owns ho
    -- what the job leaves alone it leaves again, and it cannot tell what others have done
    have ht := ((hj job hm).visible hc).targets
    have hsettle : Alike job.directory job.file (job.settle options (job.settle options disk).2).2
        (job.settle options after).2 := (settle_alike (halike job hm hc) ht).2
    have hsame : (job.settle options (job.settle options disk).2).2.get? _ = _ :=
      writeAll_again wf (List.forall_mem_singleton.mpr (hj job hm).placed) hb
        (job.directory ++ [kin])
    have hfirst := (halike job hm hc).entry kin hk
    rw [(halike' job hm hc).entry kin hk, hsettle.entry kin hk, hfirst]
    exact Eq.congr_left hsame
  · exact hrest' place (fun job hm hc hown => ho ⟨job, hm, hc, hown⟩) bytes

end Output

/-! ## Runs -/

open Disk Output

namespace WriteRun

section

variable [Surrogates] {run : WriteRun} {disk : Disk} {root : Path}

/-- What a run needs for a second one to find nothing to add: its jobs are done one after the other,
or no two of them meet, or there is room for all temporary files. -/
def Repeatable (run : WriteRun) (root : Path) (disk : Disk) : Prop :=
  run.settings.workers = some 1 ∨ (run.jobs root).Pairwise Job.KeepsApart ∨
    Ample (run.jobs root) disk

/-- Every file that can be written is there after a run, whatever turns its tasks take. -/
theorem kept_of_perform {turns : List Nat} (wf : disk.WellFormed)
    (hext : '/' ∉ run.options.extension.toList) (hroot : disk.resolve run.output = .ok root)
    (hrun : run.Repeatable root disk) : ∀ job ∈ run.jobs root, job.Kept run.options
      (writeAllBy run.settings.workers turns run.options (run.jobs root) disk).2 := by
  have hj := proper_of_mem_jobs hext hroot
  rcases hrun with hsingle | hap | hample
  · have hwrite : writeAllBy run.settings.workers turns run.options (run.jobs root) disk = _ :=
      writeAllBy_single (.inr hsingle)
    rw [hwrite]
    intro job hm
    exact (done_of_writeAll wf (placed_of_mem_jobs hext hroot) job hm).present
  · exact kept_of_apart wf hap hj
  · exact fun job hm => (present_of_writeAllBy wf hj hample job hm).kept

/-- A run without backups that is done again gives a report again, and creates nothing, nor updates
anything unless files may be overwritten. It leaves all files as they are, if it may not overwrite
them, or if no two of its tasks overlap that write to one file. -/
theorem perform_again (run : WriteRun) (disk : Disk) (turns turns' : List Nat)
    (wf : disk.WellFormed) (hext : '/' ∉ run.options.extension.toList)
    (hb : run.options.backup = false) (ho : run.settings.checkOutput "overwrite" = .ok ())
    (hw : run.settings.checkWorkers = .ok ()) (hroot : disk.resolve run.output = .ok root)
    (hrun : run.Repeatable root disk) :
    ∃ report report' after after',
      run.plan.writeJobs run.settings run.jobs run.output disk turns = (.ok report, after) ∧
      run.plan.writeJobs run.settings run.jobs run.output after turns' = (.ok report', after') ∧
      report'.count .created = 0 ∧
      (run.options.overwrite = false → report'.count .updated = 0) ∧
      ((run.options.overwrite = false ∨ run.settings.workers = some 1 ∨
          (run.jobs root).Pairwise Job.KeepsApart) →
        ∀ place bytes, after'.get? place = some (.file bytes) ↔
          after.get? place = some (.file bytes)) := by
  have hj := proper_of_mem_jobs hext hroot
  have hopen := run.allOpen_jobs hroot
  have hlasts := writeAllBy_lasts run.settings.workers turns run.options wf hj
  have hkept : ∀ job ∈ run.jobs root, job.Kept run.options
      (writeAllBy run.settings.workers turns run.options (run.jobs root) disk).2 :=
    kept_of_perform wf hext hroot hrun
  have wf' : (writeAllBy run.settings.workers turns run.options (run.jobs root)
      disk).2.WellFormed := writeAllBy_wellFormed wf hj
  have hfirst : run.plan.writeJobs run.settings run.jobs run.output disk turns = _ :=
    run.plan.writeJobs_verified ho hw hroot wf hopen
  have hsecond : run.plan.writeJobs run.settings run.jobs run.output
      (writeAllBy run.settings.workers turns run.options (run.jobs root) disk).2 turns' = _ :=
    run.plan.writeJobs_verified ho hw ((hlasts.resolve_eq run.output).trans hroot) wf' hopen
  obtain ⟨hstatus, hsame⟩ : (∀ r ∈ (writeAllBy run.settings.workers turns' run.options
      (run.jobs root) _).1, _) ∧ _ := writeAllBy_repeated wf' hj hb hkept
  refine ⟨_, _, _, _, hfirst, hsecond, Report.count_eq_zero fun r hm => (hstatus r hm).1,
    fun hno => Report.count_eq_zero fun r hm => (hstatus r hm).2 hno, ?_⟩
  rintro (hno | hsingle | hap) place bytes
  · exact hsame hno place bytes
  · show (writeAllBy _ _ run.options _ _).2.get? place = _ ↔ (writeAllBy _ _ run.options _ _).2.get?
      place = _
    rw [writeAllBy_single (.inr hsingle), writeAllBy_single (.inr hsingle),
      writeAll_again wf (placed_of_mem_jobs hext hroot) hb]
  · exact writeAllBy_again wf hap hj hb place bytes

end

open scoped Surrogates

/-- A run that may not overwrite and writes a file twice, the second time with a text that its
encoding lacks, and that cannot render a third artifact. -/
def colliding : WriteRun where
  settings := { output := .options [("atomic_write", .bool true), ("encoding", .string "ascii"),
    ("file_extension", .string ".java")] }
  plan := { package := "a.domain", tree := ⟨⟨"a", "", .single, []⟩, true, none, []⟩ }
  units := [.inl (Artifact.wrapper "a.domain" "A" .serialNumber "" .string),
    .inl (Artifact.wrapper "a.domain" "A" .serialNumber "é" .string),
    .inl (Artifact.wrapper "a.domain" "1" .serialNumber "" .string)]
  output := .ofString "/out"

theorem ample_colliding : Ample (colliding.jobs (.ofString "/out")) {} where
  clears job hm other ho _ _ := by
    have hdirectory : ∀ job ∈ colliding.jobs (.ofString "/out"), job.directory = ["out"] := by
      decide
    rw [Job.Clears, hdirectory job hm, hdirectory other ho]
    exact fun _ => append_singleton_not_prefix
  spares job _ _ := by
    have hne : ∀ k, [] ≠ job.temporaryAt k := fun k => append_singleton_ne_nil.symm
    have hlimit : ∀ k ∈ [0, 1, 2, 3], k < temporaryLimit := by decide
    exact ⟨[0, 1, 2, 3], by decide, by decide, fun k hk => ⟨hlimit k hk, if_neg (hne k).symm⟩⟩

theorem perform_again_colliding :
    ∃ report report' after after',
      colliding.plan.writeJobs colliding.settings colliding.jobs colliding.output {} [0, 1, 0, 1] =
        (.ok report, after) ∧
      colliding.plan.writeJobs colliding.settings colliding.jobs colliding.output after [1] =
        (.ok report', after') ∧
      report'.count .created = 0 ∧ report'.count .updated = 0 ∧
      ∀ place bytes, after'.get? place = some (.file bytes) ↔
        after.get? place = some (.file bytes) := by
  obtain ⟨report, report', after, after', hfirst, hsecond, hcreated, hupdated, hsame⟩ :=
    perform_again colliding {} [0, 1, 0, 1] [1] (by decide) (by decide) rfl rfl rfl rfl
      (.inr (.inr ample_colliding))
  exact ⟨report, report', after, after', hfirst, hsecond, hcreated, hupdated rfl,
    hsame (.inl rfl)⟩

/-- The bytes of code points in Latin-1, with escapes for what Latin-1 does not have. -/
def escapedBytes (codes : List Nat) : List UInt8 :=
  codes.flatMap fun n =>
    if n < 0x100 then [UInt8.ofNat n]
    else (Text.codePointEscape n).map fun c => UInt8.ofNat c.toNat

/-- A run by so many workers that may overwrite and writes a file twice, with different texts. -/
def racing (workers : Int) : WriteRun where
  settings := {
    values := [("max_workers", .int workers)]
    output := .options [("overwrite", .bool true), ("atomic_write", .bool true),
      ("file_extension", .string ".java"), ("encoding", .string "raw_unicode_escape")]
    codecs := fun _ => .ok (.plain fun codes => .ok (escapedBytes codes)) }
  plan := { package := "p", tree := ⟨⟨"a", "", .single, []⟩, true, none, []⟩ }
  units := [.inl (Artifact.wrapper "p" "A" .serialNumber "" .string),
    .inl (Artifact.wrapper "q" "A" .serialNumber "" .string)]
  output := .ofString "/out"

theorem escapedBytes_printPieces_cons (piece : Java.Piece) (pieces : List Java.Piece) :
    escapedBytes (Text.codePoints (Java.printPieces (piece :: pieces))) =
      escapedBytes (Text.codePoints piece.text) ++
        escapedBytes (Text.codePoints (Java.printPieces pieces)) := by
  unfold Java.printPieces escapedBytes Text.codePoints
  rw [List.map_cons, String.join_cons, String.toList_append, List.map_append, List.flatMap_append]

/-- Without workers there is no report. With two of them, a run that is done again leaves another
text in a file when its tasks take other turns. -/
theorem perform_again_racing :
    ((racing 0).plan.writeJobs (racing 0).settings (racing 0).jobs (racing 0).output {}).1 =
      .error (.settings .workersNotPositive) ∧
    ((racing 2).perform ((racing 2).perform {}) [1, 1, 1, 1, 1]).get? ["out", "A.java"] ≠
      ((racing 2).perform {}).get? ["out", "A.java"] := by
  refine ⟨rfl, fun h => ?_⟩
  -- the task that is the last to write is another one, and its text names another package
  obtain ⟨rest, hsecond⟩ : ∃ rest,
      ((racing 2).perform ((racing 2).perform {}) [1, 1, 1, 1, 1]).get? ["out", "A.java"] =
        some (.file (escapedBytes (Text.codePoints (Java.printPieces
          (.lineComment Artifact.bannerText :: Java.line "package p;" :: rest))))) :=
    ⟨_, rfl⟩
  obtain ⟨rest', hfirst⟩ : ∃ rest,
      ((racing 2).perform {}).get? ["out", "A.java"] =
        some (.file (escapedBytes (Text.codePoints (Java.printPieces
          (.lineComment Artifact.bannerText :: Java.line "package q;" :: rest))))) :=
    ⟨_, rfl⟩
  rw [hsecond, hfirst] at h
  have hbytes := Entry.file.inj (Option.some.inj h)
  simp only [escapedBytes_printPieces_cons, List.append_cancel_left_eq] at hbytes
  have hp : escapedBytes (Text.codePoints (Java.line "package p;").text) =
      [112, 97, 99, 107, 97, 103, 101, 32, 112, 59, 10] := by decide
  have hq : escapedBytes (Text.codePoints (Java.line "package q;").text) =
      [112, 97, 99, 107, 97, 103, 101, 32, 113, 59, 10] := by decide
  rw [hp, hq] at hbytes
  simp at hbytes

end WriteRun

end DomainCodegen
