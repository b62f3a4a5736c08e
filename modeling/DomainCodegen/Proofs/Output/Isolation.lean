import DomainCodegen.Proofs.Output.Settling

/-!
# Jobs that do not meet

Two jobs are apart when no name that the one looks at is a place of the other or on the way to it.
A job cannot tell the disks before and after a job apart from it, so that jobs that are pairwise
apart fare in a run as each of them does alone (`writeAll_isolated`), in whatever order they are
done (`writeAll_perm`).
-/

namespace DomainCodegen

namespace Disk

variable {disk other : Disk} {p : Path} {dir : Location} {name kin : String} {bytes : List UInt8}
  {mode : SaveMode} {content : String}

/-! ## Disks alike -/

/-- The names beside a file that a job for it looks at: its own, and those of temporary files and
backups. -/
def Kin (name kin : String) : Prop :=
  kin = name ∨ (∃ k, kin = temporaryName name k) ∨ ∃ k, kin = backupName name k

theorem kin_self (name : String) : Kin name name := .inl rfl

theorem kin_temporary (name : String) (k : Nat) : Kin name (temporaryName name k) :=
  .inr (.inl ⟨k, rfl⟩)

theorem kin_backup (name : String) (k : Nat) : Kin name (backupName name k) := .inr (.inr ⟨k, rfl⟩)

/-- Two disks that a job for a file cannot tell apart: the way to its directory is open in both or
in neither, and the same entries stand at all names that it looks at. -/
structure Alike (dir : Location) (name : String) (disk other : Disk) : Prop where
  home : other.home = disk.home
  wellFormed : disk.WellFormed
  otherWellFormed : other.WellFormed
  open_iff : other.Open dir ↔ disk.Open dir
  entry : ∀ kin, Kin name kin → other.get? (dir ++ [kin]) = disk.get? (dir ++ [kin])

theorem Alike.refl (wf : disk.WellFormed) : Alike dir name disk disk :=
  ⟨rfl, wf, wf, Iff.rfl, fun _ _ => rfl⟩

theorem Alike.trans {third : Disk} (h : Alike dir name disk other)
    (h' : Alike dir name other third) : Alike dir name disk third :=
  ⟨h'.home.trans h.home, h.wellFormed, h'.otherWellFormed, h'.open_iff.trans h.open_iff,
    fun kin hk => (h'.entry kin hk).trans (h.entry kin hk)⟩

theorem Alike.grows {disk' other' : Disk} (h : Alike dir name disk other)
    (hd : Grows dir disk disk') (ho : Grows dir other other') (wf : disk'.WellFormed)
    (wf' : other'.WellFormed) : Alike dir name disk' other' where
  home := by rw [ho.home, hd.home, h.home]
  wellFormed := wf
  otherWellFormed := wf'
  open_iff := by rw [ho.open_iff, hd.open_iff, h.open_iff]
  entry kin hk := by
    rw [ho.get?_eq append_singleton_not_prefix, hd.get?_eq append_singleton_not_prefix,
      h.entry kin hk]

theorem Alike.same {disk' other' : Disk} (h : Alike dir name disk other) (hd : Same disk disk')
    (ho : Same other other') : Alike dir name disk' other' :=
  h.grows hd.grows ho.grows (hd.wellFormed h.wellFormed) (ho.wellFormed h.otherWellFormed)

/-- The same file is put into both. -/
theorem Alike.set (h : Alike dir name disk other) (hr : disk.Room dir) (hr' : other.Room dir)
    (hk : Kin name kin) (hd : disk.get? (dir ++ [kin]) ≠ some .directory) :
    Alike dir name (disk.set (dir ++ [kin]) (.file bytes))
      (other.set (dir ++ [kin]) (.file bytes)) := by
  have hs : (disk.set (dir ++ [kin]) (.file bytes)).Room dir := hr.set hd
  have hs' : (other.set (dir ++ [kin]) (.file bytes)).Room dir :=
    hr'.set (by rw [h.entry kin hk]; exact hd)
  refine ⟨h.home, hs.wellFormed, hs'.wellFormed, ?_, fun kin' hk' => ?_⟩
  · exact iff_of_true (open_of_directory hs'.wellFormed hs'.directory)
      (open_of_directory hs.wellFormed hs.directory)
  · rw [get?_set_append, get?_set_append, h.entry kin' hk']

theorem Alike.withFile (h : Alike dir name disk other) (hr : disk.Room dir) (hr' : other.Room dir)
    {written : Option (List UInt8)}
    (hd : written.isSome → disk.get? (dir ++ [name]) ≠ some .directory) :
    Alike dir name (disk.withFile (dir ++ [name]) written)
      (other.withFile (dir ++ [name]) written) := by
  cases written with
  | none => exact h
  | some bytes => exact h.set hr hr' (kin_self name) (hd rfl)

/-! ## What a job reads -/

theorem Alike.holds [Surrogates] (h : Alike dir name disk other) (hr : disk.Room dir)
    (hr' : other.Room dir)
    (hk : Kin name kin) (hb : disk.Beside dir kin p) : other.holds p = disk.holds p := by
  unfold Disk.holds
  rw [hb.look hr.wellFormed hr.directory,
    (hb.of_room hr' h.home).look hr'.wellFormed hr'.directory, h.entry kin hk]

theorem Alike.freeTemporary [Surrogates] (h : Alike dir name disk other) (hr : disk.Room dir)
    (hr' : other.Room dir) (hb : disk.Beside dir name p) :
    other.freeTemporary p = disk.freeTemporary p := by
  have hhome : other.homePath = disk.homePath := by
    unfold homePath
    rw [h.home]
  have hfirst : other.firstFree (temporaryPath disk.homePath p) =
      disk.firstFree (temporaryPath disk.homePath p) :=
    firstFree_congr (temporaryName_injective name) hb.temporary
      (fun k => (hb.temporary k).of_room hr' h.home)
      fun k => h.holds hr hr' (kin_temporary name k) (hb.temporary k)
  unfold Disk.freeTemporary
  rw [hhome, hfirst]

theorem Alike.firstBackup [Surrogates] (h : Alike dir name disk other) (hr : disk.Room dir)
    (hr' : other.Room dir) (hb : disk.Beside dir name p) :
    other.firstFree (backupPath p) = disk.firstFree (backupPath p) :=
  firstFree_congr (backupName_injective name) hb.backup
    (fun k => (hb.backup k).of_room hr' h.home)
    fun k => h.holds hr hr' (kin_backup name k) (hb.backup k)

theorem Alike.savedHere [Surrogates] (h : Alike dir name disk other) (hr : disk.Room dir)
    (hr' : other.Room dir)
    (hb : disk.Beside dir name p) :
    other.savedHere mode p content = disk.savedHere mode p content := by
  have hplace : other.placeOf p = dir ++ [name] := (hb.of_room hr' h.home).place
  unfold Disk.savedHere savedThrough savedInPlace
  rw [h.freeTemporary hr hr' hb, hplace, hb.place, h.entry name (kin_self name)]

/-! ## What a job does -/

/-- Saving succeeds in both or in neither, and leaves them alike. -/
theorem Alike.save [Surrogates] (h : Alike dir name disk other) (hb : disk.Beside dir name p)
    (hb' : other.Beside dir name p) :
    ((other.save mode p content).1 = .ok () ↔ (disk.save mode p content).1 = .ok ()) ∧
      Alike dir name (disk.save mode p content).2 (other.save mode p content).2 := by
  obtain ⟨made, hg, hcase⟩ := save_cases h.wellFormed hb mode content
  obtain ⟨made', hg', hcase'⟩ := save_cases h.otherWellFormed hb' mode content
  rcases hcase with ⟨fault, hs, wf, hnot⟩ | ⟨hfits, ho, hr, hs, hsame⟩ <;>
    rcases hcase' with ⟨fault', hs', wf', hnot'⟩ | ⟨hfits', ho', hr', hs', hsame'⟩
  · rw [hs, hs']
    exact ⟨iff_of_false nofun nofun, h.grows hg hg' wf wf'⟩
  · exact absurd ⟨hfits', h.open_iff.mp ho'⟩ hnot
  · exact absurd ⟨hfits, h.open_iff.mpr ho⟩ hnot'
  · have hmade := h.grows hg hg' hr.wellFormed hr'.wellFormed
    have hbm := hb.of_room hr hg.home
    have heq : made'.savedHere mode p content = made.savedHere mode p content :=
      hmade.savedHere hr hr' hbm
    rw [heq] at hs' hsame'
    refine ⟨by rw [hs, hs'], (hmade.withFile hr hr' fun hsome => ?_).same hsame hsame'⟩
    rw [← hbm.place]
    rcases savedHere_cases made mode p content with ⟨fault, he⟩ | ⟨-, hd, -⟩
    · rw [he] at hsome
      cases hsome
    · exact hd

/-- Backing up gives the same backup in both, and leaves them alike. -/
theorem Alike.backUp [Surrogates] (h : Alike dir name disk other) (hr : disk.Room dir)
    (hr' : other.Room dir)
    (hb : disk.Beside dir name p) :
    (other.backUp p).1 = (disk.backUp p).1 ∧
      Alike dir name (disk.backUp p).2 (other.backUp p).2 := by
  have hb' := hb.of_room hr' h.home
  have hfile : other.fileAt p = disk.fileAt p := by
    rw [hb.fileAt hr, hb'.fileAt hr', h.entry name (kin_self name)]
  have hne : ¬ p.name = "" := by
    rw [hb.name_eq]
    exact hb.nonempty
  unfold Disk.backUp
  rw [if_neg hne, if_neg hne, h.firstBackup hr hr' hb, hfile]
  obtain ⟨k, -, ⟨-, hfirst⟩ | ⟨fault, -, hfirst⟩⟩ :=
    firstFree_firstAt (backupName_injective name) hb.backup <;> rw [hfirst]
  · cases disk.fileAt p with
    | error fault => exact ⟨rfl, h⟩
    | ok bytes =>
    have hk := kin_backup name k
    simp only [(hb.backup k).writeFile hr, (hb'.backup k).writeFile hr', h.entry _ hk]
    cases accept (backupPath p k) with
    | error fault => exact ⟨rfl, h⟩
    | ok u =>
    by_cases hd : disk.get? (dir ++ [backupName name k]) = some .directory
    · simp only [if_pos hd]
      exact ⟨trivial, h⟩
    · simp only [if_neg hd]
      exact ⟨trivial, h.set hr hr' hk hd⟩
  · exact ⟨rfl, h⟩

end Disk

namespace Output

open Disk

variable {disk other : Disk} {options : OutputOptions} {job : Job} {jobs order : List Job}
  {p : Path} {dir front place : Location} {name last content : String} {bytes : List UInt8}

theorem savedAs_congr {success : Status × Option Path} {r s : Except SaveFault Unit}
    (h : r = .ok () ↔ s = .ok ()) : savedAs success r = savedAs success s := by
  cases r with
  | error fault =>
    cases s with
    | error fault' => rfl
    | ok u => exact nomatch h.mpr rfl
  | ok u =>
    cases s with
    | error fault => exact nomatch h.mp rfl
    | ok u => rfl

theorem backUpIf_alike [Surrogates] (h : Alike dir name disk other) (hr : disk.Room dir)
    (hr' : other.Room dir) (hb : disk.Beside dir name p) (wanted : Bool) :
    (backUpIf wanted other p).1 = (backUpIf wanted disk p).1 ∧
      Alike dir name (backUpIf wanted disk p).2 (backUpIf wanted other p).2 := by
  unfold backUpIf
  cases wanted with
  | false => exact ⟨rfl, h⟩
  | true =>
    simp only [if_true]
    obtain ⟨heq, ha⟩ := h.backUp hr hr' hb
    rcases hu : disk.backUp p with ⟨r, backed⟩
    rcases hu' : other.backUp p with ⟨r', backed'⟩
    rw [hu, hu'] at heq ha
    obtain rfl : r' = r := heq
    cases r' <;> exact ⟨rfl, ha⟩

theorem replace_alike [Surrogates] (h : Alike dir name disk other) (hr : disk.Room dir)
    (hr' : other.Room dir)
    (ht : job.Targets dir name) :
    attempted (job.replace options content other).1 =
        attempted (job.replace options content disk).1 ∧
      Alike dir name (job.replace options content disk).2
        (job.replace options content other).2 := by
  obtain ⟨heq, ha⟩ := backUpIf_alike h hr hr' (ht.beside disk) options.backup
  rcases hb : backUpIf options.backup disk job.path with ⟨r, backed⟩
  rcases hb' : backUpIf options.backup other job.path with ⟨r', backed'⟩
  rw [hb, hb'] at heq ha
  obtain rfl : r' = r := heq
  cases r' with
  | error fault =>
    rw [replace_of_error hb, replace_of_error hb']
    exact ⟨rfl, ha⟩
  | ok backup =>
    obtain ⟨hiff, hs⟩ := ha.save (ht.beside _) (ht.beside _)
    rw [(replace_of_ok hb).1, (replace_of_ok hb').1, (replace_of_ok hb).2, (replace_of_ok hb').2]
    exact ⟨savedAs_congr hiff, hs⟩

/-- A job whose path does not fit fails, and makes directories at most. -/
theorem put_of_not_fits [Surrogates] (wf : disk.WellFormed) (ht : job.Targets dir name)
    (hf : ¬ job.path.Fits) :
    attempted (job.put options content disk).1 = (.failed, none) ∧
      Grows dir disk (job.put options content disk).2 := by
  have hb := ht.beside disk
  cases hh : disk.holds job.path with
  | error fault =>
    rw [put_of_fault hh]
    exact ⟨rfl, Grows.refl dir disk⟩
  | ok taken =>
  cases taken with
  | false =>
    obtain ⟨⟨fault, hs⟩, hg⟩ : (∃ fault, (disk.save (saveMode options) job.path content).1 =
        .error fault) ∧ Grows dir disk _ := save_of_not_fits wf hb hf
    rw [(put_of_free hh).1, (put_of_free hh).2, hs]
    exact ⟨rfl, hg⟩
  | true =>
    unfold Disk.holds at hh
    rcases look_of_not_fits hb.straight hf with hl | ⟨fault, hl⟩ <;> rw [hl] at hh <;> cases hh

theorem put_alike [Surrogates] (h : Alike dir name disk other) (ht : job.Targets dir name) :
    attempted (job.put options content other).1 = attempted (job.put options content disk).1 ∧
      Alike dir name (job.put options content disk).2 (job.put options content other).2 := by
  by_cases hf : job.path.Fits
  · have hb := ht.beside disk
    have hb' := ht.beside other
    have hh : disk.holds job.path = .ok (disk.get? (dir ++ [name])).isSome := by
      rw [holds_of_fits h.wellFormed hb.straight hf, hb.place]
    have hh' : other.holds job.path = .ok (disk.get? (dir ++ [name])).isSome := by
      rw [holds_of_fits h.otherWellFormed hb'.straight hf, hb'.place, h.entry name (kin_self name)]
    cases he : (disk.get? (dir ++ [name])).isSome with
    | false =>
      rw [he] at hh hh'
      obtain ⟨hiff, hs⟩ := h.save hb hb'
      rw [(put_of_free hh).1, (put_of_free hh').1, (put_of_free hh).2, (put_of_free hh').2]
      exact ⟨savedAs_congr hiff, hs⟩
    | true =>
      rw [he] at hh hh'
      rw [put_of_taken hh, put_of_taken hh']
      split
      · exact replace_alike h (room_of_holds h.wellFormed hb hh)
          (room_of_holds h.otherWellFormed hb' hh') ht
      · exact ⟨rfl, h⟩
  · obtain ⟨ho, hg⟩ : attempted (job.put options content disk).1 = _ ∧ Grows dir disk _ :=
      put_of_not_fits h.wellFormed ht hf
    obtain ⟨ho', hg'⟩ : attempted (job.put options content other).1 = _ ∧ Grows dir other _ :=
      put_of_not_fits h.otherWellFormed ht hf
    exact ⟨by rw [ho, ho'], h.grows hg hg' (put_touches h.wellFormed ht).wellFormed
      (put_touches h.otherWellFormed ht).wellFormed⟩

/-- A job has the same outcome on disks that it cannot tell apart, and leaves them so. -/
theorem settle_alike [Surrogates] (h : Alike dir name disk other) (ht : job.Targets dir name) :
    (job.settle options other).1.outcome = (job.settle options disk).1.outcome ∧
      Alike dir name (job.settle options disk).2 (job.settle options other).2 := by
  cases hc : job.content with
  | error e =>
    rw [(settle_of_error hc).1, (settle_of_error hc).1, (settle_of_error hc).2,
      (settle_of_error hc).2]
    exact ⟨rfl, h⟩
  | ok content =>
    rw [(settle_of_ok hc).1, (settle_of_ok hc).1, (settle_of_ok hc).2, (settle_of_ok hc).2]
    exact put_alike h ht

/-! ## Jobs apart -/

/-- No name that the one job looks at is one of the other, or leads to its directory. -/
structure Apart (dir : Location) (name : String) (front : Location) (last : String) : Prop where
  place_ne : ∀ kin kin', Kin name kin → Kin last kin' → dir ++ [kin] ≠ front ++ [kin']
  not_prefix : ∀ kin, Kin name kin → ¬ dir ++ [kin] <+: front
  not_prefix' : ∀ kin, Kin last kin → ¬ front ++ [kin] <+: dir

theorem Apart.symm (h : Apart dir name front last) : Apart front last dir name :=
  ⟨fun kin kin' hk hk' => (h.place_ne kin' kin hk' hk).symm, h.not_prefix', h.not_prefix⟩

theorem Apart.irrefl : ¬ Apart dir name dir name := fun h =>
  h.place_ne name name (kin_self name) (kin_self name) rfl

theorem exists_kin_of_owns (h : Owns front last place) :
    ∃ kin, Kin last kin ∧ place = front ++ [kin] := by
  rcases h with rfl | ⟨k, rfl⟩
  · exact ⟨last, kin_self last, rfl⟩
  · exact ⟨_, kin_backup last k, rfl⟩

/-- A job cannot tell what was done at the names that a job apart from it looks at. -/
theorem Apart.alike_of_kin {own : Location → Prop} (h : Apart dir name front last)
    (wf : disk.WellFormed)
    (hown : ∀ place, own place → ∃ kin, Kin last kin ∧ place = front ++ [kin])
    (ht : Touches own front disk other) : Alike dir name disk other where
  home := ht.home
  wellFormed := wf
  otherWellFormed := ht.wellFormed
  open_iff := by
    refine forall_congr' fun way => forall_congr' fun hw => forall_congr' fun bytes => ?_
    refine not_congr (ht.file_iff fun ho => ?_)
    obtain ⟨kin, hk, rfl⟩ := hown way ho
    exact h.not_prefix' kin hk hw
  entry kin hk := by
    have ho : ¬ own (dir ++ [kin]) := by
      intro ho
      obtain ⟨kin', hk', he⟩ := hown _ ho
      exact h.place_ne kin kin' hk hk' he
    exact (ht.entry _ ho).resolve_right fun hg => h.not_prefix kin hk hg.1

/-- A job cannot tell what a job apart from it has done. -/
theorem Apart.alike (h : Apart dir name front last) (wf : disk.WellFormed)
    (ht : Touches (Owns front last) front disk other) : Alike dir name disk other :=
  h.alike_of_kin wf (fun _ => exists_kin_of_owns) ht

/-- The directory that a job writes in. -/
def Job.directory (job : Job) : Location := job.path.parent.names

/-- The name of the file that a job writes. -/
def Job.file (job : Job) : String := job.path.name

theorem Job.Targets.directory_eq (h : job.Targets dir name) : job.directory = dir := by
  show job.path.names.dropLast = dir
  rw [h.names, List.dropLast_concat]

theorem Job.Targets.file_eq (h : job.Targets dir name) : job.file = name := by
  show job.path.names.getLast?.getD "" = name
  rw [h.names]
  simp

theorem Job.Targets.own (h : job.Targets dir name) : job.Targets job.directory job.file := by
  rwa [h.directory_eq, h.file_eq]

/-- Jobs that write to places of their own, and are apart from each other. -/
structure Separate (jobs : List Job) : Prop where
  targets : ∀ job ∈ jobs, job.Targets job.directory job.file
  apart : jobs.Pairwise fun job job' => Apart job.directory job.file job'.directory job'.file

theorem Separate.perm (h : Separate jobs) (hp : order.Perm jobs) : Separate order where
  targets job hj := h.targets job (hp.mem_iff.mp hj)
  apart := (hp.pairwise_iff fun ha => ha.symm).mpr h.apart

theorem Separate.tail (h : Separate (job :: jobs)) : Separate jobs where
  targets j hj := h.targets j (List.mem_cons_of_mem _ hj)
  apart := (List.pairwise_cons.mp h.apart).2

theorem Separate.nodup_paths (h : Separate jobs) : (jobs.map Job.path).Nodup := by
  refine List.pairwise_map.mpr (h.apart.imp ?_)
  intro job job' ha he
  unfold Job.directory Job.file at ha
  rw [he] at ha
  exact Apart.irrefl ha

/-! ## Runs -/

/-- A job cannot tell what jobs that are apart from it have done. -/
theorem writeAll_alike [Surrogates] (wf : disk.WellFormed)
    (ht : ∀ j ∈ jobs, j.Targets j.directory j.file)
    (hap : ∀ j ∈ jobs, Apart dir name j.directory j.file) :
    Alike dir name disk (writeAll options jobs disk).2 :=
  writeAll_induction (fun j hj _ ha => ha.trans ((hap j hj).alike ha.otherWellFormed
    (settle_touches ha.otherWellFormed (ht j hj)))) (Alike.refl wf)

/-- A job that is apart from all others fares in a run as it does alone, whatever these do to each
other. -/
theorem writeAll_alone [Surrogates] {before after : List Job} (options : OutputOptions)
    (wf : disk.WellFormed)
    (ht : ∀ j ∈ before ++ job :: after, j.Targets j.directory j.file)
    (hap : ∀ j ∈ before ++ after, Apart job.directory job.file j.directory j.file) :
    ((writeAll options (before ++ job :: after) disk).1.map Result.outcome)[before.length]? =
        some (job.settle options disk).1.outcome ∧
      Alike job.directory job.file (job.settle options disk).2
        (writeAll options (before ++ job :: after) disk).2 := by
  have hj : job.Targets job.directory job.file := ht job (by simp)
  induction before generalizing disk with
  | nil =>
    rw [List.nil_append, writeAll_cons]
    exact ⟨rfl, writeAll_alike (settle_touches wf hj).wellFormed
      (fun j hm => ht j (List.mem_cons_of_mem _ hm)) hap⟩
  | cons first r ih =>
    have htouch : Touches _ _ disk (first.settle options disk).2 :=
      settle_touches wf (ht first List.mem_cons_self)
    obtain ⟨hout, halike⟩ := ih htouch.wellFormed (fun j hm => ht j (List.mem_cons_of_mem _ hm))
      fun j hm => hap j (List.mem_cons_of_mem _ hm)
    obtain ⟨hsame, hleft⟩ : (job.settle options (first.settle options disk).2).1.outcome = _ ∧ _ :=
      settle_alike ((hap first List.mem_cons_self).alike wf htouch) hj
    rw [List.cons_append, writeAll_cons]
    refine ⟨?_, hleft.trans halike⟩
    rw [← hsame, ← hout, List.map_cons, List.length_cons, List.getElem?_cons_succ]

/-- Jobs that are apart fare in a run as each of them does alone: each has the outcome that it has
alone, its files are as it leaves them, and all other files are as they were. -/
theorem writeAll_isolated [Surrogates] (wf : disk.WellFormed) (h : Separate jobs) :
    (writeAll options jobs disk).1.map Result.outcome =
        jobs.map (fun job => (job.settle options disk).1.outcome) ∧
      (∀ job ∈ jobs, Alike job.directory job.file (job.settle options disk).2
        (writeAll options jobs disk).2) ∧
      ∀ place, (∀ job ∈ jobs, ¬ Owns job.directory job.file place) → ∀ bytes,
        (writeAll options jobs disk).2.get? place = some (.file bytes) ↔
          disk.get? place = some (.file bytes) := by
  induction jobs generalizing disk with
  | nil => exact ⟨rfl, nofun, fun _ _ _ => Iff.rfl⟩
  | cons job r ih =>
    have ht := h.targets job List.mem_cons_self
    have htouch : Touches _ _ disk (job.settle options disk).2 := settle_touches wf ht
    -- the other jobs do as well after this one as they do alone
    have hother : ∀ j ∈ r, (j.settle options (job.settle options disk).2).1.outcome =
        (j.settle options disk).1.outcome ∧
        Alike j.directory j.file (j.settle options disk).2
          (j.settle options (job.settle options disk).2).2 := fun j hj =>
      settle_alike (((List.pairwise_cons.mp h.apart).1 j hj).symm.alike wf htouch)
        (h.tail.targets j hj)
    obtain ⟨hout, halike, hrest⟩ := ih htouch.wellFormed h.tail
    rw [writeAll_cons]
    refine ⟨?_, fun j hj => ?_, fun place hp bytes => ?_⟩
    · rw [List.map_cons, List.map_cons, hout]
      congr 1
      exact List.map_congr_left fun j hj => (hother j hj).1
    · rcases List.mem_cons.mp hj with rfl | hj
      · exact writeAll_alike htouch.wellFormed h.tail.targets (List.pairwise_cons.mp h.apart).1
      · exact (hother j hj).2.trans (halike j hj)
    · rw [hrest place fun j hj => hp j (List.mem_cons_of_mem _ hj)]
      exact htouch.file_iff (hp job List.mem_cons_self)

/-- The order in which jobs that are apart are done does not matter for the files. -/
theorem writeAll_perm [Surrogates] (wf : disk.WellFormed) (h : Separate jobs)
    (hp : order.Perm jobs) :
    (writeAll options order disk).2.get? place = some (.file bytes) ↔
      (writeAll options jobs disk).2.get? place = some (.file bytes) := by
  obtain ⟨-, halike, hrest⟩ : (writeAll options jobs disk).1.map Result.outcome = _ ∧ _ :=
    writeAll_isolated wf h
  obtain ⟨-, halike', hrest'⟩ : (writeAll options order disk).1.map Result.outcome = _ ∧ _ :=
    writeAll_isolated wf (h.perm hp)
  by_cases ho : ∃ job ∈ jobs, Owns job.directory job.file place
  · obtain ⟨job, hj, ho⟩ := ho
    obtain ⟨kin, hk, rfl⟩ := exists_kin_of_owns ho
    rw [(halike job hj).entry kin hk, (halike' job (hp.mem_iff.mpr hj)).entry kin hk]
  · have hn : ∀ job ∈ jobs, ¬ Owns job.directory job.file place := fun job hj hown =>
      ho ⟨job, hj, hown⟩
    rw [hrest place hn bytes, hrest' place (fun job hj => hn job (hp.mem_iff.mp hj)) bytes]

end Output

end DomainCodegen
