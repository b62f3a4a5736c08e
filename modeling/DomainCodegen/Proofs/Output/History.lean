import DomainCodegen.Proofs.Disk.Backup
import DomainCodegen.Proofs.Output.Settling

/-!
# The history of a file

A file that is written over and over again, with backups on, loses nothing: `writeEach_history`
carries the history of the file through any number of writes, each with options of its own, and
`backups_accumulate` reads off where every version is.
-/

namespace DomainCodegen.Output

open Disk

variable {disk after : Disk} {options : OutputOptions} {job : Job} {p : Path}
  {calls : List (OutputOptions × Job)} {older : List (List UInt8)} {current original : List UInt8}

section Rewriting

variable [Surrogates]

/-- Does jobs one after the other, each with options of its own. A job answers with its result, or
it raises a fault. -/
def writeEach : List (OutputOptions × Job) → Disk → List
    (Except JobFault Result) × Disk
  | [], disk => ([], disk)
  | (options, job) :: r, disk =>
    let (answer, after) := job.write options disk
    let (answers, last) := writeEach r after
    (answer :: answers, last)

/-- The text of a job is encoded to bytes. -/
def Encodes (call : OutputOptions × Job) (bytes : List UInt8) : Prop :=
  ∃ content, call.2.content = .ok content ∧ (saveMode call.1).encode content = .ok bytes

/-- A job that writes over its file with backups on. -/
structure Rewrites (p : Path) (call : OutputOptions × Job) : Prop where
  overwrite : call.1.overwrite = true
  backup : call.1.backup = true
  path : call.2.path = p

/-- The status that a job answers with, if it answers. -/
def answered (answer : Except JobFault Result) : Option Status := answer.toOption.map Result.status

/-- The backup that an answer reports. -/
def reported (answer : Except JobFault Result) : Option Path := answer.toOption.bind Result.backup

theorem writeEach_cons (options : OutputOptions) (job : Job)
    (calls : List (OutputOptions × Job))
    (disk : Disk) : writeEach ((options, job) :: calls) disk =
      ((job.write options disk).1 :: (writeEach calls (job.write options disk).2).1,
        (writeEach calls (job.write options disk).2).2) := rfl

/-- A write that answers that it updated the file makes its history longer. -/
theorem write_history (h : History p older current disk)
    (hj : Rewrites p (options, job))
    (hu : answered (job.write options disk).1 = some .updated) :
    ∃ bytes, Encodes (options, job) bytes ∧
      reported (job.write options disk).1 = some (backupPath p older.length) ∧
      History p (older ++ [current]) bytes (job.write options disk).2 := by
  obtain ⟨ho, hb, rfl⟩ := hj
  rcases hw : job.write options disk with ⟨fault | result, after⟩ <;> rw [hw] at hu
  · cases hu
  have hstatus : result.status = .updated := Option.some.inj hu
  obtain ⟨content, hc, hp⟩ := put_of_write hw (by rw [hstatus]; exact nofun)
  rw [put_of_taken (holds_of_fileAt h.file), if_pos ho] at hp
  obtain ⟨backup, later, hbackup, hsave, hout⟩ := replace_eq_ok hp
  obtain ⟨copy, hcopy, rfl⟩ : ∃ copy, disk.backUp job.path = (.ok copy, later) ∧
      some copy = backup := by
    unfold backUpIf at hbackup
    rw [if_pos hb] at hbackup
    rcases he : disk.backUp job.path with ⟨fault | copy, backed⟩ <;> rw [he] at hbackup <;>
      cases hbackup
    exact ⟨copy, rfl, rfl⟩
  obtain ⟨bytes, hencode, rfl, hhistory⟩ := h.step hcopy hsave
  exact ⟨bytes, ⟨content, hc, hencode⟩, congrArg Prod.snd hout, hhistory⟩

/-- After any number of writes that updated the file, its older versions are in its backups. -/
theorem writeEach_history (h : History p older current disk)
    (hcalls : ∀ call ∈ calls, Rewrites p call)
    (hup : ∀ answer ∈ (writeEach calls disk).1, answered answer = some .updated) :
    ∃ texts older' current', List.Forall₂ Encodes calls texts ∧
      older ++ current :: texts = older' ++ [current'] ∧
      History p older' current' (writeEach calls disk).2 ∧
      (writeEach calls disk).1.map reported =
        (List.range' older.length calls.length).map fun i => some (backupPath p i) := by
  induction calls generalizing disk older current with
  | nil => exact ⟨[], older, current, .nil, rfl, h, rfl⟩
  | cons call r ih =>
    obtain ⟨options, job⟩ := call
    rw [writeEach_cons] at hup ⊢
    obtain ⟨bytes, hencodes, hreport, hnext⟩ :=
      write_history h (hcalls _ List.mem_cons_self) (hup _ List.mem_cons_self)
    obtain ⟨texts, older', current', htexts, hlist, hlast, hreports⟩ :=
      ih hnext (fun call hm => hcalls call (List.mem_cons_of_mem _ hm))
        fun answer hm => hup answer (List.mem_cons_of_mem _ hm)
    refine ⟨bytes :: texts, older', current', .cons hencodes htexts, ?_, hlast, ?_⟩
    · rw [← hlist, List.append_assoc]
      rfl
    · rw [List.length_append, List.length_singleton] at hreports
      rw [List.map_cons, hreport, hreports]
      rfl

/-- Backups accumulate a complete history. The backup of a file is a copy of it at the first of the
names `name.bak`, `name.bak.1`, … at which nothing was, and there is such a name. So when a file
without backups is written over any number of times, each time with the answer that it was updated,
it holds the last of the texts, and its backups hold in order the original bytes and all the other
texts. -/
theorem backups_accumulate (hf : disk.fileAt p = .ok original) :
    (∃ k, (∀ j < k, disk.holds (backupPath p j) = .ok true) ∧
      disk.holds (backupPath p k) ≠ .ok true ∧
      ((∃ fault, disk.backUp p = (.error fault, disk)) ∨
      ∃ after place, disk.backUp p = (.ok (backupPath p k), after) ∧
        disk.holds (backupPath p k) = .ok false ∧
        after.fileAt (backupPath p k) = .ok original ∧
        disk.locate (backupPath p k) = .ok place ∧
        ∀ other, other ≠ place → after.get? other = disk.get? other)) ∧
    ∀ calls : List (OutputOptions × Job), (∀ k, disk.holds (backupPath p k) ≠ .ok true) →
      (∀ call ∈ calls, Rewrites p call) →
      (∀ answer ∈ (writeEach calls disk).1, answered answer = some .updated) →
      ∃ texts, List.Forall₂ Encodes calls texts ∧
        (writeEach calls disk).2.fileAt p = .ok ((original :: texts).getLast (by simp)) ∧
        (∀ i bytes, i < calls.length → (original :: texts)[i]? = some bytes →
          (writeEach calls disk).2.fileAt (backupPath p i) = .ok bytes) ∧
        (writeEach calls disk).1.map reported =
          (List.range calls.length).map fun i => some (backupPath p i) := by
  constructor
  · obtain ⟨k, htaken, hfree, hcases⟩ := backUp_first disk p
    refine ⟨k, htaken, hfree, hcases.imp_right ?_⟩
    rintro ⟨place, bytes, -, hbytes, hfalse, hl, hnone, hb⟩
    obtain rfl : original = bytes := by
      rw [hf] at hbytes
      exact Except.ok.inj hbytes
    have hd : disk.get? place ≠ some .directory := by
      rw [hnone]
      exact nofun
    have hset : ∀ other, (disk.set place (.file original)).get? other =
        if other = place then some (.file original) else disk.get? other :=
      fun other => get?_set (ne_nil_of_not_directory hd)
    refine ⟨_, place, hb, hfalse, fileAt_eq_ok_iff.mpr ⟨place, ?_, ?_⟩, hl, fun other ho => ?_⟩
    · exact (lasts_set_file hd).locate hl
    · rw [hset, if_pos rfl]
    · rw [hset, if_neg ho]
  · intro calls hfree hcalls hup
    have hstart : History p [] original disk := ⟨hf, nofun, fun k _ => hfree k⟩
    obtain ⟨texts, older, current, htexts, hlist, hlast, hreports⟩ :=
      writeEach_history hstart hcalls hup
    rw [List.nil_append] at hlist
    refine ⟨texts, htexts, ?_, fun i bytes hi hb => ?_, ?_⟩
    · rw [hlast.file]
      simp only [hlist, List.getLast_concat]
    · have hlen : older.length = calls.length := by
        have := congrArg List.length hlist
        rw [htexts.length_eq]
        simpa using this.symm
      rw [← hlen] at hi
      rw [hlist, List.getElem?_append_left hi, List.getElem?_eq_getElem hi] at hb
      rw [hlast.backup i hi, Option.some.inj hb]
    · rw [hreports, List.length_nil, List.range_eq_range']

end Rewriting

/-- A disk with one file. -/
def oneFile : Disk := { entries := [(["A"], .file [65])] }

/-- A job for that file. -/
def rewriting (content : String) : Job :=
  { path := { start := .slash, names := ["A"] }, className := some "A", content := .ok content }

/-- The file is written over twice, the second time without a temporary file. -/
def rewritings : List (OutputOptions × Job) :=
  [({ overwrite := true, backup := true }, rewriting "B"),
    ({ overwrite := true, backup := true, atomic := false }, rewriting "C")]

open scoped Surrogates in
theorem backups_accumulate_rewritings :
    (writeEach rewritings oneFile).2.fileAt { start := .slash, names := ["A"] } = .ok [67] ∧
      (writeEach rewritings oneFile).2.fileAt { start := .slash, names := ["A.bak"] } = .ok [65] ∧
      (writeEach rewritings oneFile).2.fileAt { start := .slash, names := ["A.bak.1"] } =
        .ok [66] := by
  have hfree : ∀ k,
      oneFile.holds (backupPath { start := .slash, names := ["A"] } k) ≠ .ok true := by
    intro k hk
    obtain ⟨place, hl, hs⟩ := exists_place_of_holds hk
    obtain ⟨dir, hd, hplace⟩ : ∃ dir, oneFile.walk [] [] = .ok dir ∧
        place = if backupName "A" k = ".." then dir.dropLast else dir ++ [backupName "A" k] :=
      locate_withName hl
    cases hd
    rw [if_neg (backupName_ne_up "A" k), List.nil_append] at hplace
    rw [hplace] at hs
    have hm : [backupName "A" k] ∈ [["A"]] := mem_entries_of_isSome (by simp) hs
    exact backupName_ne_self "A" k (by simpa using hm)
  have hrewrites : ∀ call ∈ rewritings, Rewrites { start := .slash, names := ["A"] } call := by
    intro call hc
    rcases List.mem_cons.mp hc with rfl | hc
    · exact ⟨rfl, rfl, rfl⟩
    · cases List.mem_singleton.mp hc
      exact ⟨rfl, rfl, rfl⟩
  have hfile : oneFile.fileAt { start := .slash, names := ["A"] } = .ok [65] := by decide
  obtain ⟨texts, htexts, hlast, hbackups, -⟩ :=
    (backups_accumulate hfile).2 rewritings hfree hrewrites (by decide)
  obtain rfl : texts = [[66], [67]] := by
    cases htexts with
    | cons hb hr =>
    cases hr with
    | cons hc hr =>
    cases hr
    obtain ⟨content, hcontent, hb⟩ := hb
    obtain ⟨content', hcontent', hc⟩ := hc
    cases hcontent
    cases hcontent'
    cases hb
    cases hc
    rfl
  exact ⟨hlast, hbackups 0 [65] (by decide) rfl, hbackups 1 [66] (by decide) rfl⟩

end DomainCodegen.Output
