import DomainCodegen.Proofs.Disk.Saving

/-!
# Directories that can be made

A path reaches the places on its way that no file and no name that is too long cuts off. Making its
directories makes exactly those, whether or not the last one is among them
(`makeDirectories_directory_iff`). What lasts on a disk never opens a way, so that making the same
directories again, at any later time, makes none (`makeDirectories_same`).
-/

namespace DomainCodegen.Disk

variable [Surrogates]

variable {disk after : Disk} {p path : Path} {place start dir q : Location} {names : List String}

/-! ## Reaching -/

/-- Names lead from a directory to a place, no name on the way is too long, and no file is in the
way. -/
def ReachesFrom (disk : Disk) (start : Location) (names : List String) (q : Location) : Prop :=
  ∃ front, front <+: names ∧ q = start ++ front ∧
    (∀ name ∈ front, name.utf8ByteSize ≤ nameLimit) ∧ disk.Open q

/-- A path that the system takes leads to a place or past it, and directories can be made there. -/
structure Reaches (disk : Disk) (p : Path) (q : Location) : Prop where
  noUnfit : p.hasUnfit = false
  text_le : p.text.utf8ByteSize ≤ pathLimit
  way : disk.ReachesFrom (disk.startOf p) p.names q

theorem Lasts.reaches (h : Lasts disk after) (hr : after.Reaches p q) : disk.Reaches p q where
  noUnfit := hr.noUnfit
  text_le := hr.text_le
  way := by
    obtain ⟨front, hf, hq, hl, ho⟩ := hr.way
    exact ⟨front, hf, by rw [hq, h.startOf_eq], hl, h.of_open ho⟩

omit [Surrogates] in
theorem reachesFrom_cons {name : String} (hle : name.utf8ByteSize ≤ nameLimit) :
    disk.ReachesFrom start (name :: names) q ↔
      (q = start ∧ disk.Open q) ∨ disk.ReachesFrom (start ++ [name]) names q := by
  constructor
  · rintro ⟨front, hf, rfl, hl, ho⟩
    cases front with
    | nil =>
      rw [List.append_nil] at ho ⊢
      exact .inl ⟨rfl, ho⟩
    | cons first front =>
      obtain ⟨rfl, hfr⟩ := List.cons_prefix_cons.mp hf
      exact .inr ⟨front, hfr, by simp, fun n hn => hl n (List.mem_cons_of_mem _ hn), ho⟩
  · rintro (⟨rfl, ho⟩ | ⟨front, hf, rfl, hl, ho⟩)
    · exact ⟨[], List.nil_prefix, (List.append_nil _).symm, nofun, ho⟩
    · exact ⟨name :: front, List.cons_prefix_cons.mpr ⟨rfl, hf⟩, by simp,
        List.forall_mem_cons.mpr ⟨hle, hl⟩, ho⟩

omit [Surrogates] in
/-- Before a name that is too long there is only the start. -/
theorem ReachesFrom.eq_start {name : String} (hl : nameLimit < name.utf8ByteSize)
    (h : disk.ReachesFrom start (name :: names) q) : q = start := by
  obtain ⟨front, hf, rfl, hle, -⟩ := h
  cases front with
  | nil => exact List.append_nil start
  | cons first front =>
    obtain ⟨rfl, -⟩ := List.cons_prefix_cons.mp hf
    have := hle first List.mem_cons_self
    omega

omit [Surrogates] in
/-- A file cuts off what is behind it. -/
theorem not_reachesFrom_of_file {bytes : List UInt8} (hf : disk.get? start = some (.file bytes)) :
    ¬ disk.ReachesFrom start names q := by
  rintro ⟨front, -, rfl, -, ho⟩
  exact ho start (List.prefix_append start front) bytes hf

omit [Surrogates] in
/-- A directory that is made opens and closes no way. -/
theorem reachesFrom_set {name : String} (hn : disk.get? (dir ++ [name]) = none) :
    (disk.set (dir ++ [name]) .directory).ReachesFrom start names q ↔
      disk.ReachesFrom start names q := by
  have hg : Grows (dir ++ [name]) disk (disk.set (dir ++ [name]) .directory) :=
    grows_set List.prefix_rfl hn
  unfold ReachesFrom
  simp only [hg.open_iff]

omit [Surrogates] in
/-- A walk that finds something else than a missing name found directories all the way. -/
theorem directory_of_walk {reason : Reason} (hup : ".." ∉ names)
    (hw : disk.walk start names = .error reason) (hne : reason ≠ .missing)
    (h : disk.ReachesFrom start names q) : disk.get? q = some .directory := by
  induction names generalizing start with
  | nil => cases hw
  | cons name r ih =>
    obtain ⟨hname, hup⟩ : ".." ≠ name ∧ ".." ∉ r := by simpa using hup
    rw [walk_cons] at hw
    split at hw
    · cases hw
      exact absurd rfl hne
    · next hf => exact absurd h (not_reachesFrom_of_file hf)
    · next hd =>
      rw [if_neg (Ne.symm hname)] at hw
      split at hw
      · next hl => rw [h.eq_start hl, hd]
      · next hl =>
        rcases (reachesFrom_cons (by omega)).mp h with ⟨rfl, -⟩ | h
        · exact hd
        · exact ih hup hw h

/-! ## Making directories -/

omit [Surrogates] in
theorem get?_makeMissing_iff (wf : disk.WellFormed) (hd : disk.get? place = some .directory)
    (hup : ".." ∉ names) :
    (disk.makeMissing path place names).2.get? q = some .directory ↔
      disk.get? q = some .directory ∨ disk.ReachesFrom place names q := by
  induction names generalizing disk path place with
  | nil =>
    refine ⟨.inl, fun h => h.elim id ?_⟩
    rintro ⟨front, hf, rfl, -, -⟩
    rw [List.prefix_nil.mp hf, List.append_nil]
    exact hd
  | cons name r ih =>
    obtain ⟨hne, hup⟩ : ".." ≠ name ∧ ".." ∉ r := by simpa using hup
    have hstart : q = place ∧ disk.Open q → disk.get? q = some .directory := by
      rintro ⟨rfl, -⟩
      exact hd
    unfold makeMissing
    simp only [if_neg (Ne.symm hne)]
    by_cases hl : nameLimit < name.utf8ByteSize
    · rw [if_pos hl]
      refine ⟨.inl, fun h => h.elim id fun h => ?_⟩
      rw [h.eq_start hl]
      exact hd
    rw [if_neg hl, reachesFrom_cons (by omega)]
    split
    · next hn =>
      rw [ih wf hn hup]
      exact ⟨fun h => h.imp_right .inr, fun h => h.elim .inl fun h => h.elim (.inl ∘ hstart) .inr⟩
    · next bytes hn =>
      exact ⟨.inl, fun h => h.elim id fun h => h.elim hstart fun h =>
        absurd h (not_reachesFrom_of_file hn)⟩
    · next hn =>
      rw [ih (wf.set hd (.inr rfl)) get?_set_self hup, reachesFrom_set hn, get?_set_append]
      by_cases hq : q = place ++ [name]
      · -- the directory that is made now is reached as well
        have ho : disk.Open (place ++ [name]) := open_of_none wf hd hn
        subst hq
        exact iff_of_true (.inl (if_pos rfl))
          (.inr (.inr ⟨[], List.nil_prefix, (List.append_nil _).symm, nofun, ho⟩))
      · rw [if_neg hq]
        exact ⟨fun h => h.imp_right .inr,
          fun h => h.elim .inl fun h => h.elim (.inl ∘ hstart) .inr⟩

/-- Where something else than a missing name stops a path, all that it reaches is there. -/
theorem directory_of_locate {fault : Fault} (hs : disk.Straight p)
    (hl : disk.locate p = .error fault) (hne : ∀ path, fault ≠ .refused .missing path)
    (h : disk.Reaches p q) : disk.get? q = some .directory := by
  have htext := h.text_le
  unfold locate at hl
  simp only [unfit?_eq_none_iff.mpr h.noUnfit] at hl
  rw [if_neg (by omega)] at hl
  cases hw : disk.walk (disk.startOf p) p.names with
  | ok reached => rw [hw] at hl; cases hl
  | error reason =>
    rw [hw] at hl
    cases hl
    exact directory_of_walk hs.names_up_notMem hw (fun hm => hne p (by rw [hm])) h.way

/-- Making directories makes exactly those that the path reaches, whether or not it fails. -/
theorem makeDirectories_directory_iff (wf : disk.WellFormed) (hs : disk.Straight p) :
    (disk.makeDirectories p).2.get? q = some .directory ↔
      disk.get? q = some .directory ∨ disk.Reaches p q := by
  have hmade := makeDirectories_made wf hs
  unfold makeDirectories makeDirectory at hmade ⊢
  cases hl : disk.locate p with
  | ok reached =>
    obtain ⟨rfl, hf, hway⟩ := locate_eq_ok hs hl
    have hbefore : q ≠ disk.placeOf p → disk.Reaches p q → disk.get? q = some .directory := by
      rintro hne ⟨-, -, front, hfp, rfl, -, -⟩
      exact hway front hfp fun he => hne (by rw [he]; rfl)
    cases hn : disk.get? (disk.placeOf p) with
    | some entry =>
      simp only [hn, Option.isSome_some, if_true]
      refine ⟨.inl, fun h => h.elim id fun h => ?_⟩
      by_cases hq : q = disk.placeOf p
      · obtain ⟨_, -, -, -, ho⟩ := h.way
        cases entry with
        | directory => rw [hq, hn]
        | file bytes => exact absurd (hq ▸ hn) (ho q List.prefix_rfl bytes)
      · exact hbefore hq h
    | none =>
      have hne : disk.placeOf p ≠ [] := ne_nil_of_not_directory (by rw [hn]; exact nofun)
      simp only [hl, hn, Option.isSome_none, Bool.false_eq_true, if_false] at hmade ⊢
      rw [get?_set hne]
      by_cases hq : q = disk.placeOf p
      · have ho : disk.Open (disk.placeOf p) := (hmade.ok_iff.mp rfl).2
        exact iff_of_true (if_pos hq) (.inr ⟨hf.noUnfit, hf.text_le, p.names, List.prefix_rfl, hq,
          hf.name_le, hq ▸ ho⟩)
      · rw [if_neg hq]
        exact ⟨.inl, fun h => h.elim id (hbefore hq)⟩
  | error fault =>
    rcases locate_eq_error hs hl with ⟨rfl, hnul, htext⟩ | ⟨hne, -⟩
    · refine (get?_makeMissing_iff wf hs.start hs.names_up_notMem).trans (or_congr_right ?_)
      exact ⟨fun h => ⟨hnul, htext, h⟩, Reaches.way⟩
    · have hstay : disk.Reaches p q → disk.get? q = some .directory :=
        directory_of_locate hs hl hne
      split
      · next heq => cases heq
      · next heq => exact absurd (Except.error.inj heq) (hne _)
      · exact ⟨.inl, fun h => h.elim id hstay⟩

/-- Where all directories that a path reaches are there, making them changes nothing. -/
theorem makeDirectories_same (wf : disk.WellFormed) (hs : disk.Straight p)
    (h : ∀ q, disk.Reaches p q → disk.get? q = some .directory) :
    Same disk (disk.makeDirectories p).2 := by
  refine ⟨(makeDirectories_made wf hs).grows.home, fun place => ?_⟩
  rcases (makeDirectories_made wf hs).grows.entry place with he | ⟨-, hn, hd⟩
  · exact he
  · rcases (makeDirectories_directory_iff wf hs).mp hd with hd' | hr
    · rw [hn] at hd'
      cases hd'
    · rw [h place hr] at hn
      cases hn

/-- All that a path reaches inside a directory is there. -/
theorem Room.directory_of_reaches (hr : disk.Room dir) (hp : disk.placeOf p = dir)
    (h : disk.Reaches p q) : disk.get? q = some .directory := by
  obtain ⟨front, hf, rfl, -, -⟩ := h.way
  by_cases he : front = p.names
  · rw [he, ← hr.directory, ← hp]
    rfl
  · exact hr.wellFormed.directories_of_prefix (by
      show (disk.get? (disk.placeOf p)).isSome
      rw [hp, hr.directory]
      rfl) hf he

end DomainCodegen.Disk
