import DomainCodegen.Disk.Save
import DomainCodegen.Proofs.Disk.Place
import Mathlib.Data.List.Nodup

/-!
# Free names

Temporary files and backups stand beside a file, at the first of numbered names at which nothing
is. `firstFree_firstAt` says that the search always ends at the first such name: different numbers
give different names, and there are more numbers than entries.
-/

namespace DomainCodegen.Disk

variable {disk after : Disk} {p : Path} {dir : Location} {name : String}

/-! ## Names beside a file -/

def backupName (name : String) (index : Nat) : String :=
  name ++ ".bak" ++ if index = 0 then "" else "." ++ toString index

def temporaryName (name : String) (index : Nat) : String :=
  "." ++ name ++ "." ++ padded index ++ ".tmp"

theorem backupPath_eq (p : Path) (index : Nat) :
    backupPath p index = p.withName (backupName p.name index) := rfl

theorem temporaryPath_eq (home p : Path) (index : Nat) :
    temporaryPath home p index =
      (Path.normal home p.parent).join { names := [temporaryName p.name index] } := rfl

theorem ofDigitChars_toString (n : Nat) : Nat.ofDigitChars 10 (toString n).toList 0 = n := by
  rw [Nat.toString_eq_repr, Nat.toList_repr, Nat.ofDigitChars_ten_toDigits]

theorem backupName_injective (name : String) : Function.Injective (backupName name) := by
  intro i j h
  have h : (if i = 0 then "" else "." ++ toString i) = if j = 0 then "" else "." ++ toString j :=
    (String.append_right_inj _).mp h
  by_cases hi : i = 0 <;> by_cases hj : j = 0
  · rw [hi, hj]
  · simp [hi, hj] at h
  · simp [hi, hj] at h
  · rw [if_neg hi, if_neg hj, String.append_right_inj] at h
    rw [← ofDigitChars_toString i, h, ofDigitChars_toString]

theorem ofDigitChars_padded (n : Nat) : Nat.ofDigitChars 10 (padded n).toList 0 = n := by
  unfold padded
  rw [String.toList_append, Nat.ofDigitChars_append, String.toList_ofList,
    Nat.ofDigitChars_replicate_zero, Nat.mul_zero, ofDigitChars_toString]

theorem temporaryName_injective (name : String) : Function.Injective (temporaryName name) := by
  intro i j h
  have h : padded i = padded j :=
    (String.append_right_inj _).mp ((String.append_left_inj _).mp h)
  rw [← ofDigitChars_padded i, h, ofDigitChars_padded]

theorem backupName_ne {name other : String} {index : Nat} (h : 'b' ∉ other.toList) :
    backupName name index ≠ other := by
  rintro rfl
  exact h (by simp [backupName])

theorem temporaryName_ne {name other : String} {index : Nat} (h : 't' ∉ other.toList) :
    temporaryName name index ≠ other := by
  rintro rfl
  exact h (by simp [temporaryName])

/-- No name is as long as one that holds it between others. -/
theorem append_append_ne (front : String) {name rest : String} (hr : rest ≠ "") :
    front ++ name ++ rest ≠ name := by
  intro h
  have hl := congrArg String.length h
  rw [String.length_append, String.length_append] at hl
  exact hr (String.length_eq_zero_iff.mp (by omega))

theorem temporaryName_ne_self (name : String) (index : Nat) : temporaryName name index ≠ name := by
  have h : ("." ++ name) ++ ("." ++ padded index ++ ".tmp") ≠ name :=
    append_append_ne "." (by simp [← String.toList_inj])
  simpa only [temporaryName, String.append_assoc] using h

theorem backupName_ne_self (name : String) (index : Nat) : backupName name index ≠ name := by
  have h : ("" ++ name) ++ (".bak" ++ if index = 0 then "" else "." ++ toString index) ≠ name :=
    append_append_ne "" (by simp [← String.toList_inj])
  simpa only [backupName, String.append_assoc, String.empty_append] using h

/-! ## Paths beside a file -/

/-- A path to a name in a directory. -/
structure Beside (disk : Disk) (dir : Location) (name : String) (p : Path) : Prop where
  straight : disk.Straight p
  nonempty : name ≠ ""
  names : ∃ front, p.names = front ++ [name] ∧ disk.startOf p ++ front = dir

theorem Beside.place (h : disk.Beside dir name p) : disk.placeOf p = dir ++ [name] := by
  obtain ⟨front, hn, rfl⟩ := h.names
  rw [placeOf, hn, List.append_assoc]

theorem Beside.name_eq (h : disk.Beside dir name p) : p.name = name := by
  obtain ⟨front, hn, -⟩ := h.names
  simp [Path.name, hn]

theorem Beside.up_notMem (h : disk.Beside dir name p) : ".." ∉ dir := fun hm =>
  h.straight.up_notMem (by rw [h.place]; exact List.mem_append_left _ hm)

theorem Beside.parent_straight (h : disk.Beside dir name p) : disk.Straight p.parent where
  up_notMem hm := by
    obtain ⟨front, hn, rfl⟩ := h.names
    refine h.up_notMem ?_
    have : disk.placeOf p.parent = disk.startOf p ++ front := by
      simp [placeOf, Path.parent, startOf, Path.isAbsolute, hn]
    rwa [this] at hm
  start := h.straight.start

theorem Beside.parent_place (h : disk.Beside dir name p) : disk.placeOf p.parent = dir := by
  obtain ⟨front, hn, rfl⟩ := h.names
  simp [placeOf, Path.parent, startOf, Path.isAbsolute, hn]

theorem Beside.withName (h : disk.Beside dir name p) {other : String} (he : other ≠ "")
    (ho : other ≠ "..") : disk.Beside dir other (p.withName other) := by
  obtain ⟨front, hn, hd⟩ := h.names
  have hnames : (p.withName other).names = front ++ [other] := by simp [Path.withName, hn]
  have hstart : disk.startOf (p.withName other) = disk.startOf p := rfl
  refine ⟨⟨?_, hstart ▸ h.straight.start⟩, he, front, hnames, hd⟩
  rw [placeOf, hnames, hstart, ← List.append_assoc, hd]
  simpa using ⟨h.up_notMem, Ne.symm ho⟩

theorem normalFrom_of_straight (back names : List String) (h : ".." ∉ names) :
    Path.normalFrom back names = back.reverse ++ names := by
  induction names generalizing back with
  | nil => simp [Path.normalFrom]
  | cons name r ih =>
    obtain ⟨hne, hr⟩ : ".." ≠ name ∧ ".." ∉ r := by simpa using h
    unfold Path.normalFrom
    rw [if_neg (Ne.symm hne), ih _ hr]
    simp

theorem normalNames_of_straight {names : List String} (h : ".." ∉ names) :
    Path.normalNames names = names := by
  unfold Path.normalNames
  rw [normalFrom_of_straight [] names h, List.reverse_nil, List.nil_append]

theorem Beside.temporary (h : disk.Beside dir name p) (index : Nat) :
    disk.Beside dir (temporaryName name index) (temporaryPath disk.homePath p index) := by
  obtain ⟨front, hn, hd⟩ := h.names
  have hparent : p.parent.names = front := by simp [Path.parent, hn]
  have hnormal : (Path.normal disk.homePath p.parent).names = dir ∧
      (Path.normal disk.homePath p.parent).isAbsolute = true := by
    by_cases ha : p.isAbsolute = true
    · have hjoin : disk.homePath.join p.parent = p.parent := if_pos ha
      rw [startOf_of_isAbsolute ha, List.nil_append] at hd
      unfold Path.normal
      rw [hjoin]
      refine ⟨?_, ha⟩
      show Path.normalNames p.parent.names = dir
      rw [hparent, hd, normalNames_of_straight h.up_notMem]
    · have hjoin : disk.homePath.join p.parent = disk.homePath.extend p.parent.names := if_neg ha
      rw [startOf, if_neg ha] at hd
      unfold Path.normal
      rw [hjoin]
      refine ⟨?_, rfl⟩
      show Path.normalNames (disk.home ++ p.parent.names) = dir
      rw [hparent, hd, normalNames_of_straight h.up_notMem]
  have hnames : (temporaryPath disk.homePath p index).names =
      dir ++ [temporaryName name index] := by
    rw [temporaryPath_eq, h.name_eq, ← hnormal.1]
    rfl
  have habs : (temporaryPath disk.homePath p index).isAbsolute = true := hnormal.2
  refine ⟨straight_of_isAbsolute habs ?_, temporaryName_ne (by simp), dir, hnames,
    by rw [startOf_of_isAbsolute habs]; rfl⟩
  rw [hnames]
  simp only [List.mem_append, List.mem_singleton, not_or]
  exact ⟨h.up_notMem, (temporaryName_ne (by simp)).symm⟩

theorem Beside.backup (h : disk.Beside dir name p) (index : Nat) :
    disk.Beside dir (backupName name index) (backupPath p index) := by
  rw [backupPath_eq, h.name_eq]
  exact h.withName (backupName_ne (by simp)) (backupName_ne (by simp))

variable [Surrogates]

theorem Beside.locate (wf : disk.WellFormed) (hd : disk.get? dir = some .directory)
    (h : disk.Beside dir name p) :
    disk.locate p = (accept p).map fun _ => dir ++ [name] := by
  rw [← h.place]
  refine locate_of_directories h.straight fun front hf hne => ?_
  obtain ⟨middle, hn, rfl⟩ := h.names
  rw [hn] at hf hne
  have hfm : front <+: middle := (List.prefix_concat_iff.mp hf).resolve_left hne
  by_cases hfe : front = middle
  · rw [hfe, hd]
  · exact wf.directories_of_prefix (by rw [hd]; rfl) hfm hfe

/-- What a path in a directory that is there leads to. -/
theorem Beside.look (wf : disk.WellFormed) (hd : disk.get? dir = some .directory)
    (h : disk.Beside dir name p) :
    disk.look p = match accept p with
      | .ok () => .ok (disk.get? (dir ++ [name]))
      | .error fault => if fault.isAbsence then .ok none else .error fault := by
  unfold Disk.look
  rw [h.locate wf hd]
  cases accept p <;> rfl

/-! ## The first free name -/

/-- The search for a free name ends at a number: all smaller ones are taken, and it is free or
cannot be looked at. -/
def FirstAt (disk : Disk) (candidate : Nat → Path) (k : Nat) (r : Except Fault Nat) :
    Prop :=
  (∀ j < k, disk.holds (candidate j) = .ok true) ∧
  ((disk.holds (candidate k) = .ok false ∧ r = .ok k) ∨
    ∃ fault, disk.holds (candidate k) = .error fault ∧ r = .error fault)

variable {candidate : Nat → Path} {k l : Nat} {r s : Except Fault Nat}

theorem FirstAt.unique (h : disk.FirstAt candidate k r)
    (h' : disk.FirstAt candidate l s) :
    r = s := by
  obtain ⟨hk, hr⟩ := h
  obtain ⟨hl, hs⟩ := h'
  rcases Nat.lt_trichotomy k l with hlt | rfl | hlt
  · rw [hl k hlt] at hr
    simp at hr
  · rcases hr with ⟨hr, rfl⟩ | ⟨fault, hr, rfl⟩ <;> rw [hr] at hs <;>
      simpa [eq_comm] using hs
  · rw [hk l hlt] at hs
    simp at hs

theorem FirstAt.congr (h : disk.FirstAt candidate k r)
    (hc : ∀ i, after.holds (candidate i) = disk.holds (candidate i)) :
    after.FirstAt candidate k r := by
  unfold FirstAt at h ⊢
  simpa only [hc] using h

theorem firstFreeFrom_cases (disk : Disk) (candidate : Nat → Path) (index fuel : Nat) :
    (∀ j < fuel, disk.holds (candidate (index + j)) = .ok true) ∨
    ∃ k, (∀ j < k, disk.holds (candidate (index + j)) = .ok true) ∧
      ((disk.holds (candidate (index + k)) = .ok false ∧
        disk.firstFreeFrom candidate index fuel = .ok (index + k)) ∨
      ∃ fault, disk.holds (candidate (index + k)) = .error fault ∧
        disk.firstFreeFrom candidate index fuel = .error fault) := by
  induction fuel generalizing index with
  | zero => exact .inl fun j hj => absurd hj (Nat.not_lt_zero j)
  | succ fuel ih =>
    unfold firstFreeFrom
    cases hh : disk.holds (candidate index) with
    | error fault => exact .inr ⟨0, nofun, .inr ⟨fault, hh, rfl⟩⟩
    | ok taken =>
      cases taken with
      | false => exact .inr ⟨0, nofun, .inl ⟨hh, rfl⟩⟩
      | true =>
        rcases ih (index + 1) with hall | ⟨k, hlt, hk⟩
        · refine .inl fun j hj => ?_
          cases j with
          | zero => exact hh
          | succ j => simpa only [Nat.add_right_comm, Nat.add_assoc] using hall j (by omega)
        · refine .inr ⟨k + 1, fun j hj => ?_, ?_⟩
          · cases j with
            | zero => exact hh
            | succ j => simpa only [Nat.add_right_comm, Nat.add_assoc] using hlt j (by omega)
          · simpa only [Nat.add_right_comm, Nat.add_assoc] using hk

/-- Something at a path stands where the path leads. -/
theorem exists_place_of_holds (hh : disk.holds p = .ok true) :
    ∃ place, disk.locate p = .ok place ∧ (disk.get? place).isSome := by
  unfold holds Disk.look at hh
  cases hl : disk.locate p with
  | error fault =>
    rw [hl] at hh
    by_cases ha : fault.isAbsence <;> simp [ha, Except.map] at hh
  | ok place =>
    rw [hl] at hh
    exact ⟨place, rfl, by simpa [Except.map] using hh⟩

omit [Surrogates] in
theorem mem_entries_of_isSome {place : Location} (hne : place ≠ [])
    (h : (disk.get? place).isSome) : place ∈ disk.entries.map Prod.fst := by
  unfold get? at h
  rw [if_neg hne, List.lookup_isSome_iff] at h
  obtain ⟨e, he, hk⟩ := h
  rw [eq_of_beq hk]
  exact List.mem_map_of_mem he

/-- A name that is taken has an entry. -/
theorem Beside.mem_of_holds (h : disk.Beside dir name p)
    (hh : disk.holds p = .ok true) :
    dir ++ [name] ∈ disk.entries.map Prod.fst := by
  obtain ⟨place, hl, hs⟩ := exists_place_of_holds hh
  obtain ⟨rfl, -, -⟩ := locate_eq_ok h.straight hl
  rw [h.place] at hs
  exact mem_entries_of_isSome (by simp) hs

/-- Among paths to different names of one directory the search for a free one ends at the first of
them. -/
theorem firstFree_firstAt_of_mem {names : Nat → String}
    (hinj : Function.Injective names)
    (hmem : ∀ i, disk.holds (candidate i) = .ok true →
      dir ++ [names i] ∈ disk.entries.map Prod.fst) :
    ∃ k, disk.FirstAt candidate k (disk.firstFree candidate) := by
  have hcases := firstFreeFrom_cases disk candidate 0 (disk.entries.length + 1)
  simp only [Nat.zero_add] at hcases
  refine hcases.resolve_left fun hall => ?_
  -- one entry more than there are
  have hnodup : ((List.range (disk.entries.length + 1)).map fun i => dir ++ [names i]).Nodup := by
    refine List.Nodup.map (fun i j hij => hinj ?_) List.nodup_range
    simpa using hij
  have hsub : ((List.range (disk.entries.length + 1)).map fun i => dir ++ [names i]) ⊆
      disk.entries.map Prod.fst := by
    intro place hp
    obtain ⟨i, hi, rfl⟩ := List.mem_map.mp hp
    exact hmem i (hall i (List.mem_range.mp hi))
  have hle := hnodup.length_le_of_subset hsub
  rw [List.length_map, List.length_map, List.length_range] at hle
  omega

theorem firstFree_firstAt {names : Nat → String} (hinj : Function.Injective names)
    (hb : ∀ i, disk.Beside dir (names i) (candidate i)) :
    ∃ k, disk.FirstAt candidate k (disk.firstFree candidate) :=
  firstFree_firstAt_of_mem hinj fun i => (hb i).mem_of_holds

/-- The search depends on nothing but what holds at the candidates. -/
theorem firstFree_congr {names : Nat → String} (hinj : Function.Injective names)
    (hb : ∀ i, disk.Beside dir (names i) (candidate i))
    (hb' : ∀ i, after.Beside dir (names i) (candidate i))
    (hc : ∀ i, after.holds (candidate i) = disk.holds (candidate i)) :
    after.firstFree candidate = disk.firstFree candidate := by
  obtain ⟨k, hk⟩ := firstFree_firstAt hinj hb
  obtain ⟨l, hl⟩ := firstFree_firstAt hinj hb'
  exact hl.unique (hk.congr hc)

/-- A temporary name that is found is one of the first, and nothing is there. -/
theorem freeTemporary_cases (h : disk.Beside dir name p) :
    (∃ fault, disk.freeTemporary p = .error fault) ∨
    ∃ k < temporaryLimit, disk.holds (temporaryPath disk.homePath p k) = .ok false ∧
      disk.freeTemporary p = .ok (temporaryPath disk.homePath p k) := by
  unfold freeTemporary
  obtain ⟨k, -, ⟨hfree, hfirst⟩ | ⟨fault, -, hfirst⟩⟩ :=
    firstFree_firstAt (temporaryName_injective name) h.temporary <;> rw [hfirst]
  · by_cases hk : k < temporaryLimit
    · exact .inr ⟨k, hk, hfree, if_pos hk⟩
    · exact .inl ⟨_, if_neg hk⟩
  · exact .inl ⟨_, rfl⟩

end DomainCodegen.Disk
