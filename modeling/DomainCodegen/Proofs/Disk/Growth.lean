import DomainCodegen.Disk.Directory
import DomainCodegen.Proofs.Disk.Place

/-!
# Growing disks

A disk gains directories when nothing changes except that they appear where nothing was, and it
grows towards a place when they are all on the way to it. `makeDirectories_made` says what making
directories comes to: the disk grows, and the directory is there in the end exactly if its path fits
and no file is in the way.
-/

namespace DomainCodegen.Disk

variable {disk after later : Disk} {p : Path} {place top dir : Location} {name : String}
  {bytes : List UInt8} {entry : Entry} {way way' : Location → Prop}

/-- Two disks with the same entries. -/
structure Same (disk after : Disk) : Prop where
  home : after.home = disk.home
  entry : ∀ place, after.get? place = disk.get? place

/-- Directories appear on a way, and nothing else changes. -/
structure Gains (way : Location → Prop) (disk after : Disk) : Prop where
  home : after.home = disk.home
  entry : ∀ place, after.get? place = disk.get? place ∨
    (way place ∧ disk.get? place = none ∧ after.get? place = some .directory)

/-- Directories appear on the way to `top`, and nothing else changes. -/
structure Grows (top : Location) (disk after : Disk) : Prop where
  home : after.home = disk.home
  entry : ∀ place, after.get? place = disk.get? place ∨
    (place <+: top ∧ disk.get? place = none ∧ after.get? place = some .directory)

/-- No file is on the way to a place or at it. -/
def Open (disk : Disk) (place : Location) : Prop :=
  ∀ front, front <+: place → ∀ bytes, disk.get? front ≠ some (.file bytes)

theorem Same.refl (disk : Disk) : Same disk disk := ⟨rfl, fun _ => rfl⟩

theorem Same.trans (h : Same disk after) (h' : Same after later) : Same disk later :=
  ⟨h'.home.trans h.home, fun place => (h'.entry place).trans (h.entry place)⟩

theorem Same.symm (h : Same disk after) : Same after disk :=
  ⟨h.home.symm, fun place => (h.entry place).symm⟩

theorem Same.wellFormed (h : Same disk after) (wf : disk.WellFormed) : after.WellFormed := by
  intro place name hp
  rw [h.entry] at hp ⊢
  exact wf place name hp

theorem Same.gains (h : Same disk after) : Gains way disk after :=
  ⟨h.home, fun place => .inl (h.entry place)⟩

theorem Gains.trans (h : Gains way disk after) (h' : Gains way after later) :
    Gains way disk later := by
  refine ⟨h'.home.trans h.home, fun place => ?_⟩
  rcases h.entry place with he | ⟨hw, hn, hd⟩ <;> rcases h'.entry place with he' | ⟨hw', hn', hd'⟩
  · exact .inl (he'.trans he)
  · exact .inr ⟨hw', he ▸ hn', hd'⟩
  · exact .inr ⟨hw, hn, he'.trans hd⟩
  · rw [hd] at hn'; cases hn'

theorem Gains.mono (h : Gains way disk after) (hw : ∀ place, way place → way' place) :
    Gains way' disk after :=
  ⟨h.home, fun place => (h.entry place).imp_right fun ⟨hp, hrest⟩ => ⟨hw place hp, hrest⟩⟩

/-- The files are the same. -/
theorem Gains.file_iff (h : Gains way disk after) :
    after.get? place = some (.file bytes) ↔ disk.get? place = some (.file bytes) := by
  rcases h.entry place with he | ⟨-, hn, hd⟩
  · rw [he]
  · simp [hn, hd]

/-- Nothing is gained where all directories are there. -/
theorem Gains.same (h : Gains way disk after)
    (hw : ∀ place, way place → disk.get? place = some .directory) : Same disk after := by
  refine ⟨h.home, fun place => (h.entry place).resolve_right ?_⟩
  rintro ⟨hp, hn, -⟩
  rw [hw place hp] at hn
  cases hn

/-! ## Growing towards a place -/

theorem grows_iff_gains : Grows top disk after ↔ Gains (· <+: top) disk after :=
  ⟨fun h => ⟨h.home, h.entry⟩, fun h => ⟨h.home, h.entry⟩⟩

theorem Same.grows (h : Same disk after) : Grows top disk after := grows_iff_gains.mpr h.gains

theorem Grows.refl (top : Location) (disk : Disk) : Grows top disk disk := (Same.refl disk).grows

theorem Grows.trans (h : Grows top disk after) (h' : Grows top after later) :
    Grows top disk later :=
  grows_iff_gains.mpr ((grows_iff_gains.mp h).trans (grows_iff_gains.mp h'))

theorem Grows.get?_eq (h : Grows top disk after) (hp : ¬ place <+: top) :
    after.get? place = disk.get? place :=
  (h.entry place).resolve_right fun h => hp h.1

theorem Grows.file_iff (h : Grows top disk after) :
    after.get? place = some (.file bytes) ↔ disk.get? place = some (.file bytes) :=
  (grows_iff_gains.mp h).file_iff

theorem Grows.directory (h : Grows top disk after) (hd : disk.get? place = some .directory) :
    after.get? place = some .directory := by
  rcases h.entry place with he | ⟨-, hn, -⟩
  · rw [he, hd]
  · rw [hd] at hn; cases hn

theorem Grows.open_iff (h : Grows top disk after) : after.Open place ↔ disk.Open place := by
  unfold Open
  simp only [ne_eq, h.file_iff]

/-! ## Single entries -/

theorem ne_nil_of_not_directory (h : disk.get? place ≠ some .directory) : place ≠ [] := by
  rintro rfl
  exact h (get?_nil disk)

theorem append_singleton_ne_nil : dir ++ [name] ≠ [] := by simp

theorem append_singleton_not_prefix : ¬ dir ++ [name] <+: dir := by
  intro h
  have := h.length_le
  rw [List.length_append, List.length_singleton] at this
  omega

theorem get?_set_append :
    (disk.set (dir ++ [name]) entry).get? place =
      if place = dir ++ [name] then some entry else disk.get? place :=
  get?_set append_singleton_ne_nil

@[simp]
theorem get?_set_self :
    (disk.set (dir ++ [name]) entry).get? (dir ++ [name]) = some entry :=
  get?_set_append.trans (if_pos rfl)

/-- A file that was made and removed again leaves no trace. -/
theorem same_erase_set (h : disk.get? place = none) :
    Same disk ((disk.set place entry).erase place) := by
  have hne : place ≠ [] := ne_nil_of_not_directory (by rw [h]; exact nofun)
  refine ⟨rfl, fun other => ?_⟩
  rw [get?_erase hne, get?_set hne]
  by_cases hp : other = place
  · rw [if_pos hp, hp, h]
  · rw [if_neg hp, if_neg hp]

theorem same_set (hne : place ≠ []) (h : Same disk after) :
    Same (disk.set place entry) (after.set place entry) := by
  refine ⟨h.home, fun other => ?_⟩
  rw [get?_set hne, get?_set hne, h.entry]

theorem same_erase (hne : place ≠ []) (h : Same disk after) :
    Same (disk.erase place) (after.erase place) := by
  refine ⟨h.home, fun other => ?_⟩
  rw [get?_erase hne, get?_erase hne, h.entry]

theorem same_set_set {entry' : Entry} (hne : place ≠ []) :
    Same (disk.set place entry') ((disk.set place entry).set place entry') := by
  refine ⟨rfl, fun other => ?_⟩
  simp only [get?_set hne]
  split <;> rfl

theorem gains_set (hw : way place) (hn : disk.get? place = none) :
    Gains way disk (disk.set place .directory) := by
  have hne : place ≠ [] := ne_nil_of_not_directory (by rw [hn]; exact nofun)
  refine ⟨rfl, fun other => ?_⟩
  rw [get?_set hne]
  split
  · next he => exact .inr (he ▸ ⟨hw, hn, rfl⟩)
  · exact .inl rfl

theorem grows_set (hp : place <+: top) (hn : disk.get? place = none) :
    Grows top disk (disk.set place .directory) :=
  grows_iff_gains.mpr (gains_set hp hn)

/-- An entry may be put into a directory unless it is a file in the place of a directory. -/
theorem WellFormed.set (wf : disk.WellFormed)
    (hd : disk.get? dir = some .directory)
    (h : disk.get? (dir ++ [name]) ≠ some .directory ∨ entry = .directory) :
    (disk.set (dir ++ [name]) entry).WellFormed := by
  intro front last hp
  rw [get?_set_append] at hp ⊢
  by_cases hfl : front ++ [last] = dir ++ [name]
  · obtain ⟨rfl, -⟩ := List.append_inj' hfl rfl
    rw [if_neg (by simp), hd]
  · rw [if_neg hfl] at hp
    have hf := wf front last hp
    by_cases hfd : front = dir ++ [name]
    · rw [if_pos hfd]
      rcases h with h | rfl
      · exact absurd (hfd ▸ hf) h
      · rfl
    · rw [if_neg hfd, hf]

/-- No file is on the way to a directory. -/
theorem open_of_directory (wf : disk.WellFormed) (hd : disk.get? place = some .directory) :
    disk.Open place := by
  intro front hf bytes hb
  by_cases hfp : front = place
  · rw [hfp, hd] at hb; cases hb
  · rw [wf.directory_of_prefix hf hfp (by rw [hd]; rfl)] at hb
    cases hb

/-- A name in a directory at which nothing is can be reached. -/
theorem open_of_none (wf : disk.WellFormed) (hd : disk.get? dir = some .directory)
    (hn : disk.get? (dir ++ [name]) = none) : disk.Open (dir ++ [name]) := by
  intro front hf bytes hb
  rcases List.prefix_concat_iff.mp hf with rfl | hf
  · rw [hn] at hb
    cases hb
  · exact open_of_directory wf hd front hf bytes hb

/-! ## Making directories -/

/-- What an attempt to make directories down to `top` comes to, if it can succeed just when
`possible` holds. -/
structure Made (top : Location) (disk : Disk) (possible : Prop) (r : Except Fault Unit × Disk) :
    Prop where
  grows : Grows top disk r.2
  wellFormed : r.2.WellFormed
  ok_iff : r.1 = .ok () ↔ possible
  directory : r.1 = .ok () → r.2.get? top = some .directory

theorem made_of_error {possible : Prop} {fault : Fault} (wf : disk.WellFormed)
    (hnot : ¬ possible) : Made top disk possible (.error fault, disk) where
  grows := Grows.refl top disk
  wellFormed := wf
  ok_iff := iff_of_false nofun hnot
  directory := nofun

theorem makeMissing_made {names : List String} {path : Path} (wf : disk.WellFormed)
    (hd : disk.get? place = some .directory) (hup : ".." ∉ names) :
    Made (place ++ names) disk
      ((∀ name ∈ names, name.utf8ByteSize ≤ nameLimit) ∧ disk.Open (place ++ names))
      (disk.makeMissing path place names) := by
  induction names generalizing disk path place with
  | nil =>
    rw [List.append_nil]
    exact ⟨Grows.refl _ _, wf, iff_of_true rfl ⟨by simp, open_of_directory wf hd⟩, fun _ => hd⟩
  | cons name r ih =>
    obtain ⟨hne, hup⟩ : ".." ≠ name ∧ ".." ∉ r := by simpa using hup
    have hass : place ++ name :: r = place ++ [name] ++ r := by simp
    unfold makeMissing
    simp only [if_neg (Ne.symm hne)]
    by_cases hl : nameLimit < name.utf8ByteSize
    · rw [if_pos hl]
      exact made_of_error wf fun h => absurd (h.1 name List.mem_cons_self) (by omega)
    have hle : name.utf8ByteSize ≤ nameLimit := by omega
    rw [if_neg hl, hass]
    simp only [List.forall_mem_cons, hle, true_and]
    split
    · next hn => exact ih wf hn hup
    · next bytes hn =>
      exact made_of_error wf fun h => h.2 _ (List.prefix_append _ _) bytes hn
    · next hn =>
      have hg : Grows (place ++ [name] ++ r) disk (disk.set (place ++ [name]) .directory) :=
        grows_set (List.prefix_append _ _) hn
      have hm : Made (place ++ [name] ++ r) (disk.set (place ++ [name]) .directory) _
          ((disk.set (place ++ [name]) .directory).makeMissing (path.extend [name])
            (place ++ [name]) r) :=
        ih (wf.set hd (.inr rfl)) get?_set_self hup
      exact ⟨hg.trans hm.grows, hm.wellFormed, by rw [hm.ok_iff, hg.open_iff], hm.directory⟩

variable [Surrogates]

theorem unlessDirectory_of_fits {fault : Fault} (wf : disk.WellFormed)
    (hs : disk.Straight p)
    (hf : p.Fits) :
    disk.unlessDirectory p fault =
      if disk.get? (disk.placeOf p) = some .directory then .ok () else .error fault := by
  unfold unlessDirectory isDirectory
  rw [look_of_fits wf hs hf]
  by_cases h : disk.get? (disk.placeOf p) = some .directory <;> simp [Except.map, h]

theorem unlessDirectory_of_not_fits {fault : Fault} (hs : disk.Straight p)
    (hf : ¬ p.Fits) :
    ∃ met, disk.unlessDirectory p fault = .error met := by
  unfold unlessDirectory isDirectory
  rcases look_of_not_fits hs hf with h | ⟨met, h⟩
  · exact ⟨fault, by rw [h]; rfl⟩
  · exact ⟨met, by rw [h]; rfl⟩

/-- A path leads nowhere because something is missing, or it does not fit, or a file is in the
way. -/
theorem locate_eq_error {fault : Fault} (hs : disk.Straight p)
    (h : disk.locate p = .error fault) :
    (fault = .refused .missing p ∧ p.hasUnfit = false ∧ p.text.utf8ByteSize ≤ pathLimit) ∨
    ((∀ q, fault ≠ .refused .missing q) ∧ ¬ (p.Fits ∧ disk.Open (disk.placeOf p))) := by
  unfold locate at h
  split at h
  · next hn =>
    cases h
    refine .inr ⟨fun q hq => ?_, fun hf => ?_⟩
    · subst hq
      rcases unfit?_cases hn with h | ⟨error, h⟩ <;> cases h
    · rw [unfit?_eq_none_iff.mpr hf.1.noUnfit] at hn
      cases hn
  split at h
  · next ht =>
    cases h
    exact .inr ⟨nofun, fun hf => absurd hf.1.text_le (by omega)⟩
  next hn ht =>
  cases hw : disk.walk (disk.startOf p) p.names with
  | ok reached => rw [hw] at h; cases h
  | error reason =>
    rw [hw] at h
    cases h
    rcases walk_eq_error hs.names_up_notMem hw with
      ⟨rfl, -⟩ | ⟨rfl, front, bytes, hf, hb⟩ | ⟨rfl, name, hm, hl⟩
    · exact .inl ⟨rfl, unfit?_eq_none_iff.mp hn, by omega⟩
    · refine .inr ⟨nofun, fun ho => ?_⟩
      exact ho.2 _ ((List.prefix_append_right_inj _).mpr hf) bytes hb
    · exact .inr ⟨nofun, fun hf => absurd (hf.1.name_le name hm) (by omega)⟩

theorem made_of_unlessDirectory {fault : Fault} (wf : disk.WellFormed)
    (hs : disk.Straight p)
    (h : p.Fits → disk.Open (disk.placeOf p) → disk.get? (disk.placeOf p) ≠ none) :
    Made (disk.placeOf p) disk (p.Fits ∧ disk.Open (disk.placeOf p))
      (disk.unlessDirectory p fault, disk) := by
  by_cases hf : p.Fits
  · rw [unlessDirectory_of_fits wf hs hf]
    by_cases hd : disk.get? (disk.placeOf p) = some .directory
    · rw [if_pos hd]
      exact ⟨Grows.refl _ _, wf, iff_of_true rfl ⟨hf, open_of_directory wf hd⟩, fun _ => hd⟩
    · rw [if_neg hd]
      refine made_of_error wf fun ⟨_, ho⟩ => ?_
      cases he : disk.get? (disk.placeOf p) with
      | none => exact h hf ho he
      | some entry =>
        cases entry with
        | file bytes => exact ho _ List.prefix_rfl bytes he
        | directory => exact hd he
  · obtain ⟨met, hm⟩ : ∃ met, disk.unlessDirectory p fault = .error met :=
      unlessDirectory_of_not_fits hs hf
    rw [hm]
    exact made_of_error wf fun h => hf h.1

/-- Making directories succeeds exactly if the path fits and no file is in the way. -/
theorem makeDirectories_made (wf : disk.WellFormed) (hs : disk.Straight p) :
    Made (disk.placeOf p) disk (p.Fits ∧ disk.Open (disk.placeOf p)) (disk.makeDirectories p) := by
  unfold makeDirectories makeDirectory
  cases hl : disk.locate p with
  | ok reached =>
    obtain ⟨rfl, hf, hway⟩ := locate_eq_ok hs hl
    cases hn : disk.get? (disk.placeOf p) with
    | some entry =>
      simp only [hn, Option.isSome_some, if_pos]
      exact made_of_unlessDirectory wf hs fun _ _ => by simp [hn]
    | none =>
      -- the last name is new in a directory that is there
      have hne : p.names ≠ [] := by
        intro h
        rw [placeOf, h, List.append_nil, hs.start] at hn
        cases hn
      have hd := hway p.names.dropLast (List.dropLast_prefix _) fun h => by
        have := congrArg List.length h
        rw [List.length_dropLast] at this
        have := List.length_pos_iff.mpr hne
        omega
      have hpl : disk.placeOf p =
          disk.startOf p ++ p.names.dropLast ++ [p.names.getLast hne] := by
        rw [List.append_assoc, List.dropLast_append_getLast, placeOf]
      rw [hpl] at hn ⊢
      simp only [hn, Option.isSome_none, Bool.false_eq_true, if_false]
      exact ⟨grows_set List.prefix_rfl hn, wf.set hd (.inr rfl),
        iff_of_true rfl ⟨hf, open_of_none wf hd hn⟩, fun _ => get?_set_self⟩
  | error fault =>
    rcases locate_eq_error hs hl with ⟨rfl, hnul, htext⟩ | ⟨hne, hnot⟩
    · have hm : Made (disk.placeOf p) disk _
          (disk.makeMissing { p with names := [] } (disk.startOf p) p.names) :=
        makeMissing_made wf hs.start hs.names_up_notMem
      refine ⟨hm.grows, hm.wellFormed, hm.ok_iff.trans ?_, hm.directory⟩
      exact ⟨fun h => ⟨⟨hnul, htext, h.1⟩, h.2⟩, fun h => ⟨h.1.name_le, h.2⟩⟩
    · split
      · next heq => cases heq
      · next heq => exact absurd (Except.error.inj heq) (hne _)
      · exact made_of_unlessDirectory wf hs fun hf ho => absurd ⟨hf, ho⟩ hnot

end DomainCodegen.Disk
