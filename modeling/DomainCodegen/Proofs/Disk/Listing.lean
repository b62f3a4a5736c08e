import DomainCodegen.Proofs.Disk.Backup
import DomainCodegen.Proofs.Disk.Faults
import DomainCodegen.Proofs.Layout
import DomainCodegen.Proofs.Lists
import DomainCodegen.Proofs.Text.Wildcard
import Mathlib.Data.List.Sort
import Mathlib.Data.String.Basic

/-!
# The files below a directory

A search for an extension that is no pattern lists the files at any depth whose names end in it,
each once, in the order of their names (`isListing_of_scan`). Only a path that is too long stops it
(`exists_scan`).
-/

namespace DomainCodegen

/-! ## The order of paths -/

namespace Path

variable {a b : List String} {p q r : Path}

theorem namesLe_iff : namesLe a b = true ↔ a = b ∨ List.Lex (· < ·) a b := by
  induction a generalizing b with
  | nil => cases b <;> simp [namesLe]
  | cons first r ih =>
    cases b with
    | nil => simp [namesLe]
    | cons other s =>
      rw [namesLe]
      by_cases h : first = other
      · rw [if_pos h, ih, h, List.lex_cons_iff, List.cons.injEq, and_iff_right rfl]
      · rw [if_neg h, List.cons_lex_cons_iff, decide_eq_true_iff]
        simp only [List.cons.injEq, h, false_and, false_or, or_false]

theorem namesLe_iff_le : namesLe a b = true ↔ a ≤ b :=
  namesLe_iff.trans le_iff_eq_or_lt.symm

theorem le_trans (h : p.le q = true) (h' : q.le r = true) : p.le r = true :=
  namesLe_iff_le.mpr ((namesLe_iff_le.mp h).trans (namesLe_iff_le.mp h'))

theorem le_total (p q : Path) : (p.le q || q.le p) = true :=
  (Bool.or_eq_true _ _).mpr
    ((LinearOrder.le_total _ _).imp namesLe_iff_le.mpr namesLe_iff_le.mpr)

/-- Of two paths with the same start the names decide. -/
theorem lex_of_le (h : p.le q = true) (hs : p.start = q.start) (hne : p ≠ q) :
    List.Lex (· < ·) p.names q.names := by
  unfold le at h
  rw [hs, namesLe_iff, List.lex_cons_iff] at h
  rcases h with h | h
  · refine absurd ?_ hne
    cases p
    cases q
    cases hs
    cases h
    rfl
  · exact h

example : (ofString "a/x").le (ofString "a-b/x") = true ∧ "a-b/x" < "a/x" := by decide

theorem name_extend_concat (p : Path) (dir : List String) (name : String) :
    (p.extend (dir ++ [name])).name = name := by
  unfold Path.name extend
  rw [← List.append_assoc, List.getLast?_concat, Option.getD_some]

/-- The limits of the system on lengths. -/
structure IsShort (p : Path) : Prop where
  text_le : p.text.utf8ByteSize ≤ Disk.pathLimit
  name_le : ∀ name ∈ p.names, name.utf8ByteSize ≤ Disk.nameLimit

theorem isShort_iff : p.IsShort ↔ p.text.utf8ByteSize ≤ Disk.pathLimit ∧
    ∀ name ∈ p.names, name.utf8ByteSize ≤ Disk.nameLimit :=
  ⟨fun h => ⟨h.text_le, h.name_le⟩, fun h => ⟨h.1, h.2⟩⟩

instance : Decidable p.IsShort := decidable_of_iff _ isShort_iff.symm

end Path

namespace Disk

variable {disk : Disk} {root p : Path} {place start : Location} {names : List String}
  {name : String} {entry : Entry}

/-! ## Files at paths -/

/-- A path leads to a file. -/
def HasFile [Surrogates] (disk : Disk) (p : Path) : Prop :=
  ∃ place bytes, disk.locate p = .ok place ∧ disk.get? place = some (.file bytes)

theorem isFile_iff [Surrogates] : disk.isFile p = .ok true ↔ disk.HasFile p := by
  unfold isFile look HasFile
  cases hl : disk.locate p with
  | error fault => by_cases ha : fault.isAbsence <;> simp [ha, Except.map]
  | ok place => rcases hg : disk.get? place with _ | bytes | _ <;> simp [hg, Except.map]

instance [Surrogates] : Decidable (disk.HasFile p) := decidable_of_iff _ isFile_iff

/-- A walk is stopped by what stands on its way or by a name that is too long. -/
theorem reason_of_walk {reason : Reason} (h : disk.walk start names = .error reason) :
    reason = .missing ∨ reason = .notDirectory ∨ ∃ name ∈ names, nameLimit < name.utf8ByteSize := by
  induction names generalizing start with
  | nil => cases h
  | cons name r ih =>
    have later {other : Location} (h : disk.walk other r = .error reason) :
        reason = .missing ∨ reason = .notDirectory ∨
          ∃ n ∈ name :: r, nameLimit < n.utf8ByteSize :=
      (ih h).imp_right (.imp_right fun ⟨n, hn, hl⟩ => ⟨n, List.mem_cons_of_mem name hn, hl⟩)
    rw [walk_cons] at h
    split at h
    · cases h
      exact .inl rfl
    · cases h
      exact .inr (.inl rfl)
    · split at h
      · exact later h
      split at h
      · next hl => exact .inr (.inr ⟨name, List.mem_cons_self, hl⟩)
      · exact later h

/-- A path that is short enough can be looked at, wherever it leads. -/
theorem exists_isFile [Surrogates] (disk : Disk) (h : p.IsShort) :
    ∃ there, disk.isFile p = .ok there := by
  have hlook : ∃ found, disk.look p = .ok found := by
    unfold look locate
    cases hu : unfit? p with
    | some fault => rcases unfit?_cases hu with rfl | ⟨error, rfl⟩ <;> exact ⟨none, rfl⟩
    | none =>
    dsimp only
    rw [if_neg (by have := h.text_le; omega)]
    cases hw : disk.walk (disk.startOf p) p.names with
    | ok place => exact ⟨disk.get? place, rfl⟩
    | error reason =>
      rcases reason_of_walk hw with rfl | rfl | ⟨name, hn, hl⟩
      · exact ⟨none, rfl⟩
      · exact ⟨none, rfl⟩
      · exact absurd (h.name_le name hn) (by omega)
  obtain ⟨found, hfound⟩ := hlook
  unfold isFile
  rw [hfound]
  exact ⟨_, rfl⟩

theorem isFile_eq_ok [Surrogates] {there : Bool} (h : disk.isFile p = .ok there) :
    there = decide (disk.HasFile p) := by
  rw [Bool.eq_iff_iff, decide_eq_true_iff, ← isFile_iff, h, Except.ok.injEq]

theorem isFile_of_isShort [Surrogates] (disk : Disk) (h : p.IsShort) :
    disk.isFile p = .ok (decide (disk.HasFile p)) := by
  obtain ⟨there, ht⟩ := exists_isFile disk h
  rw [ht, ← isFile_eq_ok ht]

theorem filesAmong_eq_ok [Surrogates] {paths files : List Path}
    (h : disk.filesAmong paths = .ok files) :
    files = paths.filter (fun p => disk.HasFile p) ∧
      ∀ p ∈ paths, ∃ there, disk.isFile p = .ok there := by
  induction paths generalizing files with
  | nil =>
    cases h
    exact ⟨rfl, nofun⟩
  | cons path r ih =>
    rw [filesAmong] at h
    cases hf : disk.isFile path with
    | error fault => rw [hf] at h; cases h
    | ok there =>
    cases hr : disk.filesAmong r with
    | error fault => rw [hf, hr] at h; cases there <;> cases h
    | ok rest =>
    obtain ⟨rfl, hall⟩ := ih hr
    refine ⟨?_, List.forall_mem_cons.mpr ⟨⟨there, hf⟩, hall⟩⟩
    have hthere := isFile_eq_ok hf
    rw [hf, hr] at h
    cases there <;> cases h <;> simp [of_decide_eq_true, hthere.symm]

theorem exists_filesAmong [Surrogates] {paths : List Path}
    (h : ∀ p ∈ paths, ∃ there, disk.isFile p = .ok there) :
    ∃ files, disk.filesAmong paths = .ok files := by
  induction paths with
  | nil => exact ⟨[], rfl⟩
  | cons path r ih =>
    obtain ⟨⟨there, hf⟩, hr⟩ := List.forall_mem_cons.mp h
    obtain ⟨rest, hrest⟩ := ih hr
    rw [filesAmong, hf, hrest]
    cases there with
    | true => exact ⟨path :: rest, rfl⟩
    | false => exact ⟨rest, rfl⟩

/-! ## What stands below a directory -/

/-- What a file system keeps: everything stands in a directory, and no name leads upwards or has a
character that has no place in a path. -/
structure Lawful [Surrogates] (disk : Disk) : Prop where
  wellFormed : disk.WellFormed
  names : ∀ e ∈ disk.entries, ∀ name ∈ e.1, name ≠ ".." ∧ name.toList.any Path.isUnfit = false

theorem Lawful.name_of_isSome [Surrogates] (h : disk.Lawful) (hs : (disk.get? place).isSome)
    (hn : name ∈ place) : name ≠ ".." ∧ name.toList.any Path.isUnfit = false := by
  obtain ⟨e, he, rfl⟩ := List.mem_map.mp (mem_entries_of_isSome (List.ne_nil_of_mem hn) hs)
  exact h.names e he name hn

theorem mem_entries_of_get? (hne : place ≠ []) (h : disk.get? place = some entry) :
    (place, entry) ∈ disk.entries := by
  unfold get? at h
  rw [if_neg hne] at h
  obtain ⟨before, after, he, -⟩ := List.lookup_eq_some_iff.mp h
  rw [he]
  exact List.mem_append_right _ List.mem_cons_self

theorem mem_below : (names, entry) ∈ disk.below place ↔
    names ≠ [] ∧ (place ++ names, entry) ∈ disk.entries := by
  unfold below
  rw [List.mem_filterMap]
  constructor
  · rintro ⟨⟨other, found⟩, he, hb⟩
    obtain ⟨rest, hrest, hb⟩ := Option.bind_eq_some_iff.mp hb
    split at hb
    · cases hb
    next hne =>
    cases hb
    rw [List.isPrefixOf?_eq_some_iff_append_eq] at hrest
    exact ⟨hne, by rwa [hrest]⟩
  · rintro ⟨hne, he⟩
    refine ⟨_, he, Option.bind_eq_some_iff.mpr ⟨names, ?_, if_neg hne⟩⟩
    exact List.isPrefixOf?_eq_some_iff_append_eq.mpr rfl

theorem mem_children :
    (name, entry) ∈ disk.children place ↔ (place ++ [name], entry) ∈ disk.entries := by
  unfold children
  rw [List.mem_mergeSort, List.mem_filterMap]
  constructor
  · rintro ⟨⟨names, found⟩, hb, hm⟩
    dsimp only at hm
    split at hm
    · cases hm
      exact (mem_below.mp hb).2
    · cases hm
  · exact fun he => ⟨([name], entry), mem_below.mpr ⟨List.cons_ne_nil _ _, he⟩, rfl⟩

theorem mem_directoriesBelow : names ∈ disk.directoriesBelow place ↔
    names ≠ [] ∧ (place ++ names, Entry.directory) ∈ disk.entries := by
  unfold directoriesBelow
  rw [List.mem_mergeSort, List.mem_filterMap, ← mem_below]
  constructor
  · rintro ⟨⟨found, entry⟩, hb, hm⟩
    dsimp only at hm
    split at hm
    next he =>
      cases hm
      rwa [he] at hb
    · cases hm
  · exact fun hb => ⟨_, hb, if_pos rfl⟩

/-- A file below a directory stands in the directory itself or in one that is listed below it. -/
theorem exists_directory_of_file {bytes : List UInt8} (wf : disk.WellFormed)
    (hd : disk.get? place = some .directory)
    (hb : disk.get? (place ++ names) = some (.file bytes)) :
    ∃ dir name, names = dir ++ [name] ∧
      (dir = [] ∨ (place ++ dir, Entry.directory) ∈ disk.entries) ∧
      (place ++ names, Entry.file bytes) ∈ disk.entries := by
  have hne : names ≠ [] := by
    rintro rfl
    rw [List.append_nil, hd] at hb
    cases hb
  obtain ⟨dir, name, rfl⟩ := (List.eq_nil_or_concat' names).resolve_left hne
  refine ⟨dir, name, rfl, ?_, mem_entries_of_get? (by simp) hb⟩
  by_cases hdir : dir = []
  · exact .inl hdir
  · have hsome : (disk.get? (place ++ dir ++ [name])).isSome := by
      rw [List.append_assoc, hb]
      rfl
    exact .inr (mem_entries_of_get? (by simp [hdir]) (wf _ _ hsome))

/-- A path to something below a directory leads there, unless it is too long. -/
theorem locate_below [Surrogates] (h : disk.Lawful) (hl : disk.locate root = .ok place)
    (hs : (disk.get? (place ++ names)).isSome) :
    disk.locate (root.extend names) = .ok (place ++ names) ∨
      disk.locate (root.extend names) = .error (.refused .nameTooLong (root.extend names)) := by
  have hfit : unfit? (root.extend names) = none := by
    rw [unfit?_eq_none_iff, Path.hasUnfit, Path.hasAny_eq_false_iff]
    intro name hm
    rcases List.mem_append.mp hm with hm | hm
    · exact Path.hasAny_eq_false_iff.mp (hasUnfit_of_locate hl) name hm
    · exact (h.name_of_isSome hs (List.mem_append_right place hm)).2
  have hup : ".." ∉ names := fun hm =>
    (h.name_of_isSome hs (List.mem_append_right place hm)).1 rfl
  -- behind the root there are directories all the way, so only a long name can stop the walk
  have hwalk : disk.walk (disk.startOf (root.extend names)) (root.extend names).names =
      if ∀ name ∈ names, name.utf8ByteSize ≤ nameLimit then .ok (place ++ names)
      else .error .nameTooLong := by
    show disk.walk (disk.startOf root) (root.names ++ names) = _
    rw [walk_append, walk_of_locate hl]
    exact walk_of_directories hup fun front => h.wellFormed.directories_of_prefix hs
  unfold locate
  rw [hfit, hwalk]
  dsimp only
  split
  · exact .inr rfl
  split
  · exact .inl rfl
  · exact .inr rfl

/-! ## Following a pattern -/

section Selecting

variable {spot : Spot} {part : PatternPart} {parts : List PatternPart} {endsInSlash : Bool}
  {spots : List Spot} {paths : List Path}

theorem select_cons_eq_ok [Surrogates]
    (h : disk.select endsInSlash (part :: parts) spot = .ok paths) :
    ∃ spots, disk.follow (endsInSlash || !parts.isEmpty) spot part = .ok spots ∧
      (∀ next ∈ spots, ∃ found, disk.select endsInSlash parts next = .ok found) ∧
      ∀ p, p ∈ paths ↔ ∃ next ∈ spots, ∃ found,
        disk.select endsInSlash parts next = .ok found ∧ p ∈ found := by
  rw [select] at h
  split at h
  · cases h
  next spots hf =>
  cases hm : spots.mapM (disk.select endsInSlash parts) with
  | error fault => rw [hm] at h; cases h
  | ok founds =>
    rw [hm] at h
    cases h
    exact ⟨spots, hf, exists_mapM_iff.mp ⟨founds, hm⟩, fun p => mem_flatten_of_mapM hm⟩

theorem exists_select_cons [Surrogates]
    (hf : disk.follow (endsInSlash || !parts.isEmpty) spot part = .ok spots)
    (h : ∀ next ∈ spots, ∃ found, disk.select endsInSlash parts next = .ok found) :
    ∃ paths, disk.select endsInSlash (part :: parts) spot = .ok paths := by
  obtain ⟨founds, hm⟩ := exists_mapM_iff.mpr h
  rw [select, hf]
  dsimp only
  rw [hm]
  exact ⟨founds.flatten, rfl⟩

theorem finding_eq_ok {found : List Spot} :
    spot.finding found = .ok spots ↔
      spot.path.text.utf8ByteSize ≤ pathLimit ∧ found = spots := by
  unfold Spot.finding
  split
  · next hl => simp [Nat.not_le.mpr hl]
  · next hl => simp [Nat.not_lt.mp hl]

variable {pattern : List Text.Wildcard}

/-- A pattern for names finds what it covers in a directory. -/
theorem mem_select_names [Surrogates] (h : disk.select false [.names pattern] spot = .ok paths) :
    p ∈ paths ↔ ∃ name entry, (spot.place ++ [name], entry) ∈ disk.entries ∧
      Text.Wildcard.covers pattern name.toList = true ∧ p = spot.path.extend [name] := by
  obtain ⟨spots, hf, -, hp⟩ := select_cons_eq_ok h
  obtain ⟨-, rfl⟩ := finding_eq_ok.mp hf
  rw [hp]
  constructor
  · rintro ⟨next, hnext, found, hfound, hm⟩
    obtain ⟨⟨name, entry⟩, hc, he⟩ := List.mem_filterMap.mp hnext
    dsimp only at he
    split at he
    next hcovers =>
      cases he
      cases hfound
      exact ⟨name, entry, mem_children.mp hc, by simpa using hcovers, List.mem_singleton.mp hm⟩
    · cases he
  · rintro ⟨name, entry, he, hcovers, rfl⟩
    refine ⟨spot.step name, List.mem_filterMap.mpr ⟨(name, entry), mem_children.mpr he, ?_⟩,
      [(spot.step name).path], rfl, List.mem_singleton_self _⟩
    simp [hcovers]

theorem exists_select_names [Surrogates] (pattern : List Text.Wildcard)
    (h : spot.path.text.utf8ByteSize ≤ pathLimit) :
    ∃ paths, disk.select false [.names pattern] spot = .ok paths :=
  exists_select_cons (finding_eq_ok.mpr ⟨h, rfl⟩) fun next _ => ⟨[next.path], rfl⟩

theorem descend_nil (spot : Spot) : spot.descend [] = spot := by
  simp [Spot.descend, Path.extend]

/-- Any number of directories lead to a directory itself and to all that are below it. -/
theorem mem_spots {next : Spot} :
    next ∈ spot :: (disk.directoriesBelow spot.place).map spot.descend ↔
      ∃ dir, (dir = [] ∨ (spot.place ++ dir, Entry.directory) ∈ disk.entries) ∧
        next = spot.descend dir := by
  rw [List.mem_cons, List.mem_map]
  constructor
  · rintro (rfl | ⟨dir, hdir, rfl⟩)
    · exact ⟨[], .inl rfl, (descend_nil _).symm⟩
    · exact ⟨dir, .inr (mem_directoriesBelow.mp hdir).2, rfl⟩
  · rintro ⟨dir, hdir, rfl⟩
    by_cases hne : dir = []
    · exact .inl (hne ▸ descend_nil spot)
    · exact .inr ⟨dir, mem_directoriesBelow.mpr ⟨hne, hdir.resolve_left hne⟩, rfl⟩

theorem mem_select_below [Surrogates]
    (h : disk.select false [.anyDepth, .names pattern] spot = .ok paths) :
    p ∈ paths ↔ ∃ dir name entry,
      (dir = [] ∨ (spot.place ++ dir, Entry.directory) ∈ disk.entries) ∧
      (spot.place ++ (dir ++ [name]), entry) ∈ disk.entries ∧
      Text.Wildcard.covers pattern name.toList = true ∧
      p = spot.path.extend (dir ++ [name]) := by
  obtain ⟨spots, hf, hall, hp⟩ := select_cons_eq_ok h
  obtain ⟨-, rfl⟩ := finding_eq_ok.mp hf
  have hplace (dir : List String) (name : String) :
      (spot.descend dir).place ++ [name] = spot.place ++ (dir ++ [name]) := List.append_assoc ..
  have hpath (dir : List String) (name : String) :
      (spot.descend dir).path.extend [name] = spot.path.extend (dir ++ [name]) := by
    simp [Spot.descend, Path.extend]
  rw [hp]
  constructor
  · rintro ⟨next, hnext, found, hfound, hm⟩
    obtain ⟨dir, hdir, rfl⟩ := mem_spots.mp hnext
    obtain ⟨name, entry, he, hc, rfl⟩ := (mem_select_names hfound).mp hm
    exact ⟨dir, name, entry, hdir, hplace dir name ▸ he, hc, hpath dir name⟩
  · rintro ⟨dir, name, entry, hdir, he, hc, rfl⟩
    have hnext := mem_spots.mpr ⟨dir, hdir, rfl⟩
    -- the search in this directory succeeded too, or there would be no paths at all
    obtain ⟨found, hfound⟩ := hall _ hnext
    refine ⟨spot.descend dir, hnext, found, hfound, (mem_select_names hfound).mpr ?_⟩
    exact ⟨name, entry, hplace dir name ▸ he, hc, (hpath dir name).symm⟩

theorem exists_select_below [Surrogates] (spot : Spot) (pattern : List Text.Wildcard)
    (h : ∀ dir, (disk.get? (spot.place ++ dir)).isSome →
      (spot.path.extend dir).text.utf8ByteSize ≤ pathLimit)
    (hd : (disk.get? spot.place).isSome) :
    ∃ paths, disk.select false [.anyDepth, .names pattern] spot = .ok paths := by
  have hspot : (spot.descend []).path.text.utf8ByteSize ≤ pathLimit :=
    h [] (by rwa [List.append_nil])
  rw [descend_nil] at hspot
  refine exists_select_cons (finding_eq_ok.mpr ⟨hspot, rfl⟩) fun next hnext => ?_
  obtain ⟨dir, hdir, rfl⟩ := mem_spots.mp hnext
  refine exists_select_names pattern (h dir ?_)
  rcases hdir with rfl | hdir
  · rwa [List.append_nil]
  · exact isSome_get?_of_mem hdir

end Selecting

/-! ## Listings -/

/-- The files below a directory whose names end in an extension, each once. Paths are compared name
by name. -/
structure IsListing (disk : Disk) (root : Path) (place : Location) (extension : String)
    (found : List Path) : Prop where
  increasing : found.Pairwise fun p q => List.Lex (· < ·) p.names q.names
  mem_iff : ∀ p, p ∈ found ↔ ∃ names bytes, p = root.extend names ∧
    disk.get? (place ++ names) = some (.file bytes) ∧ extension.toList <:+ p.name.toList

section Scanning

variable {extension : String} {found : List Path} {pattern : Pattern}

theorem hasDoubleStar_of_notMem {cs : List Char} (h : '*' ∉ cs) : hasDoubleStar cs = false := by
  fun_induction hasDoubleStar cs with
  | case1 r => exact absurd List.mem_cons_self h
  | case2 c r _ ih => exact ih (List.not_mem_of_not_mem_cons h)
  | case3 => rfl

/-- A star in front of an extension makes it a pattern for names. -/
theorem ofChars?_star {ending : List Char} (h : '*' ∉ ending) :
    PatternPart.ofChars? ('*' :: ending) = some (.names (Text.Wildcard.items ('*' :: ending))) := by
  have hdouble : hasDoubleStar ('*' :: ending) = false := by
    rw [hasDoubleStar]
    · exact hasDoubleStar_of_notMem h
    · rintro r - rfl
      exact h List.mem_cons_self
  unfold PatternPart.ofChars?
  rw [if_neg, hdouble, if_neg (by simp), if_pos (by simp [isWild])]
  rintro ⟨rfl⟩
  exact h List.mem_cons_self

/-- An extension that is no pattern of its own is looked for in all directories. -/
theorem ofExtension?_of_plain (hsep : '/' ∉ extension.toList)
    (hwild : ∀ c ∈ extension.toList, isWild c = false) :
    Pattern.ofExtension? extension =
      some { parts := [.anyDepth, .names (Text.Wildcard.items ('*' :: extension.toList))] } := by
  have hchars : ("*" ++ extension).toList = '*' :: extension.toList := by simp
  have hstar : '*' ∉ extension.toList := fun hm => absurd (hwild _ hm) (by decide)
  have hnames : (Path.ofString ("*" ++ extension)).names = ["*" ++ extension] := by
    rw [Path.ofString_of_notMem]
    · simpa [hchars] using hsep
    · exact fun h => by simpa [hchars] using congrArg String.toList h
    · exact fun h => by simpa [hchars] using congrArg String.toList h
  have hlast : extension.toList.getLast? ≠ some '/' := fun h => hsep (List.mem_of_getLast? h)
  unfold Pattern.ofExtension?
  rw [hnames]
  simp [hchars, ofChars?_star hstar, hlast]

/-- A path below a directory that can be looked at leads to a file exactly if one stands there. -/
theorem hasFile_below [Surrogates] (h : disk.Lawful) (hl : disk.locate root = .ok place)
    (hs : (disk.get? (place ++ names)).isSome)
    (hf : ∃ there, disk.isFile (root.extend names) = .ok there) :
    disk.HasFile (root.extend names) ↔
      ∃ bytes, disk.get? (place ++ names) = some (.file bytes) := by
  rcases locate_below h hl hs with hok | herr
  · unfold HasFile
    rw [hok]
    simp
  · obtain ⟨there, hf⟩ := hf
    unfold isFile look at hf
    rw [herr] at hf
    cases hf

theorem find_eq_ok [Surrogates] (hl : disk.locate root = .ok place)
    (hd : disk.get? place = some .directory) :
    disk.find pattern root = .ok found ↔ ∃ paths files,
      disk.select pattern.endsInSlash pattern.parts { path := root, place } = .ok paths ∧
      disk.filesAmong paths.eraseDups = .ok files ∧ found = files.mergeSort Path.le := by
  have hroot : disk.isDirectory root = .ok true := by
    unfold isDirectory look
    rw [hl]
    simp [hd, Except.map]
  unfold find
  rw [hroot, hl]
  dsimp only
  cases hs : disk.select pattern.endsInSlash pattern.parts { path := root, place } with
  | error fault => simp
  | ok paths =>
  cases hf : disk.filesAmong paths.eraseDups with
  | error fault => simp [hf, Except.map]
  | ok files => simp [hf, Except.map, eq_comm]

/-- What a search gives is in order, and nothing twice. -/
theorem increasing_mergeSort {files : List Path} (first : Path.Start) (hn : files.Nodup)
    (hs : ∀ p ∈ files, p.start = first) :
    (files.mergeSort Path.le).Pairwise fun p q => List.Lex (· < ·) p.names q.names := by
  have hsorted : (files.mergeSort Path.le).Pairwise fun p q => p.le q = true :=
    @List.pairwise_mergeSort Path Path.le (fun _ _ _ => Path.le_trans) Path.le_total files
  have hnodup : (files.mergeSort Path.le).Nodup := (List.mergeSort_perm _ _).nodup_iff.mpr hn
  refine (hsorted.and hnodup).imp_of_mem fun {p q} hp hq hpq => ?_
  rw [List.mem_mergeSort] at hp hq
  exact Path.lex_of_le hpq.1 ((hs p hp).trans (hs q hq).symm) hpq.2

variable [Surrogates] (h : disk.Lawful) (hl : disk.locate root = .ok place)
  (hd : disk.get? place = some .directory) (hsep : '/' ∉ extension.toList)
  (hwild : ∀ c ∈ extension.toList, isWild c = false)

include hsep hwild in
theorem scan_ne_doubleStar : disk.scan root extension ≠ .error .doubleStar := by
  unfold scan
  rw [ofExtension?_of_plain hsep hwild]
  dsimp only
  cases disk.find _ root <;> exact nofun

include h hl hd hsep hwild in
/-- What a search gives are exactly the files with the extension. -/
theorem isListing_of_scan (hs : disk.scan root extension = .ok found) :
    disk.IsListing root place extension found := by
  unfold scan at hs
  rw [ofExtension?_of_plain hsep hwild] at hs
  dsimp only at hs
  generalize hpattern : Text.Wildcard.items ('*' :: extension.toList) = pattern at hs
  have hcovers (name : String) : Text.Wildcard.covers pattern name.toList = true ↔
      extension.toList <:+ name.toList := hpattern ▸ Text.Wildcard.covers_star_iff hwild
  cases hf : disk.find { parts := [.anyDepth, .names pattern] } root with
  | error fault => rw [hf] at hs; cases hs
  | ok listed =>
  rw [hf] at hs
  cases hs
  obtain ⟨paths, files, hpaths, hfiles, rfl⟩ := (find_eq_ok hl hd).mp hf
  obtain ⟨rfl, hthere⟩ := filesAmong_eq_ok hfiles
  refine ⟨increasing_mergeSort root.start ((nodup_eraseDups paths).filter _) ?_, fun p => ?_⟩
  · intro p hp
    obtain ⟨dir, name, entry, -, -, -, rfl⟩ :=
      (mem_select_below hpaths).mp (List.mem_eraseDups.mp (List.mem_of_mem_filter hp))
    rfl
  rw [List.mem_mergeSort, List.mem_filter, decide_eq_true_iff, List.mem_eraseDups]
  constructor
  · rintro ⟨hp, hfile⟩
    obtain ⟨dir, name, entry, -, he, hc, rfl⟩ := (mem_select_below hpaths).mp hp
    obtain ⟨bytes, hb⟩ := (hasFile_below h hl (isSome_get?_of_mem he)
      (hthere _ (List.mem_eraseDups.mpr hp))).mp hfile
    refine ⟨dir ++ [name], bytes, rfl, hb, ?_⟩
    rw [Path.name_extend_concat]
    exact (hcovers name).mp hc
  · rintro ⟨names, bytes, rfl, hb, hends⟩
    obtain ⟨dir, name, rfl, hdir, he⟩ := exists_directory_of_file h.wellFormed hd hb
    rw [Path.name_extend_concat] at hends
    have hp : root.extend (dir ++ [name]) ∈ paths :=
      (mem_select_below hpaths).mpr ⟨dir, name, _, hdir, he, (hcovers name).mpr hends, rfl⟩
    -- the search has looked at this path, so it is not too long
    exact ⟨hp, (hasFile_below h hl (isSome_get?_of_mem he)
      (hthere _ (List.mem_eraseDups.mpr hp))).mpr ⟨bytes, hb⟩⟩

include hl hd hsep hwild in
/-- A search below a directory ends where no path is too long. -/
theorem exists_scan
    (hshort : ∀ names, (disk.get? (place ++ names)).isSome → (root.extend names).IsShort) :
    ∃ found, disk.scan root extension = .ok found := by
  obtain ⟨paths, hpaths⟩ :=
    exists_select_below { path := root, place } (Text.Wildcard.items ('*' :: extension.toList))
      (fun dir hdir => (hshort dir hdir).text_le) (by rw [hd]; rfl)
  obtain ⟨files, hfiles⟩ : ∃ files, disk.filesAmong paths.eraseDups = .ok files := by
    refine exists_filesAmong fun p hp => ?_
    obtain ⟨dir, name, entry, -, he, -, rfl⟩ :=
      (mem_select_below hpaths).mp (List.mem_eraseDups.mp hp)
    exact exists_isFile disk (hshort _ (isSome_get?_of_mem he))
  unfold scan
  rw [ofExtension?_of_plain hsep hwild]
  dsimp only
  rw [(find_eq_ok hl hd).mpr ⟨paths, files, hpaths, hfiles, rfl⟩]
  exact ⟨_, rfl⟩

end Scanning

end Disk

end DomainCodegen
