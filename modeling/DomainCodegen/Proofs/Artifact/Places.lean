import DomainCodegen.Proofs.Artifact.Naming
import DomainCodegen.Proofs.Output.Isolation

/-!
# Places of artifacts

The files of artifacts with different paths never meet: neither do their temporary files and
backups, nor does one of these stand where another artifact needs a directory (`apart_of_path_ne`).
Artifacts with different qualified names may have one path, which `path_eq_iff` tells, but not below
a package that has the anchor (`separate_of_named`).
-/

namespace DomainCodegen

open Disk Output

variable {config : Config} {root : Path} {package s s' ending kin kin' : String}
  {segments segments' : List String} {base : Location} {artifacts : List Artifact} {disk : Disk}
  {doc : Json} {tree : Schema.Tree} {output : Path} {a b : Artifact}

/-! ## Stems of neighbouring names -/

/-- What stands before the first dot, or between the first and the second one. -/
def stemOf (name : String) : List Char :=
  (name.toList.dropWhile (· == '.')).takeWhile (· != '.')

theorem stemOf_of_toList {pre rest : List Char} (hs : IsStem s) (hpre : pre = [] ∨ pre = ['.'])
    (h : kin.toList = pre ++ s.toList ++ '.' :: rest) : stemOf kin = s.toList := by
  obtain ⟨c, r, hc⟩ := List.exists_cons_of_ne_nil (show s.toList ≠ [] by simpa using hs.ne_empty)
  have hdot : c ≠ '.' := by
    rintro rfl
    exact hs.dot_notMem (by rw [hc]; exact List.mem_cons_self)
  have hdrop : (pre ++ s.toList ++ '.' :: rest).dropWhile (· == '.') = s.toList ++ '.' :: rest := by
    rcases hpre with rfl | rfl <;> simp [hc, hdot]
  have htake : ∀ d ∈ s.toList, (d != '.') = true := by
    intro d hd
    have : d ≠ '.' := by
      rintro rfl
      exact hs.dot_notMem hd
    simpa using this
  unfold stemOf
  rw [h, hdrop, List.takeWhile_append_of_pos htake]
  simp

/-- All names that a job for a file looks at have the stem of the file, and a dot. -/
theorem toList_of_kin (he : ending.toList.head? = some '.') (hk : Kin (s ++ ending) kin) :
    ∃ pre rest, (pre = [] ∨ pre = ['.']) ∧ kin.toList = pre ++ s.toList ++ '.' :: rest := by
  obtain ⟨r, hr⟩ : ∃ r, ending.toList = '.' :: r := by
    cases hl : ending.toList with
    | nil => rw [hl] at he; cases he
    | cons c r =>
      rw [hl] at he
      obtain rfl : c = '.' := by simpa using he
      exact ⟨r, rfl⟩
  rcases hk with rfl | ⟨k, rfl⟩ | ⟨k, rfl⟩
  · exact ⟨[], r, .inl rfl, by simp [hr]⟩
  · exact ⟨['.'], r ++ ("." ++ padded k ++ ".tmp").toList, .inr rfl, by simp [temporaryName, hr]⟩
  · exact ⟨[], r ++ (".bak" ++ if k = 0 then "" else "." ++ toString k).toList, .inl rfl, by
      unfold backupName
      rw [String.append_assoc, String.toList_append, String.toList_append, hr]
      simp⟩

theorem stem_unique (hs : IsStem s) (hs' : IsStem s') (he : ending.toList.head? = some '.')
    (hk : Kin (s ++ ending) kin) (hk' : Kin (s' ++ ending) kin) : s = s' := by
  obtain ⟨pre, rest, hp, h⟩ := toList_of_kin he hk
  obtain ⟨pre', rest', hp', h'⟩ := toList_of_kin he hk'
  rw [← String.toList_inj, ← stemOf_of_toList hs hp h, stemOf_of_toList hs' hp' h']

theorem not_isStem_of_kin (he : ending.toList.head? = some '.') (hk : Kin (s ++ ending) kin) :
    ¬ IsStem kin := by
  intro hstem
  obtain ⟨pre, rest, -, h⟩ := toList_of_kin he hk
  refine hstem.dot_notMem ?_
  rw [h]
  simp

/-! ## Files apart -/

theorem not_prefix_of_kin (he : ending.toList.head? = some '.')
    (h' : ∀ t ∈ segments', IsStem t) (hk : Kin (s ++ ending) kin) :
    ¬ base ++ segments ++ [kin] <+: base ++ segments' := by
  intro hp
  rw [List.append_assoc, List.prefix_append_right_inj] at hp
  exact not_isStem_of_kin he hk (h' kin (hp.subset (by simp)))

theorem apart_of_ne (he : ending.toList.head? = some '.') (h : ∀ t ∈ segments, IsStem t)
    (h' : ∀ t ∈ segments', IsStem t) (hs : IsStem s) (hs' : IsStem s')
    (hne : segments = segments' → s ≠ s') :
    Apart (base ++ segments) (s ++ ending) (base ++ segments') (s' ++ ending) where
  place_ne kin kin' hk hk' hplace := by
    obtain ⟨hdir, hkin⟩ := List.append_inj' hplace rfl
    obtain rfl : kin = kin' := by simpa using hkin
    exact hne (List.append_cancel_left hdir) (stem_unique hs hs' he hk hk')
  not_prefix kin hk := not_prefix_of_kin he h' hk
  not_prefix' kin hk := not_prefix_of_kin he h hk

/-! ## Paths of artifacts -/

theorem slash_notMem_extension (hc : config.Standard) :
    '/' ∉ config.output.extension.toList := by
  rw [hc.extension]
  decide

theorem head?_extension (hc : config.Standard) :
    config.output.extension.toList.head? = some '.' := by
  rw [hc.extension]
  decide

theorem targets_of_named (hc : config.Standard) (habs : root.isAbsolute = true)
    (hup : ".." ∉ root.names) (ha : a.Named package) :
    (a.job config root).Targets (Layout.directory config root a.package)
      (a.className ++ config.output.extension) :=
  targets_of_isStem ha.className (slash_notMem_extension hc) habs hup rfl

/-- Two artifacts have one path exactly if their classes and the directories of their packages are
the same. -/
theorem path_eq_iff (hc : config.Standard) (hp : IsPlain package) (ha : a.Named package)
    (hb : b.Named package) :
    a.path config root = b.path config root ↔
      a.className = b.className ∧
        Layout.packagePath config.anchor a.package =
          Layout.packagePath config.anchor b.package := by
  obtain ⟨segments, -, hpa⟩ :=
    Layout.packagePath_of_isPlain config.anchor (ha.package.isPlain hp)
  obtain ⟨segments', -, hpb⟩ :=
    Layout.packagePath_of_isPlain config.anchor (hb.package.isPlain hp)
  have hslash := slash_notMem_extension hc
  unfold Artifact.path
  rw [Layout.file_eq ha.className hslash, Layout.file_eq hb.className hslash, hpa, hpb,
    Path.join_of_isRelative rfl, Path.join_of_isRelative rfl]
  constructor
  · intro h
    have hnames : root.names ++ segments ++ [a.className ++ config.output.extension] =
        root.names ++ segments' ++ [b.className ++ config.output.extension] :=
      congrArg Path.names h
    obtain ⟨hdir, hname⟩ := List.append_inj' hnames rfl
    rw [List.append_cancel_left hdir]
    exact ⟨by simpa using hname, rfl⟩
  · rintro ⟨hclass, hdir⟩
    rw [hclass, hdir]

/-- Below a package with plain segments, the jobs of artifacts with different paths do not meet. -/
theorem apart_of_path_ne (hc : config.Standard) (habs : root.isAbsolute = true)
    (hup : ".." ∉ root.names) (hp : IsPlain package) (ha : a.Named package) (hb : b.Named package)
    (hne : a.path config root ≠ b.path config root) :
    Apart (a.job config root).directory (a.job config root).file
      (b.job config root).directory (b.job config root).file := by
  have hta := targets_of_named hc habs hup ha
  have htb := targets_of_named hc habs hup hb
  obtain ⟨segments, hs, hpa⟩ :=
    Layout.packagePath_of_isPlain config.anchor (ha.package.isPlain hp)
  obtain ⟨segments', hs', hpb⟩ :=
    Layout.packagePath_of_isPlain config.anchor (hb.package.isPlain hp)
  rw [hta.directory_eq, hta.file_eq, htb.directory_eq, htb.file_eq,
    Layout.directory_of_isPlain (ha.package.isPlain hp),
    Layout.directory_of_isPlain (hb.package.isPlain hp), hpa, hpb]
  refine apart_of_ne (head?_extension hc) hs hs' ha.className hb.className ?_
  rintro rfl hclass
  exact hne ((path_eq_iff hc hp ha hb).mpr ⟨hclass, hpa.trans hpb.symm⟩)

/-- Below a package that has the anchor, the jobs of artifacts with different names do not meet. -/
theorem separate_of_named (hc : config.Standard) (habs : root.isAbsolute = true)
    (hup : ".." ∉ root.names) (hanchor : Layout.HasAnchor config.anchor package)
    (hnamed : ∀ a ∈ artifacts, a.Named package) (hnodup : (artifacts.map Artifact.key).Nodup) :
    Separate (artifacts.map (Artifact.job config root)) := by
  have htargets := fun a hm => targets_of_named hc habs hup (hnamed a hm)
  refine ⟨fun job hj => ?_, List.pairwise_map.mpr ?_⟩
  · obtain ⟨a, hm, rfl⟩ := List.mem_map.mp hj
    exact (htargets a hm).own
  · have hp : artifacts.Pairwise fun a b => a.key ≠ b.key := List.pairwise_map.mp hnodup
    refine hp.imp_of_mem fun {a b} hma hmb hne => ?_
    obtain ⟨segments, hs, hpa⟩ := (hnamed a hma).package
    obtain ⟨segments', hs', hpb⟩ := (hnamed b hmb).package
    rw [(htargets a hma).directory_eq, (htargets a hma).file_eq, (htargets b hmb).directory_eq,
      (htargets b hmb).file_eq, hpa, hpb, Layout.directory_below hanchor hs,
      Layout.directory_below hanchor hs']
    refine apart_of_ne (head?_extension hc) hs hs' (hnamed a hma).className
      (hnamed b hmb).className ?_
    rintro rfl hclass
    exact hne (Prod.ext (by rw [Artifact.key, Artifact.key, hpa, hpb]) hclass)

/-- The jobs of the artifacts of a schema do not meet. -/
theorem separate_of_read [Surrogates] (hc : config.Standard)
    (hread : Schema.Tree.read doc = .ok tree)
    (ha : tree.artifacts config package = .ok artifacts)
    (hanchor : Layout.HasAnchor config.anchor package) (hroot : disk.resolve output = .ok root) :
    Separate (artifacts.map (Artifact.job config root)) := by
  obtain ⟨hnamed, hnodup⟩ := artifacts_of_read hc hread ha
  exact separate_of_named hc (isAbsolute_of_resolve hroot) (up_notMem_of_resolve hroot) hanchor
    hnamed hnodup

end DomainCodegen
