import DomainCodegen.Proofs.PackageName

/-!
# Directories by segments

The directories of a package are found in its text, but they are a matter of its segments: those
behind the first anchor that is neither the first segment nor the last (`packagePath_eq_drop`).
What continues a package with an anchor therefore continues its directory, and the file of every
artifact is found below the output root by plain names (`packagePath_by_segments`).
-/

namespace DomainCodegen

open PackageName

variable {anchor package first : String} {segments more : List String} {mark cs rest : List Char}
  {i : Nat}

/-! ## Plain packages -/

/-- A package is plain if and only if it is joined of segments that can stand in a path. -/
theorem isPlain_iff : IsPlain package ↔ PackageName.Joined IsStem package :=
  forall_pieces_iff fun _ hs => hs.dot_notMem

namespace Layout

/-! ## The anchor in a text -/

/-- A mark that starts with a dot is not found in a text without dots. -/
theorem after?_append_of_notMem (h : '.' ∉ cs) :
    after? ('.' :: mark) (cs ++ rest) = after? ('.' :: mark) rest := by
  induction cs with
  | nil => rfl
  | cons c r ih =>
    obtain ⟨hc, hr⟩ := not_or.mp (mt List.mem_cons.mpr h)
    rw [List.cons_append]
    conv_lhs => unfold after?
    rw [if_neg (by simp [hc]), ih hr]

/-- A segment and what follows it start with an anchor and a dot only if the segment is the anchor
and others follow it. -/
theorem anchor_prefix_iff {s : String} (ha : '.' ∉ anchor.toList) (hs : '.' ∉ s.toList) :
    anchor.toList ++ ['.'] <+: s.toList ++ dotted more ↔ s = anchor ∧ more ≠ [] := by
  cases more with
  | nil =>
    refine iff_of_false ?_ (fun h => h.2 rfl)
    intro hp
    refine hs ?_
    have hdot : '.' ∈ s.toList ++ dotted [] := hp.subset (by simp)
    simpa [dotted] using hdot
  | cons t r =>
    have hd : dotted (t :: r) = '.' :: (t.toList ++ dotted r) := rfl
    rw [hd]
    constructor
    · rintro ⟨tail, htail⟩
      have hpieces := congrArg (List.splitOn '.') htail
      rw [List.append_assoc, List.singleton_append, List.splitOn_append_cons_self,
        List.splitOn_append_cons_self, List.splitOn_eq_singleton ha,
        List.splitOn_eq_singleton hs] at hpieces
      exact ⟨(String.toList_inj.mp (List.cons.inj hpieces).1).symm, List.cons_ne_nil t r⟩
    · rintro ⟨rfl, -⟩
      exact ⟨t.toList ++ dotted r, by simp⟩

/-- The segments behind the first anchor. -/
def behind (anchor : String) : List String → List String
  | [] => []
  | s :: r => if s = anchor then r else behind anchor r

/-- Searching the text finds the segments behind the anchor. -/
theorem after?_dotted (ha : '.' ∉ anchor.toList) (h : ∀ s ∈ segments, IsStem s) :
    ((after? ('.' :: anchor.toList ++ ['.']) (dotted segments)).map ofTail).getD .current =
      { names := behind anchor segments } := by
  induction segments with
  | nil => rfl
  | cons s r ih =>
    obtain ⟨hs, hr⟩ := List.forall_mem_cons.mp h
    have hd : dotted (s :: r) = '.' :: (s.toList ++ dotted r) := rfl
    -- the mark stands right here exactly if the segment is the anchor and is not the last one
    have hhere : ('.' :: anchor.toList ++ ['.']).isPrefixOf ('.' :: (s.toList ++ dotted r)) = true ↔
        s = anchor ∧ r ≠ [] := by
      rw [List.isPrefixOf_iff_prefix, List.cons_append, List.prefix_cons_inj,
        anchor_prefix_iff ha hs.dot_notMem]
    rw [hd]
    unfold after? behind
    by_cases hfound : s = anchor ∧ r ≠ []
    · obtain ⟨rfl, hne⟩ := hfound
      rw [if_pos (hhere.mpr ⟨rfl, hne⟩), if_pos rfl]
      obtain ⟨t, others, rfl⟩ := List.exists_cons_of_ne_nil hne
      obtain ⟨ht, hothers⟩ := List.forall_mem_cons.mp hr
      have htail : ('.' :: (s.toList ++ dotted (t :: others))).drop
          ('.' :: s.toList ++ ['.']).length = t.toList ++ dotted others := by simp [dotted]
      rw [htail]
      show ofTail (t.toList ++ dotted others) = _
      have hsplit : t.toList.splitOn '.' = [t.toList] := List.splitOn_eq_singleton ht.dot_notMem
      rw [ofTail_dotted hothers, ofTail_of_isStem]
      · simp [hsplit, Path.extend]
      · simpa [hsplit] using ht
    · rw [if_neg (mt hhere.mp hfound), List.cons_append, after?_append_of_notMem hs.dot_notMem,
        ← List.cons_append, ih hr]
      split
      · next heq =>
        obtain rfl : r = [] := by
          by_contra hne
          exact hfound ⟨heq, hne⟩
        rfl
      · rfl

theorem packagePath_joined (ha : '.' ∉ anchor.toList) (hf : IsStem first)
    (h : ∀ s ∈ segments, IsStem s) :
    packagePath anchor (".".intercalate (first :: segments)) =
      { names := behind anchor segments } := by
  unfold packagePath
  rw [← Schema.below_eq_intercalate, toList_below, List.cons_append,
    after?_append_of_notMem hf.dot_notMem, ← List.cons_append]
  exact after?_dotted ha h

/-! ## The anchor among the segments -/

/-- An anchor segment that is neither the first nor the last one. -/
def IsAnchorAt (anchor : String) (segments : List String) (i : Nat) : Prop :=
  0 < i ∧ i + 1 < segments.length ∧ segments[i]? = some anchor

theorem behind_eq_drop (h : segments[i]? = some anchor)
    (hfirst : ∀ j < i, segments[j]? ≠ some anchor) :
    behind anchor segments = segments.drop (i + 1) := by
  induction segments generalizing i with
  | nil => cases h
  | cons s r ih =>
    unfold behind
    cases i with
    | zero =>
      rw [if_pos (by simpa using h)]
      rfl
    | succ i =>
      have hs : s ≠ anchor := by simpa using hfirst 0 (by omega)
      rw [if_neg hs, List.drop_succ_cons]
      apply ih
      · simpa using h
      · intro j hj
        simpa using hfirst (j + 1) (by omega)

theorem behind_eq_nil (h : ∀ j, j + 1 < segments.length → segments[j]? ≠ some anchor) :
    behind anchor segments = [] := by
  induction segments with
  | nil => rfl
  | cons s r ih =>
    unfold behind
    split
    · next hs =>
      -- an anchor here is the last segment
      by_contra hr
      have hlen : 0 < r.length := List.length_pos_iff.mpr hr
      refine h 0 ?_ (by simp [hs])
      rw [List.length_cons]
      omega
    · apply ih
      intro j hj
      simpa using h (j + 1) (by rw [List.length_cons]; omega)

/-- The directories of a package are the segments behind its first anchor. -/
theorem packagePath_eq_drop (ha : '.' ∉ anchor.toList) (h : ∀ s ∈ segments, IsStem s)
    (hi : IsAnchorAt anchor segments i) (hfirst : ∀ j < i, ¬ IsAnchorAt anchor segments j) :
    packagePath anchor (".".intercalate segments) = { names := segments.drop (i + 1) } := by
  obtain ⟨hpos, hlast, hget⟩ := hi
  obtain ⟨k, rfl⟩ : ∃ k, i = k + 1 := ⟨i - 1, by omega⟩
  cases segments with
  | nil => cases hget
  | cons first r =>
    obtain ⟨hf, hr⟩ := List.forall_mem_cons.mp h
    rw [packagePath_joined ha hf hr, List.drop_succ_cons, behind_eq_drop (i := k)]
    · simpa using hget
    · intro j hj hanchor
      refine hfirst (j + 1) (by omega) ⟨by omega, by omega, ?_⟩
      simpa using hanchor

/-- A package without such an anchor has no directories. -/
theorem packagePath_eq_current (ha : '.' ∉ anchor.toList) (hne : segments ≠ [])
    (h : ∀ s ∈ segments, IsStem s) (hnone : ∀ j, ¬ IsAnchorAt anchor segments j) :
    packagePath anchor (".".intercalate segments) = .current := by
  obtain ⟨first, r, rfl⟩ := List.exists_cons_of_ne_nil hne
  obtain ⟨hf, hr⟩ := List.forall_mem_cons.mp h
  rw [packagePath_joined ha hf hr, behind_eq_nil]
  · rfl
  · intro j hj hanchor
    refine hnone (j + 1) ⟨by omega, ?_, ?_⟩
    · rw [List.length_cons]
      omega
    · simpa using hanchor

theorem IsAnchorAt.exists_first (h : IsAnchorAt anchor segments i) :
    ∃ k, IsAnchorAt anchor segments k ∧ ∀ j < k, ¬ IsAnchorAt anchor segments j := by
  induction i using Nat.strong_induction_on with
  | _ i ih =>
    by_cases hearlier : ∃ j < i, IsAnchorAt anchor segments j
    · obtain ⟨j, hj, hanchor⟩ := hearlier
      exact ih j hj hanchor
    · exact ⟨i, h, fun j hj hanchor => hearlier ⟨j, hj, hanchor⟩⟩

/-- Segments behind a package do not change where its first anchor is. -/
theorem isAnchorAt_append (hi : i + 1 < segments.length) :
    IsAnchorAt anchor (segments ++ more) i ↔ IsAnchorAt anchor segments i := by
  unfold IsAnchorAt
  rw [List.getElem?_append_left (by omega), List.length_append]
  constructor
  · rintro ⟨hpos, -, hget⟩
    exact ⟨hpos, hi, hget⟩
  · rintro ⟨hpos, -, hget⟩
    exact ⟨hpos, by omega, hget⟩

/-- What continues a package with an anchor continues its directory. -/
theorem packagePath_append (ha : '.' ∉ anchor.toList) (h : ∀ s ∈ segments, IsStem s)
    (hi : IsAnchorAt anchor segments i) (hne : more ≠ []) (hm : ∀ s ∈ more, IsStem s) :
    packagePath anchor (".".intercalate segments ++ "." ++ ".".intercalate more) =
      (packagePath anchor (".".intercalate segments)).extend more := by
  obtain ⟨k, hk, hfirst⟩ := hi.exists_first
  have hlast : k + 1 < segments.length := hk.2.1
  have hsegments : segments ≠ [] := by
    rintro rfl
    exact absurd hlast (Nat.not_lt_zero _)
  rw [← String.intercalate_append_of_ne_nil hsegments hne, packagePath_eq_drop ha h hk hfirst,
    packagePath_eq_drop (i := k) ha (List.forall_mem_append.mpr ⟨h, hm⟩)]
  · rw [List.drop_append_of_le_length (by omega)]
    rfl
  · rwa [isAnchorAt_append hlast]
  · intro j hj
    rw [isAnchorAt_append (by omega)]
    exact hfirst j hj

end Layout

/-! ## Files of artifacts -/

/-- The file of a well-named artifact is found below the output root by plain names. -/
theorem Artifact.path_eq_extend {config : Config} {a : Artifact} (hc : config.Standard)
    (hp : IsPlain package) (ha : a.Named package) (root : Path) :
    ∃ directories, (∀ s ∈ directories, IsStem s) ∧
      a.path config root =
        root.extend (directories ++ [a.className ++ config.output.extension]) := by
  obtain ⟨directories, hall, hpath⟩ :=
    Layout.packagePath_of_isPlain config.anchor (ha.package.isPlain hp)
  refine ⟨directories, hall, ?_⟩
  unfold Artifact.path
  rw [Layout.file_eq ha.className (slash_notMem_extension hc), hpath, Path.join_of_isRelative rfl]
  simp [Path.extend]

open Layout

/-- How directories depend on segments. A package has the directories that its segments behind the
first anchor name, and none without one, where the first segment and the last are no anchors. If it
has one, the segments that continue the package continue its directories, so that they can be told
from them. With the default names, the file of an artifact of a package of plain segments, as every
accepted package name is, is found below the output root by plain names only. -/
theorem packagePath_by_segments [Surrogates] (ha : IsStem anchor) (hne : segments ≠ [])
    (h : ∀ s ∈ segments, IsStem s) :
    (∀ i, IsAnchorAt anchor segments i → (∀ j < i, ¬ IsAnchorAt anchor segments j) →
      packagePath anchor (".".intercalate segments) = { names := segments.drop (i + 1) }) ∧
    ((∀ i, ¬ IsAnchorAt anchor segments i) →
      packagePath anchor (".".intercalate segments) = .current) ∧
    ((∃ i, IsAnchorAt anchor segments i) →
      (∀ more, more ≠ [] → (∀ s ∈ more, IsStem s) →
        packagePath anchor (".".intercalate segments ++ "." ++ ".".intercalate more) =
          (packagePath anchor (".".intercalate segments)).extend more) ∧
      ∀ more others, more ≠ [] → (∀ s ∈ more, IsStem s) → others ≠ [] →
        (∀ s ∈ others, IsStem s) →
        packagePath anchor (".".intercalate segments ++ "." ++ ".".intercalate more) =
          packagePath anchor (".".intercalate segments ++ "." ++ ".".intercalate others) →
        more = others) ∧
    (∀ value name, PackageName.ofJson value = .ok name → PackageName.Joined IsStem name) ∧
    ∀ doc tree package artifacts root, Schema.Tree.read doc = .ok tree →
      PackageName.Joined IsStem package → tree.artifacts {} package = .ok artifacts →
      ∀ a ∈ artifacts, IsStem a.className ∧ ∃ directories, (∀ s ∈ directories, IsStem s) ∧
        a.path {} root = root.extend (directories ++ [a.className ++ ".java"]) := by
  refine ⟨fun i => packagePath_eq_drop ha.dot_notMem h,
    packagePath_eq_current ha.dot_notMem hne h, ?_, ?_, ?_⟩
  · rintro ⟨i, hi⟩
    have hextend : ∀ more, more ≠ [] → (∀ s ∈ more, IsStem s) →
        packagePath anchor (".".intercalate segments ++ "." ++ ".".intercalate more) =
          (packagePath anchor (".".intercalate segments)).extend more :=
      fun _ hm => packagePath_append ha.dot_notMem h hi hm
    refine ⟨hextend, fun more others hm hmore ho hothers heq => ?_⟩
    rw [hextend more hm hmore, hextend others ho hothers] at heq
    exact List.append_cancel_left (congrArg Path.names heq)
  · intro value name hname
    obtain ⟨-, hvalid⟩ := PackageName.ofJson_eq_ok_iff.mp hname
    exact isPlain_iff.mp (isPlain_of_isValid (isValid_iff.mpr hvalid))
  · intro doc tree package artifacts root hread hp hall a hm
    have hnamed := (artifacts_of_read standard_default hread hall).1 a hm
    exact ⟨hnamed.className,
      Artifact.path_eq_extend standard_default (isPlain_iff.mpr hp) hnamed root⟩

open scoped Surrogates in
/-- With two anchors side by side the first one counts, and the second one is a directory. -/
theorem packagePath_by_segments_twice :
    packagePath "domain" "shop.domain.domain.order" = { names := ["domain", "order"] } ∧
    packagePath "domain" "shop.domain.domain.order.item" =
      { names := ["domain", "order", "item"] } ∧
    ∀ a ∈ Schema.sampleTree.node.artifacts {} "shop.domain", ∃ directories,
      (∀ s ∈ directories, IsStem s) ∧
      a.path {} (.ofString "/out") =
        (Path.ofString "/out").extend (directories ++ [a.className ++ ".java"]) := by
  have hstem : ∀ s ∈ ["shop", "domain", "order", "item"], IsStem s := by
    simp only [List.forall_mem_cons, List.not_mem_nil, false_imp_iff, implies_true, and_true]
    exact ⟨⟨by decide, by decide, by decide⟩, ⟨by decide, by decide, by decide⟩,
      ⟨by decide, by decide, by decide⟩, by decide, by decide, by decide⟩
  have hanchor : IsAnchorAt "domain" ["shop", "domain", "domain", "order"] 1 :=
    ⟨by decide, by decide, by decide⟩
  have hfirst : ∀ j < 1, ¬ IsAnchorAt "domain" ["shop", "domain", "domain", "order"] j := by
    rintro j hj ⟨hpos, -⟩
    omega
  have hsegments : ∀ s ∈ ["shop", "domain", "domain", "order"], IsStem s :=
    fun s hs => hstem s (by revert s; decide)
  obtain ⟨hdrop, -, hmore, -, hfiles⟩ :=
    packagePath_by_segments (hstem "domain" (by decide)) (by decide) hsegments
  have hpath : packagePath "domain" "shop.domain.domain.order" =
      { names := ["domain", "order"] } := hdrop 1 hanchor hfirst
  refine ⟨hpath, ?_, ?_⟩
  · have hitem := (hmore ⟨1, hanchor⟩).1 ["item"] (by decide)
      fun s hs => hstem s (by revert s; decide)
    have hback : packagePath "domain" (".".intercalate ["shop", "domain", "domain", "order"]) =
        { names := ["domain", "order"] } := hpath
    rw [hback] at hitem
    exact hitem
  · intro a hm
    have hjoined : PackageName.Joined IsStem "shop.domain" :=
      ⟨["shop", "domain"], by decide, fun s hs => hstem s (by revert s; decide), rfl⟩
    exact (hfiles _ _ _ _ (.ofString "/out") Schema.read_sample hjoined rfl a hm).2

end DomainCodegen
