import DomainCodegen.Proofs.Layout

/-!
# Packages and their directories

A package below another one continues it by segments. If a package has the anchor, in its middle or
at its end, the segments of a package below it are directories of their own (`packagePath_below`),
so that packages below it that differ have different directories. Without it they may share one.
-/

namespace DomainCodegen

variable {anchor package s : String} {segments others : List String} {mark cs more tail : List Char}

/-! ## Packages below a package -/

/-- The package that continues another one by segments. -/
def below (package : String) (segments : List String) : String :=
  segments.foldl (fun p s => p ++ "." ++ s) package

/-- Segments as they stand behind a package. -/
def dotted (segments : List String) : List Char := segments.flatMap fun s => '.' :: s.toList

theorem below_append (package : String) (segments others : List String) :
    below (below package segments) others = below package (segments ++ others) :=
  List.foldl_append.symm

theorem toList_below (package : String) (segments : List String) :
    (below package segments).toList = package.toList ++ dotted segments := by
  induction segments generalizing package with
  | nil => simp [below, dotted]
  | cons s r ih =>
    show (below (package ++ "." ++ s) r).toList = _
    rw [ih]
    simp [dotted]

theorem splitOn_append_dotted (h : ∀ s ∈ segments, IsStem s) (cs : List Char) :
    (cs ++ dotted segments).splitOn '.' = cs.splitOn '.' ++ segments.map String.toList := by
  induction segments generalizing cs with
  | nil => simp [dotted]
  | cons s r ih =>
    have hd : cs ++ dotted (s :: r) = cs ++ '.' :: (s.toList ++ dotted r) := rfl
    rw [hd, List.splitOn_append_cons_self, ih fun t ht => h t (List.mem_cons_of_mem _ ht),
      List.splitOn_eq_singleton (h s List.mem_cons_self).dot_notMem]
    rfl

/-- All segments of a package can stand in a path. -/
def IsPlain (package : String) : Prop :=
  ∀ piece ∈ package.toList.splitOn '.', IsStem (String.ofList piece)

theorem IsPlain.below (hp : IsPlain package) (h : ∀ s ∈ segments, IsStem s) :
    IsPlain (below package segments) := by
  intro piece hm
  rw [toList_below, splitOn_append_dotted h] at hm
  rcases List.mem_append.mp hm with hm | hm
  · exact hp piece hm
  · obtain ⟨s, hs, rfl⟩ := List.mem_map.mp hm
    rw [String.ofList_toList]
    exact h s hs

namespace Layout

/-! ## Finding the anchor -/

/-- What is found follows a mark. -/
theorem eq_append_of_after? (h : after? mark cs = some tail) :
    ∃ front, cs = front ++ mark ++ tail := by
  induction cs with
  | nil => cases h
  | cons c r ih =>
    unfold after? at h
    split at h
    · next hp =>
      obtain ⟨more, hm⟩ := List.isPrefixOf_iff_prefix.mp hp
      cases h
      exact ⟨[], by rw [← hm]; simp⟩
    · obtain ⟨front, hf⟩ := ih h
      exact ⟨c :: front, by rw [hf]; simp⟩

/-- A mark that is found is found at the same place in a longer text. -/
theorem after?_append (h : after? mark cs = some tail) :
    after? mark (cs ++ more) = some (tail ++ more) := by
  induction cs with
  | nil => cases h
  | cons c r ih =>
    have hlen : mark.length ≤ (c :: r).length := by
      obtain ⟨front, hf⟩ := eq_append_of_after? h
      rw [hf, List.length_append, List.length_append]
      omega
    unfold after? at h
    rw [List.cons_append]
    unfold after?
    split at h
    · next hp =>
      have hpre := List.isPrefixOf_iff_prefix.mp hp
      have hmore : mark <+: c :: (r ++ more) := hpre.trans (List.prefix_append (c :: r) more)
      cases h
      rw [if_pos (List.isPrefixOf_iff_prefix.mpr hmore), ← List.cons_append,
        List.drop_append_of_le_length hlen]
    · next hp =>
      rw [if_neg, ih h]
      intro hmore
      refine hp (List.isPrefixOf_iff_prefix.mpr ?_)
      exact List.prefix_of_prefix_length_le (List.isPrefixOf_iff_prefix.mp hmore)
        (List.prefix_append (c :: r) more) hlen

/-- A mark whose end is added to a text without it is found right there. -/
theorem after?_complete {front : List Char} {last : Char}
    (h : ¬ front ++ [last] <:+: cs ++ front) :
    after? (front ++ [last]) (cs ++ front ++ last :: more) = some more := by
  induction cs with
  | nil =>
    have hp : front ++ [last] <+: front ++ last :: more := ⟨more, by simp⟩
    cases hc : front ++ last :: more with
    | nil => simp at hc
    | cons d r =>
      rw [List.nil_append, hc]
      unfold after?
      rw [← hc, if_pos (List.isPrefixOf_iff_prefix.mpr hp)]
      simp
  | cons c r ih =>
    rw [List.cons_append, List.infix_cons_iff, not_or] at h
    rw [List.cons_append, List.cons_append]
    unfold after?
    rw [if_neg, ih h.2]
    intro hp
    refine h.1 (List.prefix_of_prefix_length_le (List.isPrefixOf_iff_prefix.mp hp)
      ⟨last :: more, by simp⟩ ?_)
    simp only [List.length_append, List.length_cons, List.length_nil]
    omega

theorem exists_after? (hne : mark ≠ []) (h : mark <:+: cs) :
    ∃ tail, after? mark cs = some tail := by
  induction cs with
  | nil => exact absurd (List.infix_nil.mp h) hne
  | cons c r ih =>
    unfold after?
    by_cases hp : mark.isPrefixOf (c :: r) = true
    · exact ⟨_, if_pos hp⟩
    · rw [if_neg hp]
      exact ih ((List.infix_cons_iff.mp h).resolve_left fun hpre =>
        hp (List.isPrefixOf_iff_prefix.mpr hpre))

/-! ## Directories below an anchor -/

theorem ofTail_eq (tail : List Char) :
    ofTail tail = (tail.splitOn '.').foldl
      (fun p cs => p.join (.ofString (String.ofList cs))) .current := by
  unfold ofTail
  split
  · next h =>
    rw [h]
    rfl
  · rfl

theorem foldl_of_isStem {pieces : List (List Char)}
    (h : ∀ piece ∈ pieces, IsStem (String.ofList piece)) (p : Path) :
    pieces.foldl (fun q cs => q.join (.ofString (String.ofList cs))) p =
      p.extend (pieces.map String.ofList) := by
  induction pieces generalizing p with
  | nil => simp [Path.extend]
  | cons piece r ih =>
    rw [List.foldl_cons, ih (fun q hq => h q (List.mem_cons_of_mem _ hq)),
      (h piece List.mem_cons_self).ofString_self, Path.join_of_isRelative rfl]
    simp [Path.extend]

theorem ofTail_of_isStem (h : ∀ piece ∈ tail.splitOn '.', IsStem (String.ofList piece)) :
    ofTail tail = { names := (tail.splitOn '.').map String.ofList } := by
  rw [ofTail_eq, foldl_of_isStem h]
  rfl

theorem ofTail_dotted (h : ∀ s ∈ segments, IsStem s) (tail : List Char) :
    ofTail (tail ++ dotted segments) = (ofTail tail).extend segments := by
  have hpieces : ∀ piece ∈ segments.map String.toList, IsStem (String.ofList piece) := by
    intro piece hp
    obtain ⟨s, hs, rfl⟩ := List.mem_map.mp hp
    rw [String.ofList_toList]
    exact h s hs
  rw [ofTail_eq, ofTail_eq, splitOn_append_dotted h, List.foldl_append, foldl_of_isStem hpieces]
  simp [Function.comp_def]

/-- The directory of a package with plain segments is below the output root. -/
theorem packagePath_of_isPlain (anchor : String) (h : IsPlain package) :
    ∃ segments, (∀ s ∈ segments, IsStem s) ∧
      packagePath anchor package = { names := segments } := by
  unfold packagePath
  cases ht : after? ('.' :: anchor.toList ++ ['.']) package.toList with
  | none => exact ⟨[], nofun, rfl⟩
  | some tail =>
    -- the pieces of what follows the anchor are the last segments of the package
    obtain ⟨front, hf⟩ := eq_append_of_after? ht
    have hpieces : ∀ piece ∈ tail.splitOn '.', IsStem (String.ofList piece) := by
      intro piece hp
      refine h piece ?_
      have hcut : package.toList = front ++ '.' :: anchor.toList ++ '.' :: tail := by
        rw [hf]
        simp
      rw [hcut, List.splitOn_append_cons_self]
      exact List.mem_append_right _ hp
    refine ⟨(tail.splitOn '.').map String.ofList, ?_, ofTail_of_isStem hpieces⟩
    intro s hs
    obtain ⟨piece, hp, rfl⟩ := List.mem_map.mp hs
    exact hpieces piece hp

/-- Whether a package has an anchor segment with one before it. -/
def HasAnchor (anchor package : String) : Prop :=
  '.' :: anchor.toList ++ ['.'] <:+: package.toList ∨ '.' :: anchor.toList <:+ package.toList

/-- Below a package that has the anchor every segment is a directory. -/
theorem packagePath_below (ha : HasAnchor anchor package) (h : ∀ s ∈ segments, IsStem s) :
    packagePath anchor (below package segments) = (packagePath anchor package).extend segments := by
  unfold packagePath
  rw [toList_below]
  by_cases hc : '.' :: anchor.toList ++ ['.'] <:+: package.toList
  · obtain ⟨tail, ht⟩ := exists_after? (by simp) hc
    rw [after?_append ht, ht]
    exact ofTail_dotted h tail
  · obtain ⟨front, hf⟩ := ha.resolve_left hc
    have hn : after? ('.' :: anchor.toList ++ ['.']) package.toList = none := by
      by_contra hsome
      obtain ⟨tail, ht⟩ := Option.ne_none_iff_exists'.mp hsome
      obtain ⟨before, hb⟩ := eq_append_of_after? ht
      exact hc ⟨before, tail, hb.symm⟩
    cases segments with
    | nil => simp [dotted, Path.extend]
    | cons s r =>
      have hd : dotted (s :: r) = '.' :: (s.toList ++ dotted r) := rfl
      rw [← hf] at hc
      rw [hn, hd, ← hf, after?_complete hc]
      show ofTail (s.toList ++ dotted r) = _
      have hs := h s List.mem_cons_self
      have hsplit : s.toList.splitOn '.' = [s.toList] := List.splitOn_eq_singleton hs.dot_notMem
      rw [ofTail_dotted (fun t ht => h t (List.mem_cons_of_mem _ ht)), ofTail_of_isStem, hsplit]
      · simp [Path.extend, Path.current]
      · rw [hsplit]
        simpa using hs

theorem directory_below {config : Config} {root : Path} (ha : HasAnchor config.anchor package)
    (h : ∀ s ∈ segments, IsStem s) :
    directory config root (below package segments) =
      directory config root package ++ segments := by
  unfold directory
  rw [packagePath_below ha h, Path.join_extend]
  rfl

theorem directory_of_isPlain {config : Config} {root : Path} (h : IsPlain package) :
    directory config root package = root.names ++ (packagePath config.anchor package).names := by
  obtain ⟨segments, -, hp⟩ := packagePath_of_isPlain config.anchor h
  unfold directory
  rw [hp, Path.join_of_isRelative rfl]
  rfl

end Layout

end DomainCodegen
