import DomainCodegen.Generation
import DomainCodegen.Proofs.Output.Settling

/-!
# Files of packages and classes

A directory below the output root never leads upwards, whatever the package is
(`up_notMem_packagePath`), and the file of a class that can be rendered is a plain name in such a
directory (`targets_of_isStem`).
-/

namespace DomainCodegen

variable {config : Config} {root p q : Path} {s className ending : String} {disk : Disk}

/-! ## Reading paths -/

/-- A piece of a split text has the text's characters, without the separator. -/
theorem mem_of_mem_splitOn {sep : Char} {cs piece : List Char} (h : piece ∈ cs.splitOn sep) :
    ∀ c ∈ piece, c ∈ cs ∧ c ≠ sep := by
  induction cs generalizing piece with
  | nil =>
    obtain rfl : piece = [] := by simpa using h
    exact nofun
  | cons d r ih =>
    rw [List.splitOn_cons_eq_if_modifyHead] at h
    split at h
    · rcases List.mem_cons.mp h with rfl | h
      · exact nofun
      · exact fun c hc => (ih h c hc).imp_left (List.mem_cons_of_mem d)
    · next hd =>
      cases hr : r.splitOn sep with
      | nil => exact absurd hr (List.splitOn_ne_nil sep r)
      | cons first others =>
        rw [hr, List.modifyHead_cons] at h
        rcases List.mem_cons.mp h with rfl | h
        · intro c hc
          rcases List.mem_cons.mp hc with rfl | hc
          · exact ⟨List.mem_cons_self, by simpa using hd⟩
          · exact (ih (by rw [hr]; exact List.mem_cons_self) c hc).imp_left
              (List.mem_cons_of_mem d)
        · exact fun c hc => (ih (by rw [hr]; exact List.mem_cons_of_mem _ h) c hc).imp_left
            (List.mem_cons_of_mem d)

/-- What stands before the first separator goes to the first piece. -/
theorem splitOn_append {sep : Char} {front cs : List Char} (h : sep ∉ front) :
    (front ++ cs).splitOn sep = (cs.splitOn sep).modifyHead (front ++ ·) := by
  induction front with
  | nil =>
    rw [List.nil_append]
    cases cs.splitOn sep <;> rfl
  | cons c r ih =>
    obtain ⟨hc, hr⟩ := not_or.mp (mt List.mem_cons.mpr h)
    rw [List.cons_append, List.splitOn_cons_eq_if_modifyHead, if_neg (by simpa using Ne.symm hc),
      ih hr]
    cases cs.splitOn sep <;> rfl

namespace Path

theorem startOf_of_notMem {cs : List Char} (h : '/' ∉ cs) : startOf cs = .here := by
  cases cs with
  | nil => rfl
  | cons c r =>
    have hc : c ≠ '/' := fun hc => h (hc ▸ List.mem_cons_self)
    unfold startOf
    split <;> simp_all

/-- A text without slashes that is not empty and not a dot is a name. -/
theorem ofString_of_notMem (hs : '/' ∉ s.toList) (hne : s ≠ "") (hdot : s ≠ ".") :
    ofString s = { names := [s] } := by
  have hname : isName s.toList = true := by
    have h1 : s.toList ≠ [] := by simpa using hne
    have h2 : s.toList ≠ ['.'] := fun h => hdot (String.toList_inj.mp h)
    simp [isName, h1, h2]
  unfold ofString
  rw [startOf_of_notMem hs, List.splitOn_eq_singleton hs]
  simp [hname]

/-- A text without dots leads nowhere upwards. -/
theorem up_notMem_ofString (h : '.' ∉ s.toList) : ".." ∉ (ofString s).names := by
  intro hm
  obtain ⟨piece, hp, he⟩ := List.mem_map.mp hm
  have hp := (List.mem_filter.mp hp).1
  have hpiece : piece = ['.', '.'] := by rw [← String.toList_ofList (l := piece), he]; rfl
  exact h (mem_of_mem_splitOn hp '.' (by rw [hpiece]; exact List.mem_cons_self)).1

theorem up_notMem_join (hp : ".." ∉ p.names) (hq : ".." ∉ q.names) : ".." ∉ (p.join q).names := by
  unfold join
  split
  · exact hq
  · simpa using ⟨hp, hq⟩

theorem join_of_isRelative (h : q.start = .here) : p.join q = p.extend q.names := by
  unfold join isAbsolute
  rw [if_neg (by simp [h])]
  rfl

theorem join_extend (names : List String) : p.join (q.extend names) = (p.join q).extend names := by
  have habs : (q.extend names).isAbsolute = q.isAbsolute := rfl
  unfold join
  rw [habs]
  split
  · rfl
  · simp [extend]

theorem isAbsolute_join (hp : p.isAbsolute = true) : (p.join q).isAbsolute = true := by
  unfold join
  split
  · assumption
  · exact hp

theorem isAbsolute_extend {names : List String} :
    (p.extend names).isAbsolute = p.isAbsolute := rfl

end Path

/-! ## Stems -/

/-- A text that can stand in a path as a name, or as the front of one. -/
structure IsStem (s : String) : Prop where
  ne_empty : s ≠ ""
  dot_notMem : '.' ∉ s.toList
  slash_notMem : '/' ∉ s.toList

theorem IsStem.head?_ne_dot (h : IsStem s) (ending : String) :
    (s ++ ending).toList.head? ≠ some '.' := by
  obtain ⟨c, r, hs⟩ := List.exists_cons_of_ne_nil (show s.toList ≠ [] by simpa using h.ne_empty)
  rw [String.toList_append, hs]
  intro hc
  obtain rfl : c = '.' := by simpa using hc
  exact h.dot_notMem (by rw [hs]; exact List.mem_cons_self)

theorem IsStem.append_ne (h : IsStem s) {other : String} (ho : ∀ c ∈ other.toList, c = '.') :
    s ++ ending ≠ other := by
  intro he
  obtain ⟨c, r, hs⟩ := List.exists_cons_of_ne_nil (show s.toList ≠ [] by simpa using h.ne_empty)
  have hc : c ∈ other.toList := by
    rw [← he, String.toList_append, hs]
    exact List.mem_cons_self
  refine h.dot_notMem ?_
  rw [hs, ← ho c hc]
  exact List.mem_cons_self

/-- A stem with an ending is one name. -/
theorem IsStem.ofString (h : IsStem s) (he : '/' ∉ ending.toList) :
    Path.ofString (s ++ ending) = { names := [s ++ ending] } := by
  refine Path.ofString_of_notMem ?_ (h.append_ne (by simp)) (h.append_ne (by simp))
  rw [String.toList_append, List.mem_append]
  exact not_or.mpr ⟨h.slash_notMem, he⟩

/-- What an ending makes of the name of a stem depends on the ending alone. -/
theorem exists_names_of_ending (ending : String) :
    ∃ first others, ∀ s, IsStem s →
      Path.ofString (s ++ ending) = { names := (s ++ String.ofList first) :: others } := by
  obtain ⟨first, rest, hsplit⟩ := List.exists_cons_of_ne_nil
    (List.splitOn_ne_nil '/' ending.toList)
  refine ⟨first, (rest.filter Path.isName).map String.ofList, fun s h => ?_⟩
  obtain ⟨c, r, hs⟩ := List.exists_cons_of_ne_nil (show s.toList ≠ [] by simpa using h.ne_empty)
  have hstart : Path.startOf (s ++ ending).toList = .here := by
    have hc : c ≠ '/' := fun hc => h.slash_notMem (by rw [hs, hc]; exact List.mem_cons_self)
    rw [String.toList_append, hs, List.cons_append]
    unfold Path.startOf
    split <;> simp_all
  have hname : Path.isName (s.toList ++ first) = true := by
    have hc : c ≠ '.' := fun hc => h.dot_notMem (by rw [hs, hc]; exact List.mem_cons_self)
    rw [hs]
    simp [Path.isName, hc]
  unfold Path.ofString
  rw [hstart, String.toList_append, splitOn_append h.slash_notMem, hsplit, List.modifyHead_cons,
    List.filter_cons_of_pos hname, List.map_cons, String.ofList_append, String.ofList_toList]

theorem IsStem.ofString_self (h : IsStem s) : Path.ofString s = { names := [s] } :=
  Path.ofString_of_notMem h.slash_notMem h.ne_empty fun he => h.dot_notMem (by rw [he]; decide)

theorem eq_of_matched {cs : List Char} {c : Char} {r : List Char}
    (h : Name.matched cs = c :: r) : cs = c :: r ∨ cs = c :: (r ++ ['\n']) := by
  unfold Name.matched at h
  split at h
  · next hl =>
    have hne : cs ≠ [] := by
      rintro rfl
      cases hl
    have hlast : cs.getLast hne = '\n' := by simpa [List.getLast?_eq_getLast_of_ne_nil hne] using hl
    refine .inr ?_
    rw [← List.cons_append, ← h, ← hlast, List.dropLast_append_getLast]
  · exact .inl h

/-- A name that Java allows can stand in a path. -/
theorem isStem_of_isIdentifier (h : Name.isIdentifier s = true) : IsStem s := by
  have hform : Name.hasIdentifierForm s.toList = true := (Bool.and_eq_true_iff.mp h).1
  unfold Name.hasIdentifierForm at hform
  split at hform
  · cases hform
  · next c r hm =>
    obtain ⟨hc, hr⟩ := Bool.and_eq_true_iff.mp hform
    have hbad : ∀ d, d = '.' ∨ d = '/' → d ∉ s.toList := by
      intro d hd hmem
      have hcd : c ≠ d := by rintro rfl; rcases hd with rfl | rfl <;> revert hc <;> decide
      have hrd : d ∉ r := by
        intro hdr
        have := List.all_eq_true.mp hr d hdr
        rcases hd with rfl | rfl <;> revert this <;> decide
      have hnl : d ≠ '\n' := by rcases hd with rfl | rfl <;> decide
      rcases eq_of_matched hm with he | he <;> rw [he] at hmem <;>
        simp [Ne.symm hcd, hrd, hnl] at hmem
    refine ⟨?_, hbad '.' (.inl rfl), hbad '/' (.inr rfl)⟩
    rintro rfl
    cases hm

/-! ## Directories -/

namespace Layout

theorem up_notMem_foldl {pieces : List (List Char)} (h : ∀ piece ∈ pieces, '.' ∉ piece)
    (hp : ".." ∉ p.names) :
    ".." ∉ (pieces.foldl (fun q cs => q.join (.ofString (String.ofList cs))) p).names := by
  induction pieces generalizing p with
  | nil => exact hp
  | cons piece r ih =>
    refine ih (fun piece hm => h piece (List.mem_cons_of_mem _ hm)) (Path.up_notMem_join hp ?_)
    refine Path.up_notMem_ofString ?_
    rw [String.toList_ofList]
    exact h piece List.mem_cons_self

/-- No package leads upwards. -/
theorem up_notMem_packagePath (anchor package : String) :
    ".." ∉ (packagePath anchor package).names := by
  unfold packagePath
  cases after? ('.' :: anchor.toList ++ ['.']) package.toList with
  | none => exact nofun
  | some tail =>
    show ".." ∉ (ofTail tail).names
    unfold ofTail
    split
    · exact nofun
    · exact up_notMem_foldl (fun piece hm hd => (mem_of_mem_splitOn hm '.' hd).2 rfl) nofun

/-- The file of a class is a name that continues the class, in the directory of the package. -/
theorem file_eq (h : IsStem className) (he : '/' ∉ config.output.extension.toList)
    (root : Path) (package : String) :
    file config root package className =
      (root.join (packagePath config.anchor package)).extend
        [className ++ config.output.extension] := by
  unfold file
  rw [h.ofString he]
  exact Path.join_of_isRelative rfl

/-- The file of a class lies below the output root. -/
theorem up_notMem_file (h : IsStem className) (he : '/' ∉ config.output.extension.toList)
    (hup : ".." ∉ root.names) (package : String) :
    ".." ∉ (file config root package className).names := by
  have hdir : ".." ∉ (root.join (packagePath config.anchor package)).names :=
    Path.up_notMem_join hup (up_notMem_packagePath _ _)
  have hname : className ++ config.output.extension ≠ ".." := h.append_ne (by simp)
  rw [file_eq h he]
  show ".." ∉ _ ++ [className ++ config.output.extension]
  simpa using ⟨hdir, Ne.symm hname⟩

end Layout

/-! ## Jobs -/

/-- The directory that an output root gives to a package. -/
def Layout.directory (config : Config) (root : Path) (package : String) : Location :=
  (root.join (packagePath config.anchor package)).names

/-- A job for the file of a class writes in the directory of the package. -/
theorem targets_of_isStem {job : Output.Job} {package : String} (h : IsStem className)
    (he : '/' ∉ config.output.extension.toList) (habs : root.isAbsolute = true)
    (hup : ".." ∉ root.names) (hpath : job.path = Layout.file config root package className) :
    job.Targets (Layout.directory config root package) (className ++ config.output.extension) where
  isAbsolute := by
    rw [hpath, Layout.file_eq h he, Path.isAbsolute_extend]
    exact Path.isAbsolute_join habs
  names := by
    rw [hpath, Layout.file_eq h he]
    rfl
  up_notMem := by
    have hfile := Layout.up_notMem_file h he hup package
    rwa [Layout.file_eq h he] at hfile
  nonempty := h.append_ne (by simp)

theorem isIdentifier_of_render {a : Artifact} {content : String}
    (h : a.render config = .ok content) : Name.isIdentifier a.className = true := by
  by_contra hn
  unfold Artifact.render Artifact.file Artifact.fileOrCause Artifact.checkAllNames at h
  rw [if_neg hn] at h
  cases h

theorem Artifact.isStem_of_render {a : Artifact} {content : String}
    (h : a.render config = .ok content) : IsStem a.className :=
  isStem_of_isIdentifier (isIdentifier_of_render h)

/-- A draft that can be rendered has a class. -/
theorem Artifact.Draft.exists_stem_of_render {d : Draft} {content : String}
    (h : d.render config = .ok content) :
    ∃ className, d.className = some className ∧ IsStem className := by
  obtain ⟨text, ht⟩ : ∃ text, d.filled.render config = .ok text := by
    unfold Draft.render at h
    cases hr : d.filled.render config with
    | error e => rw [hr] at h; cases h
    | ok text => exact ⟨text, rfl⟩
  have hclass : d.filled.className = d.className.getD "" := rfl
  have hid := isIdentifier_of_render ht
  rw [hclass] at hid
  cases hc : d.className with
  | none =>
    rw [hc] at hid
    exact absurd hid (by decide)
  | some className =>
    rw [hc] at hid
    exact ⟨className, rfl, isStem_of_isIdentifier hid⟩

/-- An output root is absolute and leads nowhere upwards. -/
theorem isAbsolute_of_resolve [Surrogates] (h : disk.resolve p = .ok root) :
    root.isAbsolute = true := by
  unfold Disk.resolve at h
  split at h <;> cases h
  rfl

theorem up_notMem_normalFrom {back names : List String} (h : ".." ∉ back) :
    ".." ∉ Path.normalFrom back names := by
  induction names generalizing back with
  | nil => simpa [Path.normalFrom] using h
  | cons name r ih =>
    unfold Path.normalFrom
    split
    · exact ih fun hm => h (List.mem_of_mem_tail hm)
    · next hne => exact ih (by simpa using ⟨Ne.symm hne, h⟩)

theorem up_notMem_of_resolve [Surrogates] (h : disk.resolve p = .ok root) : ".." ∉ root.names := by
  unfold Disk.resolve at h
  split at h <;> cases h
  exact up_notMem_normalFrom nofun

end DomainCodegen
