import DomainCodegen.Proofs.Packages
import DomainCodegen.Proofs.Schema.Usable

/-!
# Names of artifacts

With the default names, every artifact of a usable tree has a class that can stand in a path, and
stands in a package below the one that the tree is generated for (`named_of_artifacts`). The
artifacts that are generated have different qualified names (`artifacts_of_read`).
-/

namespace DomainCodegen

variable {config : Config} {package q s : String} {cs piece : List Char}

/-! ## Packages -/

theorem IsStem.append (h : IsStem s) {t : String} (hd : '.' ∉ t.toList) (hs : '/' ∉ t.toList) :
    IsStem (s ++ t) where
  ne_empty := h.append_ne (by simp)
  dot_notMem := by
    rw [String.toList_append, List.mem_append]
    exact not_or.mpr ⟨h.dot_notMem, hd⟩
  slash_notMem := by
    rw [String.toList_append, List.mem_append]
    exact not_or.mpr ⟨h.slash_notMem, hs⟩

/-- A character that separates nothing goes to the last piece. -/
theorem splitOn_append_singleton {sep c : Char} (h : c ≠ sep) (cs : List Char) :
    ∃ init last, cs.splitOn sep = init ++ [last] ∧
      (cs ++ [c]).splitOn sep = init ++ [last ++ [c]] := by
  induction cs with
  | nil => exact ⟨[], [], by simp, by simp [List.splitOn_cons_eq_if_modifyHead, h]⟩
  | cons d r ih =>
    obtain ⟨init, last, h1, h2⟩ := ih
    rw [List.cons_append, List.splitOn_cons_eq_if_modifyHead, List.splitOn_cons_eq_if_modifyHead,
      h1, h2]
    by_cases hd : (d == sep) = true
    · rw [if_pos hd, if_pos hd]
      exact ⟨[] :: init, last, rfl, rfl⟩
    · rw [if_neg hd, if_neg hd]
      cases init with
      | nil => exact ⟨[], d :: last, rfl, rfl⟩
      | cons first others => exact ⟨(d :: first) :: others, last, rfl, rfl⟩

/-- A segment consists of small letters and digits. -/
theorem forall_mem_of_isSegment (h : PackageName.isSegment piece = true) :
    ∀ c ∈ piece, (c.isLower || c.isDigit) = true := by
  cases piece with
  | nil => cases h
  | cons c r =>
    obtain ⟨hc, hr⟩ := Bool.and_eq_true_iff.mp h
    exact List.forall_mem_cons.mpr ⟨by rw [hc, Bool.true_or], List.all_eq_true.mp hr⟩

theorem isStem_of_isSegment (h : PackageName.isSegment piece = true) {more : List Char}
    (hm : ∀ c ∈ more, c = '\n') : IsStem (String.ofList (piece ++ more)) := by
  have hne : piece ≠ [] := by
    rintro rfl
    cases h
  have hbad : ∀ d, d = '.' ∨ d = '/' → d ∉ piece ++ more := by
    intro d hd hmem
    rcases List.mem_append.mp hmem with hmem | hmem
    · have hlow := forall_mem_of_isSegment h d hmem
      rcases hd with rfl | rfl <;> revert hlow <;> decide
    · have hfeed := hm d hmem
      rcases hd with rfl | rfl <;> revert hfeed <;> decide
  refine ⟨?_, ?_, ?_⟩
  · simp [hne]
  · rw [String.toList_ofList]
    exact hbad '.' (.inl rfl)
  · rw [String.toList_ofList]
    exact hbad '/' (.inr rfl)

/-- The segments of a package name can stand in a path. -/
theorem isPlain_of_isValid (h : PackageName.isValid s = true) : IsPlain s := by
  intro piece hp
  have hall : ∀ piece ∈ (Name.matched s.toList).splitOn '.', PackageName.isSegment piece = true :=
    List.all_eq_true.mp h
  unfold Name.matched at hall
  split at hall
  · next hl =>
    have hne : s.toList ≠ [] := by
      intro hn
      rw [hn] at hl
      cases hl
    have hlast : s.toList.getLast hne = '\n' := by
      simpa [List.getLast?_eq_getLast_of_ne_nil hne] using hl
    have hs : s.toList = s.toList.dropLast ++ ['\n'] := by
      rw [← hlast, List.dropLast_append_getLast]
    have hc : '\n' ≠ '.' := by decide
    obtain ⟨init, last, h1, h2⟩ := splitOn_append_singleton hc s.toList.dropLast
    rw [h1] at hall
    rw [hs, h2] at hp
    rcases List.mem_append.mp hp with hp | hp
    · have hseg : IsStem (String.ofList (piece ++ [])) :=
        isStem_of_isSegment (hall piece (List.mem_append_left _ hp)) nofun
      rwa [List.append_nil] at hseg
    · obtain rfl := List.mem_singleton.mp hp
      exact isStem_of_isSegment (hall last (by simp)) (by simp)
  · have hseg : IsStem (String.ofList (piece ++ [])) := isStem_of_isSegment (hall piece hp) nofun
    rwa [List.append_nil] at hseg

theorem flatMap_splitOn (cs : List Char) :
    (cs.splitOn '.').flatMap (fun piece => '.' :: piece) = '.' :: cs := by
  induction cs with
  | nil => simp
  | cons c r ih =>
    rw [List.splitOn_cons_eq_if_modifyHead]
    split
    · next hc =>
      rw [List.flatMap_cons, ih, eq_of_beq hc]
      rfl
    · cases hr : r.splitOn '.' with
      | nil => exact absurd hr (List.splitOn_ne_nil '.' r)
      | cons first others =>
        rw [hr, List.flatMap_cons] at ih
        rw [List.modifyHead_cons, List.flatMap_cons]
        simpa using ih

/-- A package that another one is below, or the package itself. -/
def IsBelow (package q : String) : Prop :=
  ∃ segments, (∀ s ∈ segments, IsStem s) ∧ q = below package segments

theorem isBelow_self (package : String) : IsBelow package package := ⟨[], nofun, rfl⟩

theorem IsBelow.segment (h : IsBelow package q) (hs : IsStem s) :
    IsBelow package (q ++ "." ++ s) := by
  obtain ⟨segments, hall, rfl⟩ := h
  refine ⟨segments ++ [s], ?_, ?_⟩
  · intro t ht
    rcases List.mem_append.mp ht with ht | ht
    · exact hall t ht
    · rwa [List.mem_singleton.mp ht]
  · rw [← below_append]
    rfl

theorem IsBelow.isPlain (h : IsBelow package q) (hp : IsPlain package) : IsPlain q := by
  obtain ⟨segments, hall, rfl⟩ := h
  exact hp.below hall

theorem IsBelow.subPackage (h : IsBelow package q) (hs : PackageName.isValid s = true) :
    IsBelow package (q ++ "." ++ s) := by
  obtain ⟨segments, hall, rfl⟩ := h
  refine ⟨segments ++ (s.toList.splitOn '.').map String.ofList, ?_, ?_⟩
  · intro t ht
    rcases List.mem_append.mp ht with ht | ht
    · exact hall t ht
    · obtain ⟨piece, hp, rfl⟩ := List.mem_map.mp ht
      exact isPlain_of_isValid hs piece hp
  · rw [← below_append, ← String.toList_inj, toList_below]
    have hd : dotted ((s.toList.splitOn '.').map String.ofList) = '.' :: s.toList := by
      rw [← flatMap_splitOn, dotted, List.flatMap_map]
      simp
    rw [hd]
    simp

/-! ## Artifacts of a tree -/

/-- The settings that decide names and places have their defaults. -/
structure Config.Standard (config : Config) : Prop where
  anchor : config.anchor = ({} : Config).anchor
  valuePackage : config.valuePackage = ({} : Config).valuePackage
  rootSuffix : config.rootSuffix = ({} : Config).rootSuffix
  entitySuffix : config.entitySuffix = ({} : Config).entitySuffix
  idSuffix : config.idSuffix = ({} : Config).idSuffix
  serialSuffix : config.serialSuffix = ({} : Config).serialSuffix
  extension : config.output.extension = ({} : Config).output.extension

theorem standard_default : ({} : Config).Standard := ⟨rfl, rfl, rfl, rfl, rfl, rfl, rfl⟩

/-- A class that can stand in a path, in a package below another one. -/
structure Artifact.Named (package : String) (a : Artifact) : Prop where
  className : IsStem a.className
  package : IsBelow package a.package

namespace Schema

variable {v : ValueObject} {node : Node} {a : Artifact} {info : Info}

theorem isBelow_valuePackageOf (hc : config.Standard) (h : IsBelow package q) :
    IsBelow package (config.valuePackageOf q) := by
  unfold Config.valuePackageOf
  rw [hc.valuePackage]
  exact h.segment ⟨by decide, by decide, by decide⟩

theorem isBelow_childPackage (h : IsBelow package q) {sub : Option String}
    (hsub : ∀ s ∈ sub, PackageName.isValid s = true) : IsBelow package (childPackage q sub) := by
  unfold Schema.childPackage
  split
  · next s =>
    split
    · exact h
    · exact h.subPackage (hsub s rfl)
  · exact h

theorem Info.Usable.className (h : info.Usable) : IsStem (Name.className info.name) :=
  isStem_of_isIdentifier h.classAllowed

theorem artifactsOfParts_eq (q : String) (parts : List ValueObject) :
    artifactsOfParts q parts = parts.flatMap (ValueObject.artifacts q) := by
  induction parts with
  | nil => rfl
  | cons part r ih => rw [artifactsOfParts, ih, List.flatMap_cons]

theorem mem_artifactsOfParts {parts : List ValueObject} :
    a ∈ artifactsOfParts q parts ↔ ∃ part ∈ parts, a ∈ part.artifacts q := by
  rw [artifactsOfParts_eq, List.mem_flatMap]

/-- The package that the artifacts of a member of an entity are made for. -/
def Node.packageIn (q : String) : Node → String
  | .value _ => q
  | .entity _ _ sub _ => childPackage q sub

theorem artifactsOfMembers_eq (config : Config) (q : String) (members : List Node) :
    artifactsOfMembers config q members =
      members.flatMap fun m => m.artifacts config (m.packageIn q) := by
  induction members with
  | nil => rfl
  | cons m r ih => cases m <;> simp [artifactsOfMembers, Node.packageIn, ih]

theorem mem_artifactsOfMembers {members : List Node} :
    a ∈ artifactsOfMembers config q members ↔
      ∃ m ∈ members, a ∈ m.artifacts config (m.packageIn q) := by
  rw [artifactsOfMembers_eq, List.mem_flatMap]

theorem named_of_valueObject (hv : v.Usable) (hq : IsBelow package q) :
    ∀ a ∈ v.artifacts q, a.Named package := by
  induction hv with
  | leaf hi primitive =>
    intro a ha
    obtain rfl : a = _ := by simpa [ValueObject.artifacts] using ha
    exact ⟨hi.className, hq⟩
  | composite hi hparts ih =>
    intro a ha
    rw [ValueObject.artifacts, List.mem_cons, mem_artifactsOfParts] at ha
    rcases ha with rfl | ⟨part, hp, ha⟩
    · exact ⟨hi.className, hq⟩
    · exact ih part hp a ha
  | enumeration hi variants =>
    intro a ha
    obtain rfl : a = _ := by simpa [ValueObject.artifacts] using ha
    exact ⟨hi.className, hq⟩

theorem isBelow_packageIn (h : IsBelow package q) (hn : node.Usable) :
    IsBelow package (node.packageIn q) := by
  cases hn with
  | value => exact h
  | entity _ _ hsub _ => exact isBelow_childPackage h hsub

theorem isStem_entityClass (hc : config.Standard) (hi : info.Usable) (isRoot : Bool) :
    IsStem (config.entityClass info.name isRoot) := by
  unfold Config.entityClass
  rw [hc.rootSuffix, hc.entitySuffix]
  cases isRoot
  · exact hi.className.append (by decide) (by decide)
  · exact hi.className.append (by decide) (by decide)

theorem isStem_idClass (hc : config.Standard) (hi : info.Usable) :
    IsStem (config.idClass info.name) := by
  unfold Config.idClass
  rw [hc.idSuffix]
  exact hi.className.append (by decide) (by decide)

theorem isStem_serialClass (hc : config.Standard) (hi : info.Usable) :
    IsStem (config.serialClass info.name) := by
  unfold Config.serialClass
  rw [hc.serialSuffix]
  exact hi.className.append (by decide) (by decide)

/-- All artifacts of a usable node are named well. -/
theorem named_of_artifacts (hc : config.Standard) (hn : node.Usable) (hq : IsBelow package q) :
    ∀ a ∈ node.artifacts config q, a.Named package := by
  induction hn generalizing q with
  | value hv => exact named_of_valueObject hv (isBelow_valuePackageOf hc hq)
  | entity hi isRoot hsub hmembers ih =>
    have hvalue := isBelow_valuePackageOf hc hq
    intro a ha
    rw [Node.artifacts, List.mem_cons, List.mem_cons, List.mem_cons, mem_artifactsOfMembers] at ha
    rcases ha with rfl | rfl | rfl | ⟨m, hm, ha⟩
    · exact ⟨isStem_entityClass hc hi isRoot, hq⟩
    · exact ⟨isStem_idClass hc hi, hvalue⟩
    · exact ⟨isStem_serialClass hc hi, hvalue⟩
    · exact ih m hm (isBelow_packageIn hq (hmembers m hm)) a ha

end Schema

/-! ## Qualified names -/

namespace Artifact

theorem nodup_of_firstDouble {seen all : List Artifact} (h : firstDouble seen all = none) :
    (∀ a ∈ all, ∀ b ∈ seen, b.key ≠ a.key) ∧ (all.map key).Nodup := by
  induction all generalizing seen with
  | nil => exact ⟨nofun, List.nodup_nil⟩
  | cons a r ih =>
    unfold firstDouble at h
    split at h
    · cases h
    · next hf =>
      obtain ⟨hseen, hr⟩ := ih h
      have ha : ∀ b ∈ seen, b.key ≠ a.key := by simpa using List.find?_eq_none.mp hf
      refine ⟨List.forall_mem_cons.mpr ⟨ha, fun c hc b hb => ?_⟩, ?_⟩
      · exact hseen c hc b (List.mem_append_left _ hb)
      · rw [List.map_cons, List.nodup_cons]
        refine ⟨fun hm => ?_, hr⟩
        obtain ⟨c, hc, he⟩ := List.mem_map.mp hm
        exact hseen c hc a (by simp) he.symm

end Artifact

/-- What is generated for a tree are the artifacts of its root, if no two have one key. -/
theorem Schema.Tree.artifacts_eq_ok {tree : Schema.Tree} {artifacts : List Artifact}
    (h : tree.artifacts config package = .ok artifacts) :
    artifacts = tree.node.artifacts config package ∧ (artifacts.map Artifact.key).Nodup := by
  unfold Schema.Tree.artifacts at h
  dsimp only at h
  split at h
  · cases h
  · next hd =>
    cases h
    exact ⟨rfl, (Artifact.nodup_of_firstDouble hd).2⟩

/-- What is generated for a tree that was read: well-named artifacts with different names. -/
theorem artifacts_of_read [Surrogates] {doc : Json} {tree : Schema.Tree} {artifacts : List Artifact}
    (hc : config.Standard) (hr : Schema.Tree.read doc = .ok tree)
    (h : tree.artifacts config package = .ok artifacts) :
    (∀ a ∈ artifacts, a.Named package) ∧ (artifacts.map Artifact.key).Nodup := by
  obtain ⟨rfl, hnodup⟩ := Schema.Tree.artifacts_eq_ok h
  exact ⟨Schema.named_of_artifacts hc (Schema.usable_of_read hr) (isBelow_self package), hnodup⟩

end DomainCodegen
