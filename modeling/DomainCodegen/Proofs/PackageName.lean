import DomainCodegen.Generation
import DomainCodegen.Proofs.Artifact.Flattening
import DomainCodegen.Proofs.Generation.Fresh

/-!
# The grammar of package names

A package name is made of segments that are joined by single dots, and a segment of a small letter
with small letters and digits behind it (`IsDotted`). One line feed at the end of a text is not
looked at, so a text is valid if it is dotted, or dotted with a line feed behind it
(`isValid_iff`). The packages of artifacts therefore consist of segments that can end in a line
feed, and they are dotted as soon as no package name and no sub-package has one
(`packages_accepted`).
-/

namespace DomainCodegen

namespace PackageName

variable {P Q : String → Prop} {s t : String} {segments : List String} {c : Char}

/-! ## Texts joined by dots -/

/-- A small letter, with small letters and digits behind it. -/
def IsSegment (s : String) : Prop :=
  ∃ c r, s.toList = c :: r ∧ ('a' ≤ c ∧ c ≤ 'z') ∧
    ∀ d ∈ r, ('a' ≤ d ∧ d ≤ 'z') ∨ ('0' ≤ d ∧ d ≤ '9')

/-- Texts with a property, at least one of them, joined by single dots. -/
def Joined (P : String → Prop) (s : String) : Prop :=
  ∃ segments, segments ≠ [] ∧ (∀ t ∈ segments, P t) ∧ s = ".".intercalate segments

/-- Segments that are joined by single dots. -/
def IsDotted : String → Prop := Joined IsSegment

/-- A text with a property, or such a text with a line feed behind it. -/
def UpToFeed (P : String → Prop) (s : String) : Prop := P s ∨ ∃ t, P t ∧ s = t ++ "\n"

theorem mem_intercalate (h : c ∈ (".".intercalate segments).toList) :
    c = '.' ∨ ∃ t ∈ segments, c ∈ t.toList := by
  induction segments with
  | nil => simp at h
  | cons t r ih =>
    cases r with
    | nil =>
      rw [String.intercalate_singleton] at h
      exact .inr ⟨t, List.mem_cons_self, h⟩
    | cons u r =>
      rw [String.intercalate_cons_cons, String.toList_append, String.toList_append,
        List.mem_append, List.mem_append] at h
      rcases h with (h | h) | h
      · exact .inr ⟨t, List.mem_cons_self, h⟩
      · exact .inl (by simpa using h)
      · obtain hdot | ⟨v, hv, hc⟩ := ih h
        · exact .inl hdot
        · exact .inr ⟨v, List.mem_cons_of_mem _ hv, hc⟩

theorem mem_intercalate_of_mem (ht : t ∈ segments) (hc : c ∈ t.toList) :
    c ∈ (".".intercalate segments).toList := by
  induction segments with
  | nil => cases ht
  | cons u r ih =>
    cases r with
    | nil =>
      rw [String.intercalate_singleton]
      rwa [← List.mem_singleton.mp ht]
    | cons v r =>
      rw [String.intercalate_cons_cons, String.toList_append, List.mem_append,
        String.toList_append, List.mem_append]
      rcases List.mem_cons.mp ht with rfl | ht
      · exact .inl (.inl hc)
      · exact .inr (ih ht)

theorem Joined.single (h : P s) : Joined P s :=
  ⟨[s], List.cons_ne_nil _ _, List.forall_mem_singleton.mpr h, String.intercalate_singleton.symm⟩

/-- What is joined of joined texts is joined of their parts. -/
theorem Joined.flatten (h : Joined (Joined P) s) : Joined P s := by
  obtain ⟨segments, hne, hall, rfl⟩ := h
  induction segments with
  | nil => exact absurd rfl hne
  | cons t r ih =>
    obtain ⟨ht, hr⟩ := List.forall_mem_cons.mp hall
    cases r with
    | nil => rwa [String.intercalate_singleton]
    | cons u r =>
      obtain ⟨first, hfirst, hP, rfl⟩ := ht
      obtain ⟨others, hothers, hQ, heq⟩ := ih (List.cons_ne_nil _ _) hr
      refine ⟨first ++ others, List.append_ne_nil_of_left_ne_nil hfirst _, ?_, ?_⟩
      · exact List.forall_mem_append.mpr ⟨hP, hQ⟩
      · rw [String.intercalate_cons_cons, heq,
          String.intercalate_append_of_ne_nil hfirst hothers]

theorem intercalate_append_feed (init : List String) (last : String) :
    ".".intercalate (init ++ [last]) ++ "\n" = ".".intercalate (init ++ [last ++ "\n"]) := by
  cases init with
  | nil => rw [List.nil_append, String.intercalate_singleton, List.nil_append,
      String.intercalate_singleton]
  | cons t r =>
    rw [String.intercalate_append_of_ne_nil (List.cons_ne_nil _ _) (List.cons_ne_nil _ _),
      String.intercalate_append_of_ne_nil (List.cons_ne_nil _ _) (List.cons_ne_nil _ _),
      String.intercalate_singleton, String.intercalate_singleton, String.append_assoc]

/-- A line feed behind joined texts stands behind the last of them. -/
theorem joined_of_upToFeed (h : UpToFeed (Joined P) s) : Joined (UpToFeed P) s := by
  rcases h with ⟨segments, hne, hall, rfl⟩ | ⟨t, ⟨segments, hne, hall, rfl⟩, rfl⟩
  · exact ⟨segments, hne, fun t ht => .inl (hall t ht), rfl⟩
  · obtain ⟨init, last, rfl⟩ : ∃ init last, segments = init ++ [last] :=
      ⟨_, _, (List.dropLast_append_getLast hne).symm⟩
    obtain ⟨hinit, hlast⟩ := List.forall_mem_append.mp hall
    refine ⟨init ++ [last ++ "\n"], by simp, ?_, intercalate_append_feed init last⟩
    refine List.forall_mem_append.mpr ⟨fun t ht => .inl (hinit t ht), ?_⟩
    exact List.forall_mem_singleton.mpr (.inr ⟨last, hlast last List.mem_cons_self, rfl⟩)

theorem mem_append_feed (t : String) : '\n' ∈ (t ++ "\n").toList := by simp

/-- Without a line feed in it, a text is joined of texts that do not end in one. -/
theorem Joined.of_notMem (h : Joined (UpToFeed P) s) (hs : '\n' ∉ s.toList) : Joined P s := by
  obtain ⟨segments, hne, hall, rfl⟩ := h
  refine ⟨segments, hne, fun t ht => ?_, rfl⟩
  rcases hall t ht with hP | ⟨u, -, rfl⟩
  · exact hP
  · exact absurd (mem_intercalate_of_mem ht (mem_append_feed u)) hs

/-! ## Valid texts -/

theorem isLower_iff : c.isLower = true ↔ 'a' ≤ c ∧ c ≤ 'z' := by
  show (decide ('a'.val ≤ c.val) && decide (c.val ≤ 'z'.val)) = true ↔ _
  rw [Bool.and_eq_true, decide_eq_true_iff, decide_eq_true_iff]
  rfl

theorem isDigit_iff : c.isDigit = true ↔ '0' ≤ c ∧ c ≤ '9' := by
  show (decide ('0'.val ≤ c.val) && decide (c.val ≤ '9'.val)) = true ↔ _
  rw [Bool.and_eq_true, decide_eq_true_iff, decide_eq_true_iff]
  rfl

theorem isSegment_iff : isSegment s.toList = true ↔ IsSegment s := by
  unfold IsSegment
  cases hs : s.toList with
  | nil => simp [isSegment]
  | cons c r =>
    simp only [isSegment, Bool.and_eq_true, List.all_eq_true, Bool.or_eq_true, isLower_iff,
      isDigit_iff, List.cons.injEq]
    constructor
    · rintro ⟨hc, hr⟩
      exact ⟨c, r, ⟨rfl, rfl⟩, hc, hr⟩
    · rintro ⟨_, _, ⟨rfl, rfl⟩, hc, hr⟩
      exact ⟨hc, hr⟩

theorem IsSegment.notMem (h : IsSegment s) (hl : c.isLower = false) (hd : c.isDigit = false) :
    c ∉ s.toList := by
  intro hc
  have hlow := forall_mem_of_isSegment (isSegment_iff.mpr h) c hc
  rw [hl, hd] at hlow
  cases hlow

theorem IsDotted.feed_notMem (h : IsDotted s) : '\n' ∉ s.toList := by
  obtain ⟨segments, -, hall, rfl⟩ := h
  intro hm
  rcases mem_intercalate hm with hdot | ⟨t, ht, hc⟩
  · revert hdot
    decide
  · exact (hall t ht).notMem (by decide) (by decide) hc

/-- The pieces between the dots of a text have a property of texts without dots if and only if the
text is joined of texts with this property. -/
theorem forall_pieces_iff (hdot : ∀ t, P t → '.' ∉ t.toList) :
    (∀ piece ∈ s.toList.splitOn '.', P (String.ofList piece)) ↔ Joined P s := by
  have hsep : ".".toList = ['.'] := by decide
  constructor
  · intro h
    refine ⟨(s.toList.splitOn '.').map String.ofList, ?_, List.forall_mem_map.mpr h, ?_⟩
    · intro hn
      exact List.splitOn_ne_nil _ _ (List.map_eq_nil_iff.mp hn)
    · have hback : ((s.toList.splitOn '.').map String.ofList).map String.toList =
          s.toList.splitOn '.' := by simp [Function.comp_def]
      rw [← String.toList_inj, String.toList_intercalate, hsep, hback, List.intercalate_splitOn]
  · rintro ⟨segments, hne, hall, rfl⟩
    have hfree : ∀ piece ∈ segments.map String.toList, '.' ∉ piece :=
      List.forall_mem_map.mpr fun t ht => hdot t (hall t ht)
    intro piece hp
    rw [String.toList_intercalate, hsep,
      List.splitOn_intercalate '.' hfree (mt List.map_eq_nil_iff.mp hne)] at hp
    obtain ⟨t, ht, rfl⟩ := List.mem_map.mp hp
    rw [String.ofList_toList]
    exact hall t ht

/-- The pieces between the dots of a text are segments if and only if the text is dotted. -/
theorem all_isSegment_iff : (s.toList.splitOn '.').all isSegment = true ↔ IsDotted s := by
  unfold IsDotted
  rw [List.all_eq_true, ← forall_pieces_iff fun t ht => ht.notMem (by decide) (by decide)]
  simp only [← isSegment_iff, String.toList_ofList]

/-- The valid texts are the dotted ones, with or without a line feed at the end. -/
theorem isValid_iff : isValid s = true ↔ UpToFeed IsDotted s := by
  unfold isValid isValidChars Name.matched
  split
  · next hl =>
    have hs : s = String.ofList s.toList.dropLast ++ "\n" := by
      rw [← String.toList_inj, String.toList_append, String.toList_ofList]
      exact (List.dropLast_append_getLast? _ hl).symm
    have hfeed : '\n' ∈ s.toList := List.mem_of_getLast? hl
    rw [← String.toList_ofList (l := s.toList.dropLast), all_isSegment_iff]
    constructor
    · exact fun h => .inr ⟨_, h, hs⟩
    · rintro (h | ⟨t, ht, heq⟩)
      · exact absurd hfeed h.feed_notMem
      · rw [heq] at hs ⊢
        simpa using ht
  · next hl =>
    rw [all_isSegment_iff]
    constructor
    · exact .inl
    · rintro (h | ⟨t, -, rfl⟩)
      · exact h
      · exact absurd (by simp) hl

/-- A value is a package name if it is a valid text. -/
theorem ofJson_eq_ok_iff [Surrogates] {value : Json} {name : String} :
    ofJson value = .ok name ↔ value = .string name ∧ UpToFeed IsDotted name := by
  rw [← isValid_iff]
  cases value with
  | string s =>
    unfold ofJson
    dsimp only
    constructor
    · intro h
      split at h
      · next hv =>
        cases h
        exact ⟨rfl, hv⟩
      · cases h
    · rintro ⟨heq, hv⟩
      cases heq
      rw [if_pos hv]
  | _ => exact ⟨nofun, nofun⟩

end PackageName

/-! ## Packages of artifacts -/

namespace Schema

open PackageName

variable {config : Config} {doc : Json} {place : Place} {package : String} {sub : Option String}
  {trail : List Node} {node : Node} {v : ValueObject} {s : Spot} {a : Artifact}

/-- The sub-package that a document asks for: none if the key is absent or `null`. -/
def AsksFor (doc : Json) : Option String → Prop
  | none => doc.get? "subPackage" = none ∨ doc.get? "subPackage" = some .null
  | some s => doc.get? "subPackage" = some (.string s) ∧ UpToFeed IsDotted s

theorem readSubPackage_eq_ok_iff : readSubPackage doc place = .ok sub ↔ AsksFor doc sub := by
  unfold readSubPackage
  cases hget : doc.get? "subPackage" with
  | none => cases sub <;> simp [AsksFor, hget]
  | some given =>
    cases given with
    | null => cases sub <;> simp [AsksFor, hget]
    | string s =>
      show (if isValid s then Except.ok (some s) else .error _) = .ok sub ↔ _
      cases sub with
      | none =>
        have hnot : ¬ AsksFor doc none := by simp [AsksFor, hget]
        refine iff_of_false ?_ hnot
        split <;> exact nofun
      | some t =>
        have hasks : AsksFor doc (some t) ↔ s = t ∧ isValid t = true := by
          simp [AsksFor, hget, isValid_iff]
        rw [hasks]
        by_cases hv : isValid s = true
        · rw [if_pos hv]
          refine ⟨fun h => ?_, fun ⟨heq, _⟩ => heq ▸ rfl⟩
          cases h
          exact ⟨rfl, hv⟩
        · rw [if_neg hv]
          exact iff_of_false nofun fun ⟨heq, ht⟩ => hv (heq ▸ ht)
    | _ => cases sub <;> simp [AsksFor, hget]

/-- A simple entity whose head and members are read is accepted with the sub-packages that it asks
for. -/
theorem readNode_eq_ok_iff [Surrogates] {info : Info} {docs : List Json} {members : List Node}
    (hh : readHead doc place = .ok (.simpleEntity, info)) (hdocs : attributes? doc = some docs)
    (hmembers : readChildren .entity place 0 docs = .ok members) :
    readNode doc place = .ok node ↔
      ∃ sub, node = .entity info false sub members ∧ AsksFor doc sub := by
  rw [readNode_of_simpleEntity hh hdocs hmembers, map_eq_ok_iff]
  constructor
  · rintro ⟨sub, hsub, rfl⟩
    exact ⟨sub, rfl, readSubPackage_eq_ok_iff.mp hsub⟩
  · rintro ⟨sub, rfl, hsub⟩
    exact ⟨sub, readSubPackage_eq_ok_iff.mpr hsub, rfl⟩

theorem below_eq_intercalate (package : String) (segments : List String) :
    below package segments = ".".intercalate (package :: segments) := by
  induction segments generalizing package with
  | nil =>
    rw [String.intercalate_singleton]
    rfl
  | cons s r ih =>
    show below (package ++ "." ++ s) r = _
    rw [ih, String.intercalate_cons_cons, String.intercalate_cons_append]

theorem ValueObject.subPackage?_of_mem_trail (hs : s ∈ v.spots trail) :
    ∀ n ∈ s.trail, n ∈ trail ∨ n.subPackage? = none := by
  induction v using ValueObject.induction generalizing trail with
  | leaf info primitive =>
    obtain rfl := List.mem_singleton.mp hs
    exact fun n hn => .inl hn
  | enumeration info variants =>
    obtain rfl := List.mem_singleton.mp hs
    exact fun n hn => .inl hn
  | composite info parts ih =>
    rw [spots, spotsOfParts_eq, List.mem_cons, List.mem_flatMap] at hs
    rcases hs with rfl | ⟨part, hp, hs⟩
    · exact fun n hn => .inl hn
    · intro n hn
      rcases ih part hp hs n hn with hn | hnone
      · rcases List.mem_append.mp hn with hn | hn
        · exact .inl hn
        · obtain rfl := List.mem_singleton.mp hn
          exact .inr rfl
      · exact .inr hnone

/-- The sub-packages on the way to a node are valid. -/
theorem Node.Usable.isValid_of_mem_trail (hn : node.Usable) (hs : s ∈ node.spots trail) :
    ∀ n ∈ s.trail, n ∈ trail ∨ ∀ sub ∈ n.subPackage?, isValid sub = true := by
  induction hn generalizing trail with
  | value hv =>
    intro n hn
    refine (ValueObject.subPackage?_of_mem_trail hs n hn).imp id fun hnone => ?_
    rw [hnone]
    exact nofun
  | entity hi isRoot hsub hmembers ih =>
    rw [spots, spotsOfMembers_eq, List.mem_cons, List.mem_flatMap] at hs
    rcases hs with rfl | ⟨m, hm, hs⟩
    · exact fun n hn => .inl hn
    · intro n hn
      rcases ih m hm hs n hn with hn | hvalid
      · rcases List.mem_append.mp hn with hn | hn
        · exact .inl hn
        · obtain rfl := List.mem_singleton.mp hn
          refine .inr fun sub hs => ?_
          cases hmembers n hm with
          | value => cases hs
          | entity _ _ hsub _ => exact hsub sub (Option.filter_eq_some_iff.mp hs).1
      · exact .inr hvalid

theorem Tree.isValid_of_mem_trail {tree : Tree} (h : tree.node.Usable) (hs : s ∈ tree.spots) :
    ∀ n ∈ s.trail, ∀ sub ∈ n.subPackage?, isValid sub = true := fun n hn =>
  (h.isValid_of_mem_trail hs n hn).resolve_left List.not_mem_nil

theorem Spot.package_of_mem (ha : a ∈ s.artifacts config package) :
    a.package = s.home package ∨ a.package = config.valuePackageOf (s.home package) := by
  obtain ⟨trail, node⟩ := s
  cases node with
  | value v =>
    obtain rfl := List.mem_singleton.mp ha
    exact .inr (by cases v <;> rfl)
  | entity info isRoot sub members =>
    have ha : a = _ ∨ a ∈ [_, _] := List.mem_cons.mp ha
    rcases ha with rfl | ha
    · exact .inl rfl
    · rcases List.mem_pair.mp ha with rfl | rfl
      · exact .inr rfl
      · exact .inr rfl

/-- A line feed in the package of a node comes from the package of the tree or from a sub-package on
the way to the node. -/
theorem Spot.feed_notMem_home :
    '\n' ∉ (s.home package).toList ↔
      '\n' ∉ package.toList ∧ ∀ n ∈ s.trail, ∀ sub ∈ n.subPackage?, '\n' ∉ sub.toList := by
  rw [home, homeOf, below_eq_intercalate]
  constructor
  · intro h
    refine ⟨fun hm => h (mem_intercalate_of_mem List.mem_cons_self hm), fun n hn sub hs hm => ?_⟩
    have hsub : sub ∈ s.trail.filterMap Node.subPackage? := List.mem_filterMap.mpr ⟨n, hn, hs⟩
    exact h (mem_intercalate_of_mem (List.mem_cons_of_mem _ hsub) hm)
  · rintro ⟨hp, hall⟩ hm
    rcases mem_intercalate hm with hdot | ⟨t, ht, hmt⟩
    · revert hdot
      decide
    · rcases List.mem_cons.mp ht with rfl | ht
      · exact hp hmt
      · obtain ⟨n, hn, hs⟩ := List.mem_filterMap.mp ht
        exact hall n hn t hs hmt

theorem joined_of_isValid {t : String} (h : isValid t = true) : Joined (UpToFeed IsSegment) t :=
  joined_of_upToFeed (isValid_iff.mp h)

theorem Spot.joined_home (hp : isValid package = true)
    (hsub : ∀ n ∈ s.trail, ∀ sub ∈ n.subPackage?, isValid sub = true) :
    Joined (UpToFeed IsSegment) (s.home package) := by
  refine Joined.flatten ⟨package :: s.trail.filterMap Node.subPackage?, List.cons_ne_nil _ _,
    List.forall_mem_cons.mpr ⟨joined_of_isValid hp, fun t ht => ?_⟩, below_eq_intercalate _ _⟩
  obtain ⟨n, hn, hs⟩ := List.mem_filterMap.mp ht
  exact joined_of_isValid (hsub n hn t hs)

/-- The value package of a package continues it by one segment. -/
theorem joined_valuePackageOf (hc : config.Standard) {q : String}
    (h : Joined (UpToFeed IsSegment) q) :
    Joined (UpToFeed IsSegment) (config.valuePackageOf q) := by
  have hvalue : IsSegment config.valuePackage := by
    rw [hc.valuePackage]
    exact isSegment_iff.mp (by decide)
  refine Joined.flatten ⟨[q, config.valuePackage], List.cons_ne_nil _ _, ?_, ?_⟩
  · exact List.forall_mem_cons.mpr ⟨h, List.forall_mem_singleton.mpr (.single (.inl hvalue))⟩
  · rw [String.intercalate_cons_cons, String.intercalate_singleton]
    rfl

theorem feed_notMem_valuePackageOf (hc : config.Standard) {q : String} :
    '\n' ∉ (config.valuePackageOf q).toList ↔ '\n' ∉ q.toList := by
  unfold Config.valuePackageOf
  rw [hc.valuePackage, String.toList_append, String.toList_append, List.mem_append, List.mem_append,
    not_or, not_or]
  exact ⟨fun h => h.1.1, fun h => ⟨⟨h, by decide⟩, by decide⟩⟩

theorem Spot.feed_notMem_package (hc : config.Standard) (ha : a ∈ s.artifacts config package) :
    '\n' ∉ a.package.toList ↔ '\n' ∉ (s.home package).toList := by
  rcases package_of_mem ha with heq | heq
  · rw [heq]
  · rw [heq]
    exact feed_notMem_valuePackageOf hc

theorem Spot.joined_package (hc : config.Standard) (hp : isValid package = true)
    (hsub : ∀ n ∈ s.trail, ∀ sub ∈ n.subPackage?, isValid sub = true)
    (ha : a ∈ s.artifacts config package) : Joined (UpToFeed IsSegment) a.package := by
  rcases package_of_mem ha with heq | heq
  · rw [heq]
    exact joined_home hp hsub
  · rw [heq]
    exact joined_valuePackageOf hc (joined_home hp hsub)

/-- The packages of the artifacts of a usable tree are joined of segments that can end in a line
feed. They are dotted if and only if neither the package of the tree nor a sub-package on the way to
a node has a line feed. -/
theorem Tree.packages_joined {tree : Tree} (hc : config.Standard) (h : tree.node.Usable)
    (hp : isValid package = true) :
    (∀ a ∈ tree.node.artifacts config package, Joined (UpToFeed IsSegment) a.package) ∧
      ((∀ a ∈ tree.node.artifacts config package, IsDotted a.package) ↔
        '\n' ∉ package.toList ∧
          ∀ s ∈ tree.spots, ∀ n ∈ s.trail, ∀ sub ∈ n.subPackage?, '\n' ∉ sub.toList) := by
  have hall : ∀ s ∈ tree.spots, ∀ a ∈ s.artifacts config package,
      Joined (UpToFeed IsSegment) a.package :=
    fun s hs a ha => Spot.joined_package hc hp (Tree.isValid_of_mem_trail h hs) ha
  simp only [tree.artifacts_eq_flatMap, List.mem_flatMap, forall_exists_index, and_imp]
  refine ⟨fun a s hs ha => hall s hs a ha, fun hdotted => ?_, ?_⟩
  · have hhome : ∀ s ∈ tree.spots, '\n' ∉ (s.home package).toList := fun s hs =>
      (Spot.feed_notMem_package hc List.mem_cons_self).mp
        (hdotted _ s hs List.mem_cons_self).feed_notMem
    have hroot : ⟨[], tree.node⟩ ∈ tree.spots := tree.node.head_spots []
    exact ⟨(Spot.feed_notMem_home.mp (hhome _ hroot)).1,
      fun s hs => (Spot.feed_notMem_home.mp (hhome s hs)).2⟩
  · rintro ⟨hpackage, hsubs⟩ a s hs ha
    have hhome := Spot.feed_notMem_home.mpr ⟨hpackage, hsubs s hs⟩
    exact (hall s hs a ha).of_notMem ((Spot.feed_notMem_package hc ha).mpr hhome)

end Schema

open PackageName Schema

/-- Which package names and sub-packages are accepted, and what the packages of a plan are then. A
text is accepted if it is dotted, or dotted with a line feed behind it, and a sub-package can also
be absent. All packages are joined of segments, a line feed can stand only behind a segment, and
without one in what was accepted all packages are dotted. -/
theorem packages_accepted [Surrogates] (doc value : Json) (place : Place) :
    (∀ name, PackageName.ofJson value = .ok name ↔
      value = .string name ∧ UpToFeed IsDotted name) ∧
    (∀ info docs members, readHead doc place = .ok (.simpleEntity, info) →
      attributes? doc = some docs → readChildren .entity place 0 docs = .ok members →
        ∀ node, readNode doc place = .ok node ↔
          ∃ sub, node = .entity info false sub members ∧ AsksFor doc sub) ∧
    ∀ (plan : Plan) (artifacts : List Artifact),
      Plan.ofJson doc value = .ok plan → plan.artifacts {} = .ok artifacts →
        (∀ a ∈ artifacts, Joined (UpToFeed IsSegment) a.package) ∧
        ((∀ a ∈ artifacts, IsDotted a.package) ↔
          '\n' ∉ plan.package.toList ∧
            ∀ s ∈ plan.tree.spots, ∀ n ∈ s.trail, ∀ sub ∈ n.subPackage?, '\n' ∉ sub.toList) := by
  refine ⟨fun name => PackageName.ofJson_eq_ok_iff, ?_, ?_⟩
  · exact fun info docs members hh hdocs hmembers node => readNode_eq_ok_iff hh hdocs hmembers
  · intro plan artifacts hplan ha
    obtain ⟨hvalid, hread⟩ := ofJson_eq_ok hplan
    obtain ⟨rfl, -⟩ := Tree.artifacts_eq_ok (artifacts_eq_ok ha)
    exact Tree.packages_joined standard_default (usable_of_read hread) hvalid

/-- An entity that asks for a sub-package. -/
def itemDocument : Json :=
  .object [("name", .string "item"), ("type", .string "SimpleEntity"),
    ("subPackage", .string "items.open")]

open scoped Surrogates in
/-- The packages of the nested tree, which has a sub-package, are dotted. -/
theorem packages_accepted_nested :
    readNode itemDocument [] =
        .ok (.entity ⟨"item", "item领域模型", .single, []⟩ false (some "items.open") []) ∧
      ∃ plan artifacts, Plan.ofJson nested.document (.string "shop.domain") = .ok plan ∧
        plan.artifacts {} = .ok artifacts ∧ ∀ a ∈ artifacts, IsDotted a.package := by
  have hname : PackageName.ofJson (.string "shop.domain") = .ok "shop.domain" :=
    ((packages_accepted .null _ []).1 _).mpr ⟨rfl, isValid_iff.mp (by decide)⟩
  have hplan : Plan.ofJson nested.document (.string "shop.domain") =
      .ok ⟨"shop.domain", nested⟩ := by
    unfold Plan.ofJson
    rw [hname, wellFormed_nested.read_document]
  have ha : Plan.artifacts {} ⟨"shop.domain", nested⟩ =
      .ok (nested.node.artifacts {} "shop.domain") := rfl
  have hsub : AsksFor itemDocument (some "items.open") := ⟨rfl, isValid_iff.mp (by decide)⟩
  have hchildren : readChildren .entity [] 0 [] = .ok [] := by rw [readChildren]
  have htrails : nested.spots.all (fun s => s.trail.all fun n =>
      n.subPackage?.all fun sub => !sub.toList.contains '\n') = true := by decide
  have hitem := (packages_accepted itemDocument .null []).2.1 _ _ _ rfl rfl hchildren
  have hpackages := (packages_accepted _ _ []).2.2 _ _ hplan ha
  refine ⟨(hitem _).mpr ⟨_, rfl, hsub⟩, _, _, hplan, ha, hpackages.2.mpr ⟨by decide, ?_⟩⟩
  simpa [Option.all_eq_true] using htrails

open scoped Surrogates in
/-- A line feed at the end of a package name is accepted, and gets into the packages. -/
theorem line_feed_accepted :
    ∃ plan artifacts, Plan.ofJson sample (.string "p\n") = .ok plan ∧
      plan.artifacts {} = .ok artifacts ∧ ¬ IsDotted plan.package ∧
      ∃ a ∈ artifacts, ¬ IsDotted a.package := by
  have ha : Plan.artifacts {} ⟨"p\n", sampleTree⟩ =
      .ok (sampleTree.node.artifacts {} "p\n") := rfl
  have hnot : ¬ IsDotted "p\n" := fun h => h.feed_notMem (by decide)
  refine ⟨_, _, ofJson_sample (by decide), ha, hnot, _, List.mem_cons_self, hnot⟩

end DomainCodegen
