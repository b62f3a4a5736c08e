import DomainCodegen.Proofs.Members
import DomainCodegen.Proofs.Schema.Likeness
import Mathlib.Data.List.Pairwise

/-!
# Keys with two spellings

A key that a schema is read by can have a second spelling. As long as no object has both, it does
not matter which of them each object uses: renamed documents are read alike, faults included
(`read_renamed`). One look-up does not follow the rule. The child that holds the variants of an
enumeration is told by the first spelling of its type only, so this key may not be renamed
(`holder_lost_by_renaming`).
-/

namespace DomainCodegen.Schema

open Json (firstOf firstOf?)
open Members (mem_of_lookup)

variable {ms ms' : List (String × Json)} {doc doc' : Json} {keys : List String} {k k' : String}
  {R : Json → Json → Prop}

/-! ## Renamed documents -/

/-- Two spellings of one key, or one spelling of any. -/
def SameKey (k k' : String) : Prop :=
  k = k' ∨ ∃ keys ∈ plainKeys ++ nestingKeys, k ∈ keys ∧ k' ∈ keys

instance (k k' : String) : Decidable (SameKey k k') :=
  inferInstanceAs (Decidable (k = k' ∨ ∃ keys ∈ plainKeys ++ nestingKeys, k ∈ keys ∧ k' ∈ keys))

/-- Members with different keys, among which no key is spelled in two ways. -/
def SpelledOnce (ms : List (String × Json)) : Prop :=
  (ms.map Prod.fst).Pairwise fun k k' => ¬ SameKey k k'

instance (ms : List (String × Json)) : Decidable (SpelledOnce ms) :=
  inferInstanceAs (Decidable ((ms.map Prod.fst).Pairwise fun k k' => ¬ SameKey k k'))

/-- A member under another spelling of its key, with its value as it is or, inside a key for nodes
or variants, with a related value. -/
inductive MemberAs (R : Json → Json → Prop) : String × Json → String × Json → Prop
  | kept {k k' : String} (hk : SameKey k k') (v : Json) : MemberAs R (k, v) (k', v)
  | inside {k k' : String} {v v' : Json} (hk : SameKey k k') (hn : ∃ keys ∈ nestingKeys, k ∈ keys)
    (hv : R v v') : MemberAs R (k, v) (k', v')

/-- Documents that differ in the spellings of keys, at any depth and also in JSON text, where the
members of each renamed object are related as given. -/
inductive Renamed [Surrogates] (P : List (String × Json) → List (String × Json) → Prop) :
    Json → Json → Prop
  | same (doc : Json) : Renamed P doc doc
  | text {s s' : String} {doc doc' : Json} (hs : Json.read s = .ok doc)
    (hs' : Json.read s' = .ok doc') (h : Renamed P doc doc') :
    Renamed P (.string s) (.string s')
  | array {docs docs' : List Json} (h : List.Forall₂ (Renamed P) docs docs') :
    Renamed P (.array docs) (.array docs')
  | object {ms ms' : List (String × Json)} (hm : SpelledOnce ms)
    (h : List.Forall₂ (MemberAs (Renamed P)) ms ms') (hP : P ms ms') :
    Renamed P (.object ms) (.object ms')

/-! ## Looking keys up -/

theorem SameKey.mem_iff (h : SameKey k k') (hkeys : keys ∈ plainKeys ++ nestingKeys) :
    k ∈ keys ↔ k' ∈ keys := by
  have hall : ∀ keys ∈ plainKeys ++ nestingKeys, ∀ others ∈ plainKeys ++ nestingKeys,
      ∀ k ∈ others, ∀ k' ∈ others, k ∈ keys → k' ∈ keys := by decide
  rcases h with rfl | ⟨others, hothers, hk, hk'⟩
  · rfl
  · exact ⟨hall keys hkeys others hothers k hk k' hk', hall keys hkeys others hothers k' hk' k hk⟩

theorem SameKey.symm (h : SameKey k k') : SameKey k' k := by
  rcases h with rfl | ⟨keys, hkeys, hk, hk'⟩
  · exact .inl rfl
  · exact .inr ⟨keys, hkeys, hk', hk⟩

theorem SameKey.trans {l : String} (h : SameKey k k') (h' : SameKey k' l) : SameKey k l := by
  rcases h with rfl | ⟨keys, hkeys, hk, hk'⟩
  · exact h'
  · exact .inr ⟨keys, hkeys, hk, (h'.mem_iff hkeys).mp hk'⟩

theorem MemberAs.sameKey {p p' : String × Json} (h : MemberAs R p p') : SameKey p.1 p'.1 := by
  cases h with
  | kept hk => exact hk
  | inside hk => exact hk

theorem exists_sameKey (h : List.Forall₂ (MemberAs R) ms ms') :
    ∀ k' ∈ ms'.map Prod.fst, ∃ k ∈ ms.map Prod.fst, SameKey k k' := by
  induction h with
  | nil => exact nofun
  | cons hp _ ih =>
    refine List.forall_mem_cons.mpr ⟨⟨_, List.mem_cons_self, hp.sameKey⟩, fun k' hk' => ?_⟩
    obtain ⟨k, hk, hsame⟩ := ih k' hk'
    exact ⟨k, List.mem_cons_of_mem _ hk, hsame⟩

/-- Renaming does not spell a key twice. -/
theorem SpelledOnce.renamed (hm : SpelledOnce ms) (h : List.Forall₂ (MemberAs R) ms ms') :
    SpelledOnce ms' := by
  induction h with
  | nil => exact .nil
  | cons hp hr ih =>
    obtain ⟨hfirst, hrest⟩ := List.pairwise_cons.mp hm
    refine List.pairwise_cons.mpr ⟨fun k' hk' hsame => ?_, ih hrest⟩
    obtain ⟨k, hk, hkk'⟩ := exists_sameKey hr k' hk'
    exact hfirst k hk (hp.sameKey.trans (hsame.trans hkk'.symm))

/-- The spelling of a key is unique among members that spell it once. -/
theorem SpelledOnce.eq_of_mem (hm : SpelledOnce ms) (hkeys : keys ∈ plainKeys ++ nestingKeys)
    (hk : k ∈ keys) (hk' : k' ∈ keys) (hmem : k ∈ ms.map Prod.fst) (hmem' : k' ∈ ms.map Prod.fst) :
    k = k' := by
  have hsymm : Std.Symm fun k k' => ¬ SameKey k k' := ⟨fun _ _ h h' => h h'.symm⟩
  by_contra hne
  exact List.Pairwise.forall hm hmem hmem' hne (.inr ⟨keys, hkeys, hk, hk'⟩)

/-- Among members that spell each key once, the value of a key is the first one with a spelling of
it. -/
theorem firstOf?_eq_find? (hm : SpelledOnce ms) (hkeys : keys ∈ plainKeys ++ nestingKeys) :
    firstOf? keys (.object ms) = (ms.find? fun p => keys.contains p.1).map Prod.snd := by
  show keys.findSome? (fun key => ms.lookup key) = _
  cases hfind : ms.find? fun p => keys.contains p.1 with
  | none =>
    refine List.findSome?_eq_none_iff.mpr fun key hkey => ?_
    cases hlookup : ms.lookup key with
    | none => rfl
    | some v =>
      have hnot := List.find?_eq_none.mp hfind _ (mem_of_lookup hlookup)
      exact absurd (List.contains_iff_mem.mpr hkey) hnot
  | some p =>
    obtain ⟨k, v⟩ := p
    obtain ⟨hk, before, after, rfl, hbefore⟩ := List.find?_eq_some_iff_append.mp hfind
    have hmem : k ∈ keys := List.contains_iff_mem.mp hk
    have hlookup : (before ++ (k, v) :: after).lookup k = some v := by
      refine List.lookup_eq_some_iff.mpr ⟨before, after, rfl, fun p hp => ?_⟩
      rw [bne_iff_ne]
      rintro rfl
      simpa [hmem] using hbefore p hp
    cases hsome : keys.findSome? fun key => (before ++ (k, v) :: after).lookup key with
    | none =>
      rw [List.findSome?_eq_none_iff.mp hsome k hmem] at hlookup
      cases hlookup
    | some w =>
      obtain ⟨key, hkey, hw⟩ := List.exists_of_findSome?_eq_some hsome
      obtain rfl : key = k := hm.eq_of_mem hkeys hkey hmem
        (List.mem_map_of_mem (mem_of_lookup hw)) (List.mem_map_of_mem (mem_of_lookup hlookup))
      rw [hlookup] at hw
      cases hw
      rfl

theorem find?_renamed (h : List.Forall₂ (MemberAs R) ms ms')
    (hkeys : keys ∈ plainKeys ++ nestingKeys) :
    Option.Rel (MemberAs R) (ms.find? fun p => keys.contains p.1)
      (ms'.find? fun p => keys.contains p.1) := by
  induction h with
  | nil => exact .none
  | @cons p p' r r' hp _ ih =>
    have hiff : keys.contains p.1 = keys.contains p'.1 := by
      rw [Bool.eq_iff_iff, List.contains_iff_mem, List.contains_iff_mem]
      exact hp.sameKey.mem_iff hkeys
    rw [List.find?_cons, List.find?_cons, ← hiff]
    cases keys.contains p.1 with
    | true => exact .some hp
    | false => exact ih

theorem mem_keys_of_plain (h : keys ∈ plainKeys) : keys ∈ plainKeys ++ nestingKeys :=
  List.mem_append_left _ h

theorem mem_keys_of_nesting (h : keys ∈ nestingKeys) : keys ∈ plainKeys ++ nestingKeys :=
  List.mem_append_right _ h

/-- The value of a plain key is the same. -/
theorem firstOf?_plain (hm : SpelledOnce ms)
    (h : List.Forall₂ (MemberAs R) ms ms') (hkeys : keys ∈ plainKeys) :
    firstOf? keys (.object ms) = firstOf? keys (.object ms') := by
  have hall := mem_keys_of_plain hkeys
  have hfind := find?_renamed h hall
  have hplain : ∀ p, (ms.find? fun p => keys.contains p.1) = some p → p.1 ∈ keys := by
    intro p hp
    have hcontains := List.find?_some hp
    exact List.contains_iff_mem.mp hcontains
  rw [firstOf?_eq_find? hm hall, firstOf?_eq_find? (hm.renamed h) hall]
  generalize ms.find? _ = found, ms'.find? _ = found' at hfind hplain
  cases hfind with
  | none => rfl
  | some hp =>
    have hkey := hplain _ rfl
    cases hp with
    | kept hk v => rfl
    | inside hk hn hv =>
      have hapart : ∀ keys ∈ plainKeys, ∀ k ∈ keys, ¬ ∃ keys ∈ nestingKeys, k ∈ keys := by decide
      exact absurd hn (hapart keys hkeys _ hkey)

variable {P : List (String × Json) → List (String × Json) → Prop}

theorem MemberAs.renamed [Surrogates] {p p' : String × Json} (h : MemberAs (Renamed P) p p') :
    Renamed P p.2 p'.2 := by
  cases h with
  | kept hk v => exact .same v
  | inside hk hn hv => exact hv

/-- The values of a key for nodes or variants are renamed in turn. -/
theorem firstOf?_nesting [Surrogates] (hm : SpelledOnce ms)
    (h : List.Forall₂ (MemberAs (Renamed P)) ms ms') (hkeys : keys ∈ nestingKeys) :
    Option.Rel (Renamed P) (firstOf? keys (.object ms)) (firstOf? keys (.object ms')) := by
  have hall := mem_keys_of_nesting hkeys
  have hfind := find?_renamed h hall
  rw [firstOf?_eq_find? hm hall, firstOf?_eq_find? (hm.renamed h) hall]
  generalize ms.find? _ = found, ms'.find? _ = found' at hfind
  cases hfind with
  | none => exact .none
  | some hp => exact .some hp.renamed

/-- Renamed objects are looked at alike. -/
theorem membersAlike_of_renamed [Surrogates] (hm : SpelledOnce ms)
    (h : List.Forall₂ (MemberAs (Renamed HoldersKept)) ms ms') (hkept : HoldersKept ms ms') :
    MembersAlike (Renamed HoldersKept) ms ms' where
  plain _ hkeys := firstOf?_plain hm h hkeys
  nesting _ hkeys := firstOf?_nesting hm h hkeys
  holders := hkept

theorem isSimulation_renamed [Surrogates] : IsSimulation (Renamed HoldersKept) where
  refl := .same
  lookAlike h := by
    cases h with
    | same => exact .same _
    | text hs hs' h => exact .text hs hs' h
    | array h => exact .array h
    | object hm h hkept => exact .object (membersAlike_of_renamed hm h hkept)

theorem ofDocument_renamed [Surrogates] (h : Renamed HoldersKept doc doc') :
    Tree.ofDocument doc = Tree.ofDocument doc' :=
  ofDocument_simulated isSimulation_renamed h

/-! ## Documents -/

/-- Renamed documents are read alike: they give the same tree, or the same fault at the same place,
provided that a holder of variants stays one and none is made. -/
theorem read_renamed [Surrogates] {doc doc' : Json} (h : Renamed HoldersKept doc doc') :
    Tree.read doc = Tree.read doc' := by
  cases h with
  | same => rfl
  | text hs hs' h =>
    simp only [Tree.read, hs, hs']
    exact ofDocument_renamed h
  | array => rfl
  | object hm h hkept => exact ofDocument_renamed (.object hm h hkept)

/-- The child of an enumeration that holds its variants, with the keys that it is written with. -/
def holderOf (kind data constant : String) : Json :=
  .object [(kind, .string "ENUM"), (data, .array
    [.object [(constant, .string "OPEN"), ("businessMeaning", .string "open")]])]

def membersOf (name word kind children : String) (child : Json) : List (String × Json) :=
  [("name", .string name), (kind, .string word), (children, .array [child])]

/-- The enumeration of an entity, with the keys that it is written with. -/
def stateOf (kind children : String) (holder : Json) : Json :=
  .object (membersOf "state" "EnumValueObject" kind children holder)

def orderOf (kind children : String) (state : Json) : Json :=
  .object (membersOf "order" "SimpleEntity" kind children state)

theorem renamed_membersOf [Surrogates] {P : List (String × Json) → List (String × Json) → Prop}
    {name word kind kind' children children' : String} {child child' : Json}
    (hk : kind ∈ kindKeys ∧ kind' ∈ kindKeys)
    (hc : children ∈ attributesKeys ∧ children' ∈ attributesKeys) (h : Renamed P child child')
    (hP : P (membersOf name word kind children child)
      (membersOf name word kind' children' child')) :
    Renamed P (.object (membersOf name word kind children child))
      (.object (membersOf name word kind' children' child')) := by
  have hall : ∀ kind ∈ kindKeys, ∀ children ∈ attributesKeys,
      ["name", kind, children].Pairwise fun k k' => ¬ SameKey k k' := by decide
  have hkind : SameKey kind kind' := .inr ⟨kindKeys, by decide, hk⟩
  have hchildren : SameKey children children' := .inr ⟨attributesKeys, by decide, hc⟩
  have hinside : ∃ keys ∈ nestingKeys, children ∈ keys := ⟨attributesKeys, by decide, hc.1⟩
  refine .object (hall kind hk.1 children hc.1) ?_ hP
  exact .cons (.kept (.inl rfl) _) (.cons (.kept hkind _)
    (.cons (.inside hchildren hinside (.array (.cons h .nil))) .nil))

/-- The enumeration in first spellings, but for the type of the holder. -/
def stateWith (kind : String) : Json :=
  stateOf "type" "attributes" (holderOf kind "enumData" "englishName")

/-- An entity with an enumeration whose variants stand on a holder, in first spellings. -/
def stateDocument : Json := orderOf "type" "attributes" (stateWith "type")

def stateTree : Tree where
  info := ⟨"order", "order领域模型", .single, []⟩
  isRoot := false
  subPackage := none
  members := [.value (.enumeration ⟨"state", "state领域模型", .single, [.child 0]⟩
    [⟨"OPEN", "open"⟩])]

open scoped Surrogates in
theorem read_stateDocument : Tree.read stateDocument = .ok stateTree := by
  have hstate (place : Place) : readNode (stateWith "type") place =
      .ok (.value (.enumeration ⟨"state", "state领域模型", .single, place⟩ [⟨"OPEN", "open"⟩])) := by
    rw [readNode_eq]
    rfl
  have hnode : readNode stateDocument [] = .ok stateTree.node := by
    have hmembers : readChildren .entity [] 0 [stateWith "type"] = .ok stateTree.members := by
      rw [readChildren, hstate, readChildren]
      rfl
    have hdocs : attributes? stateDocument = some [stateWith "type"] := rfl
    exact readNode_of_simpleEntity rfl hdocs hmembers
  show Tree.ofDocument (.object _) = _
  unfold stateDocument orderOf at hnode
  rw [Tree.ofDocument, hnode]
  rfl

theorem holdersKept_of_word {ms ms' : List (String × Json)}
    (h : ∀ s, firstOf kindKeys (.object ms) = .string s → Kind.ofWord? s ≠ some .enumeration) :
    HoldersKept ms ms' := by
  rintro ⟨s, hs, hword⟩
  exact absurd hword (h s hs)

open scoped Surrogates in
/-- The entity is read in other spellings, too. -/
theorem read_renamed_state : Tree.read (orderOf "kind" "children" (stateOf "type" "children"
    (holderOf "type" "enumVariants" "symbolicName"))) = .ok stateTree := by
  have hvariant : Renamed HoldersKept
      (.object [("englishName", .string "OPEN"), ("businessMeaning", .string "open")])
      (.object [("symbolicName", .string "OPEN"), ("businessMeaning", .string "open")]) := by
    refine .object (by decide)
      (.cons (.kept (by decide) _) (.cons (.kept (by decide) _) .nil)) ?_
    refine holdersKept_of_word fun s hs => ?_
    cases hs
  have hholder : Renamed HoldersKept (holderOf "type" "enumData" "englishName")
      (holderOf "type" "enumVariants" "symbolicName") := by
    refine .object (by decide) (.cons (.kept (by decide) _)
      (.cons (.inside (by decide) (by decide) (.array (.cons hvariant .nil))) .nil)) ?_
    refine holdersKept_of_word fun s hs => ?_
    cases hs
    decide
  have hstate : Renamed HoldersKept (stateWith "type")
      (stateOf "type" "children" (holderOf "type" "enumVariants" "symbolicName")) := by
    refine renamed_membersOf (by decide) (by decide) hholder ?_
    rintro - c c' hc hc'
    cases hc
    cases hc'
    exact iff_of_true rfl rfl
  rw [← read_stateDocument]
  refine (read_renamed (renamed_membersOf (by decide) (by decide) hstate ?_)).symm
  refine holdersKept_of_word fun s hs => ?_
  cases hs
  decide

open scoped Surrogates in
/-- A holder whose type is written with the second spelling of its key is none. -/
theorem holder_lost_by_renaming : ∃ doc doc', Renamed (fun _ _ => True) doc doc' ∧
    Tree.read doc = .ok stateTree ∧ Tree.read doc' = .error ⟨[.child 0], .holderExpected⟩ := by
  refine ⟨stateDocument, orderOf "type" "attributes" (stateWith "kind"), ?_, read_stateDocument, ?_⟩
  · have hholder : Renamed (fun _ _ => True) (holderOf "type" "enumData" "englishName")
        (holderOf "kind" "enumData" "englishName") :=
      .object (by decide)
        (.cons (.kept (by decide) _) (.cons (.kept (by decide) _) .nil)) trivial
    have hstate : Renamed (fun _ _ => True) (stateWith "type") (stateWith "kind") :=
      renamed_membersOf (by decide) (by decide) hholder trivial
    exact renamed_membersOf (by decide) (by decide) hstate trivial
  · have hnode : readNode (orderOf "type" "attributes" (stateWith "kind")) [] =
        .error ⟨[.child 0], .holderExpected⟩ := by
      have hstate (place : Place) :
          readNode (stateWith "kind") place = .error ⟨place, .holderExpected⟩ := by
        rw [readNode_eq]
        rfl
      have hmembers : readChildren .entity [] 0 [stateWith "kind"] =
          .error ⟨[.child 0], .holderExpected⟩ := by
        rw [readChildren, hstate]
        rfl
      rw [readNode_eq]
      show readInside .entity _ [] _ = _
      have hdocs : attributes? (orderOf "type" "attributes" (stateWith "kind")) =
          some [stateWith "kind"] := rfl
      rw [readInside_of_some hdocs, hmembers]
    show Tree.ofDocument (.object _) = _
    unfold orderOf at hnode
    rw [Tree.ofDocument, hnode]

end DomainCodegen.Schema
