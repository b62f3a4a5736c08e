import DomainCodegen.Proofs.Schema.Document
import Mathlib.Data.List.Forall2

/-!
# Documents that are read alike

A schema is read by looking keys up, so two objects are read alike if the look-ups give the same
values, or values that are read alike in turn where these hold nodes or variants. A relation that
keeps this up at every step is a simulation, and related documents give the same tree or the same
fault at the same place (`read_simulated`).
-/

namespace DomainCodegen.Schema

open Json (firstOf firstOf?)

variable {ms ms' : List (String × Json)} {doc doc' data data' : Json} {docs docs' : List Json}
  {keys : List String} {place : Place} {R : Json → Json → Prop}

/-! ## Keys -/

/-- The keys whose values have no nodes or variants inside, with their spellings. -/
def plainKeys : List (List String) :=
  [["name"], kindKeys, ["description"], cardinalityKeys, ["subPackage"], primitiveKeys,
    constantKeys, ["businessMeaning"]]

/-- The keys whose values have nodes or variants inside, with their spellings. -/
def nestingKeys : List (List String) := [attributesKeys, variantsKeys]

/-- A child of the type that can hold the variants of an enumeration. -/
def IsHolder (doc : Json) : Prop := doc.get? "type" = some (.string holderWord)

/-- The members of an object that asks for an enumeration. -/
def IsEnumeration (ms : List (String × Json)) : Prop :=
  ∃ s, firstOf kindKeys (.object ms) = .string s ∧ Kind.ofWord? s = some .enumeration

/-- A single child of an enumeration holds the variants before and after. -/
def HoldersKept (ms ms' : List (String × Json)) : Prop :=
  IsEnumeration ms → ∀ c c', attributes? (.object ms) = some [c] →
    attributes? (.object ms') = some [c'] → (IsHolder c ↔ IsHolder c')

/-! ## Simulations -/

/-- Two objects that are looked at alike: plain keys have the same value, keys for nodes or variants
have related ones, and a single child holds the variants of both or of neither. -/
structure MembersAlike (R : Json → Json → Prop) (ms ms' : List (String × Json)) : Prop where
  plain : ∀ keys ∈ plainKeys, firstOf? keys (.object ms) = firstOf? keys (.object ms')
  nesting : ∀ keys ∈ nestingKeys,
    Option.Rel R (firstOf? keys (.object ms)) (firstOf? keys (.object ms'))
  holders : HoldersKept ms ms'

/-- Documents that are the same or of one form, with related parts. A text stands for what it says
as JSON. -/
inductive LookAlike [Surrogates] (R : Json → Json → Prop) : Json → Json → Prop
  | same (doc : Json) : LookAlike R doc doc
  | text {s s' : String} {doc doc' : Json} (hs : Json.read s = .ok doc)
    (hs' : Json.read s' = .ok doc') (h : R doc doc') : LookAlike R (.string s) (.string s')
  | array {docs docs' : List Json} (h : List.Forall₂ R docs docs') :
    LookAlike R (.array docs) (.array docs')
  | object {ms ms' : List (String × Json)} (h : MembersAlike R ms ms') :
    LookAlike R (.object ms) (.object ms')

/-- A relation between documents that look alike, with parts that are related again. -/
structure IsSimulation [Surrogates] (R : Json → Json → Prop) : Prop where
  refl : ∀ doc, R doc doc
  lookAlike : ∀ {doc doc' : Json}, R doc doc' → LookAlike R doc doc'

/-! ## Parts of a node -/

theorem get?_eq_firstOf? (key : String) (doc : Json) : doc.get? key = firstOf? [key] doc := by
  unfold firstOf?
  rw [List.findSome?_singleton]

theorem MembersAlike.get?_eq (h : MembersAlike R ms ms') {key : String} (hkey : [key] ∈ plainKeys) :
    (Json.object ms).get? key = (Json.object ms').get? key := by
  rw [get?_eq_firstOf?, get?_eq_firstOf?, h.plain _ hkey]

theorem MembersAlike.firstOf_eq (h : MembersAlike R ms ms') (hkeys : keys ∈ plainKeys) :
    firstOf keys (.object ms) = firstOf keys (.object ms') := by
  rw [firstOf, firstOf, h.plain keys hkeys]

theorem MembersAlike.readHead_eq (h : MembersAlike R ms ms') :
    readHead (.object ms) place = readHead (.object ms') place := by
  have hname : readName (.object ms) place = readName (.object ms') place := by
    rw [readName, readName, h.get?_eq (by decide)]
  have hkind : readKind (.object ms) place = readKind (.object ms') place := by
    rw [readKind, readKind, h.firstOf_eq (by decide)]
  have hdescription (name : String) :
      readDescription (.object ms) name place = readDescription (.object ms') name place := by
    rw [readDescription, readDescription, h.get?_eq (by decide)]
  have hcardinality : readCardinality (.object ms) place = readCardinality (.object ms') place := by
    rw [readCardinality, readCardinality, h.firstOf_eq (by decide)]
  simp only [readHead, hname, hkind, hdescription, hcardinality]

theorem MembersAlike.readSubPackage_eq (h : MembersAlike R ms ms') :
    readSubPackage (.object ms) place = readSubPackage (.object ms') place := by
  rw [readSubPackage, readSubPackage, h.get?_eq (by decide)]

theorem MembersAlike.readPrimitive_eq (h : MembersAlike R ms ms') :
    readPrimitive (.object ms) place = readPrimitive (.object ms') place := by
  rw [readPrimitive, readPrimitive, h.firstOf_eq (by decide)]

theorem isEnumeration_of_readHead {info : Info}
    (h : readHead (.object ms) place = .ok (.enumeration, info)) : IsEnumeration ms := by
  obtain ⟨-, hkind, -⟩ := readHead_eq_ok h
  unfold readKind at hkind
  dsimp only at hkind
  split at hkind
  · next s hs =>
    refine ⟨s, hs, ?_⟩
    cases hword : Kind.ofWord? s with
    | none =>
      rw [hword] at hkind
      cases hkind
    | some kind =>
      rw [hword] at hkind
      cases hkind
      rfl
  · cases hkind

section Simulation

variable [Surrogates] (hR : IsSimulation R)

include hR

theorem firstOf_of_rel (h : Option.Rel R (firstOf? keys doc) (firstOf? keys doc')) :
    R (firstOf keys doc) (firstOf keys doc') := by
  unfold firstOf
  generalize firstOf? keys doc = given, firstOf? keys doc' = given' at h
  cases h with
  | none => exact hR.refl _
  | some hv => exact hv

/-- The children are related one by one, or neither object has a list of them. -/
theorem attributes?_simulated (h : MembersAlike R ms ms') :
    (attributes? (.object ms) = none ∧ attributes? (.object ms') = none) ∨
      ∃ docs docs', attributes? (.object ms) = some docs ∧
        attributes? (.object ms') = some docs' ∧ List.Forall₂ R docs docs' := by
  have hrel := h.nesting attributesKeys (by decide)
  unfold attributes?
  generalize firstOf? attributesKeys (.object ms) = given,
    firstOf? attributesKeys (.object ms') = given' at hrel
  cases hrel with
  | none => exact .inr ⟨[], [], rfl, rfl, .nil⟩
  | @some given _ hv =>
    cases hR.lookAlike hv with
    | same =>
      cases given with
      | null => exact .inr ⟨[], [], rfl, rfl, .nil⟩
      | array docs =>
        exact .inr ⟨docs, docs, rfl, rfl, List.forall₂_same.mpr fun doc _ => hR.refl doc⟩
      | _ => exact .inl ⟨rfl, rfl⟩
    | text => exact .inl ⟨rfl, rfl⟩
    | array hdocs => exact .inr ⟨_, _, rfl, rfl, hdocs⟩
    | object => exact .inl ⟨rfl, rfl⟩

/-! ## Variants -/

theorem readVariant_simulated (h : R doc doc') (index : Nat) :
    readVariant place index doc = readVariant place index doc' := by
  cases hR.lookAlike h with
  | same => rfl
  | text => rfl
  | array => rfl
  | object hm =>
    simp only [readVariant]
    rw [hm.firstOf_eq (by decide), hm.get?_eq (by decide)]

theorem readVariantsFrom_simulated (h : List.Forall₂ R docs docs') (index : Nat) :
    readVariantsFrom place index docs = readVariantsFrom place index docs' := by
  induction h generalizing index with
  | nil => rfl
  | cons hdoc _ ih => rw [readVariantsFrom, readVariantsFrom, readVariant_simulated hR hdoc, ih]

theorem readVariantList_simulated (h : R data data') :
    readVariantList place data = readVariantList place data' := by
  cases hR.lookAlike h with
  | same => rfl
  | text => rfl
  | object => rfl
  | array hdocs =>
    cases hdocs with
    | nil => rfl
    | cons hdoc hr => exact readVariantsFrom_simulated hR (.cons hdoc hr) 0

theorem readVariantData_simulated (h : R data data') :
    readVariantData place data = readVariantData place data' := by
  cases hR.lookAlike h with
  | same => rfl
  | object => rfl
  | text hs hs' hdata =>
    simp only [readVariantData, hs, hs']
    exact readVariantList_simulated hR hdata
  | array => exact readVariantList_simulated hR h

theorem isNull_simulated (h : R data data') : data.isNull = data'.isNull := by
  cases hR.lookAlike h <;> rfl

/-- Related documents have related values of keys for nodes or variants. -/
theorem firstOf_simulated (h : R doc doc') (hkeys : keys ∈ nestingKeys) :
    R (firstOf keys doc) (firstOf keys doc') := by
  have hnone {doc : Json} (hget : ∀ key, doc.get? key = none) : firstOf keys doc = .null := by
    rw [firstOf, firstOf?, List.findSome?_eq_none_iff.mpr fun key _ => hget key]
    rfl
  cases hR.lookAlike h with
  | same => exact hR.refl _
  | text =>
    rw [hnone fun _ => rfl, hnone fun _ => rfl]
    exact hR.refl _
  | array =>
    rw [hnone fun _ => rfl, hnone fun _ => rfl]
    exact hR.refl _
  | object hm => exact firstOf_of_rel hR (hm.nesting keys hkeys)

end Simulation

/-! ## Holders -/

variable [Surrogates]

theorem readVariants_of_nil (hdocs : attributes? doc = some []) :
    readVariants doc place = readVariantData place (firstOf variantsKeys doc) := by
  unfold readVariants
  simp only [hdocs]

theorem readVariants_of_data {c : Json} (hdocs : attributes? doc = some (c :: docs))
    (hdata : (firstOf variantsKeys doc).isNull = false) :
    readVariants doc place = .error ⟨place, .variantsDouble⟩ := by
  unfold readVariants
  simp only [hdocs, hdata]
  rfl

theorem readVariants_of_many {c d : Json}
    (hdocs : attributes? doc = some (c :: d :: docs))
    (hnull : (firstOf variantsKeys doc).isNull = true) :
    readVariants doc place = .error ⟨place, .holderExpected⟩ := by
  unfold readVariants
  simp only [hdocs, hnull]
  rfl

theorem readVariants_of_holder {c : Json} (hdocs : attributes? doc = some [c])
    (hnull : (firstOf variantsKeys doc).isNull = true) (hh : IsHolder c) :
    readVariants doc place = readVariantData (place ++ [.child 0]) (firstOf variantsKeys c) := by
  unfold IsHolder at hh
  unfold readVariants
  cases c with
  | object members =>
    simp only [hdocs, hnull, hh]
    rfl
  | _ => cases hh

theorem readVariants_of_not_holder {c : Json} (hdocs : attributes? doc = some [c])
    (hnull : (firstOf variantsKeys doc).isNull = true) (hh : ¬ IsHolder c) :
    readVariants doc place = .error ⟨place, .holderExpected⟩ := by
  unfold IsHolder at hh
  unfold readVariants
  cases c with
  | object members =>
    simp only [hdocs, hnull, Bool.not_true, Bool.false_eq_true, if_false]
    split
    · next word hword =>
      have hne : word ≠ holderWord := by
        rintro rfl
        exact hh hword
      rw [if_neg hne]
    · rfl
  | _ =>
    simp only [hdocs, hnull]
    rfl

theorem readVariants_of_none (hdocs : attributes? doc = none) :
    readVariants doc place = .error ⟨place, .attributesNotArray⟩ := by
  unfold readVariants
  simp only [hdocs]

theorem readVariants_simulated (hR : IsSimulation R) (h : MembersAlike R ms ms')
    (hkept : ∀ c c', attributes? (.object ms) = some [c] →
      attributes? (.object ms') = some [c'] → (IsHolder c ↔ IsHolder c')) :
    readVariants (.object ms) place = readVariants (.object ms') place := by
  have hdata := firstOf_of_rel hR (h.nesting variantsKeys (by decide))
  have hsame := isNull_simulated hR hdata
  rcases attributes?_simulated hR h with ⟨hdocs, hdocs'⟩ | ⟨docs, docs', hdocs, hdocs', hall⟩
  · rw [readVariants_of_none hdocs, readVariants_of_none hdocs']
  cases hall with
  | nil =>
    rw [readVariants_of_nil hdocs, readVariants_of_nil hdocs', readVariantData_simulated hR hdata]
  | @cons c c' r r' hc hr =>
    cases hnull : (firstOf variantsKeys (.object ms)).isNull with
    | false =>
      rw [readVariants_of_data hdocs hnull, readVariants_of_data hdocs' (hsame ▸ hnull)]
    | true =>
      have hnull' : (firstOf variantsKeys (.object ms')).isNull = true := hsame ▸ hnull
      cases hr with
      | cons hd hr =>
        rw [readVariants_of_many hdocs hnull, readVariants_of_many hdocs' hnull']
      | nil =>
        have hiff := hkept c c' hdocs hdocs'
        by_cases hh : IsHolder c
        · rw [readVariants_of_holder hdocs hnull hh,
            readVariants_of_holder hdocs' hnull' (hiff.mp hh),
            readVariantData_simulated hR (firstOf_simulated hR hc (by decide))]
        · rw [readVariants_of_not_holder hdocs hnull hh,
            readVariants_of_not_holder hdocs' hnull' (mt hiff.mpr hh)]

/-! ## Nodes -/

/-- If children are read alike one by one, they are read alike as a list. -/
theorem readChildren_congr {host : Host}
    (h : List.Forall₂ (fun doc doc' => ∀ place, readNode doc place = readNode doc' place)
      docs docs')
    (index : Nat) : readChildren host place index docs = readChildren host place index docs' := by
  induction h generalizing index with
  | nil => rfl
  | cons hdoc _ ih => rw [readChildren, readChildren, hdoc, ih]

theorem readInside_congr {host : Host} {make : List Node → Except Error Node}
    (h : (attributes? doc = none ∧ attributes? doc' = none) ∨
      ∃ docs docs', attributes? doc = some docs ∧ attributes? doc' = some docs' ∧
        readChildren host place 0 docs = readChildren host place 0 docs') :
    readInside host doc place make = readInside host doc' place make := by
  rcases h with ⟨hdocs, hdocs'⟩ | ⟨docs, docs', hdocs, hdocs', hall⟩
  · rw [readInside_of_none hdocs, readInside_of_none hdocs']
  · rw [readInside_of_some hdocs, readInside_of_some hdocs', hall]

/-- Objects that are looked at alike are read alike, if the nodes inside are. -/
theorem readNode_of_membersAlike (hR : IsSimulation R) (h : MembersAlike R ms ms')
    (hinside : ∀ docs docs', attributes? (.object ms) = some docs → List.Forall₂ R docs docs' →
      ∀ host, readChildren host place 0 docs = readChildren host place 0 docs') :
    readNode (.object ms) place = readNode (.object ms') place := by
  have hdocs (host : Host) : (attributes? (.object ms) = none ∧ attributes? (.object ms') = none) ∨
      ∃ docs docs', attributes? (.object ms) = some docs ∧ attributes? (.object ms') = some docs' ∧
        readChildren host place 0 docs = readChildren host place 0 docs' := by
    refine (attributes?_simulated hR h).imp id ?_
    rintro ⟨docs, docs', hdocs, hdocs', hall⟩
    exact ⟨docs, docs', hdocs, hdocs', hinside docs docs' hdocs hall host⟩
  rw [readNode_eq, readNode_eq, ← h.readHead_eq]
  cases hhead : readHead (.object ms) place with
  | error e => rfl
  | ok head =>
    obtain ⟨kind, info⟩ := head
    cases kind with
    | enumeration =>
      dsimp only
      rw [readVariants_simulated hR h (h.holders (isEnumeration_of_readHead hhead))]
    | valueObject =>
      dsimp only
      rw [h.readPrimitive_eq]
      split
      · rfl
      · exact readInside_congr (hdocs _)
    | _ =>
      dsimp only
      rw [h.readSubPackage_eq]
      exact readInside_congr (hdocs _)

mutual

/-- Related nodes are read alike. -/
theorem readNode_simulated (hR : IsSimulation R) {doc doc' : Json} (h : R doc doc')
    (place : Place) : readNode doc place = readNode doc' place := by
  match doc, doc', hR.lookAlike h with
  | _, _, .same doc => rfl
  | .string s, .string s', .text _ _ _ => rw [readNode_of_error rfl, readNode_of_error rfl]
  | .array docs, .array docs', .array _ => rw [readNode_of_error rfl, readNode_of_error rfl]
  | .object ms, .object ms', .object hm =>
    refine readNode_of_membersAlike hR hm fun docs docs' hdocs hall host => ?_
    exact readChildren_congr (readNodes_simulated hR hall) 0
  termination_by sizeOf doc + 1
  decreasing_by exact Nat.lt_succ_of_le (sizeOf_of_attributes? ‹_›)

theorem readNodes_simulated (hR : IsSimulation R) {docs docs' : List Json}
    (h : List.Forall₂ R docs docs') :
    List.Forall₂ (fun doc doc' => ∀ place, readNode doc place = readNode doc' place)
      docs docs' := by
  match docs, docs', h with
  | [], [], .nil => exact .nil
  | doc :: r, doc' :: r', .cons hdoc hr =>
    exact .cons (readNode_simulated hR hdoc) (readNodes_simulated hR hr)
  termination_by sizeOf docs
  decreasing_by
    · simp only [List.cons.sizeOf_spec]
      have : 1 ≤ sizeOf r := by cases r <;> simp +arith
      omega
    · simp only [List.cons.sizeOf_spec]
      omega

end

/-! ## Documents -/

theorem ofDocument_simulated (hR : IsSimulation R) (h : R doc doc') :
    Tree.ofDocument doc = Tree.ofDocument doc' := by
  have hnode := readNode_simulated hR h []
  cases hR.lookAlike h with
  | same => rfl
  | text => rfl
  | array => rfl
  | object => rw [Tree.ofDocument, Tree.ofDocument, hnode]

end DomainCodegen.Schema
