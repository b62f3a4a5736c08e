import DomainCodegen.Proofs.Schema.Usable

/-!
# Faults are where they are said to be

The place of a fault leads through the document to a value that is at fault: read on its own, it is
no node, or it is one of a kind that does not belong there. Everything before it, and before the
nodes that it stands in, can be read (`blame_of_read`). Each reader finds fault with its own place
or with one further inside, so `Blame` follows the steps from a document to the place.
-/

namespace DomainCodegen.Schema

open Json (firstOf firstOf?)

variable {doc child data value : Json} {docs : List Json} {place rest : Place} {e : Error}
  {host : Host} {index i : Nat} {node : Node} {info : Info} {kind : Kind}

/-! ## Places in a document -/

section Blame

variable [Surrogates]

/-- What the JSON text of a document says, or the document itself if it is no such text. -/
def decoded (doc : Json) : Json :=
  match doc with
  | .string s => (Json.read s).toOption.getD (.string s)
  | doc => doc

/-- The value one step inside a document: a child in the list of them that it uses, or a variant in
its data, which may be JSON text. -/
def valueInside (doc : Json) : Step → Option Json
  | .child i => (attributes? doc).bind fun docs => docs[i]?
  | .variant i =>
    match decoded (firstOf variantsKeys doc) with
    | .array docs => docs[i]?
    | _ => none

/-- The value at a place in a document. -/
def valueAt (doc : Json) : Place → Option Json
  | [] => some doc
  | step :: r => (valueInside doc step).bind fun value => valueAt value r

/-! ## Blame -/

/-- A value is no node: it cannot be read on its own at a place. -/
def Rejected (value : Json) (place : Place) :
    Prop := ∃ e, readNode value place = .error e

/-- A value is a node, read on its own at a place. -/
def Accepted (value : Json) (place : Place) :
    Prop := ∃ node, readNode value place = .ok node

/-- A node is of a kind that does not belong at `rest` in a document at `place`: a value object in
the place of a whole document, an aggregate root inside an entity, or an entity inside a value
object. -/
inductive Misplaced : Json → Place → Place → Node → Prop
  | root (doc : Json) (v : ValueObject) : Misplaced doc [] [] (.value v)
  | rootNested {doc : Json} {place : Place} {kind : Kind} {info : Info} {node : Node} (i : Nat)
    (hh : readHead doc place = .ok (kind, info)) (hk : kind = .aggregateRoot ∨ kind = .simpleEntity)
    (hn : node.kind = .aggregateRoot) : Misplaced doc place [.child i] node
  | inValueObject {doc : Json} {place : Place} {info : Info} {node : Node} (i : Nat)
    (hh : readHead doc place = .ok (.valueObject, info))
    (hn : node.kind = .aggregateRoot ∨ node.kind = .simpleEntity) :
    Misplaced doc place [.child i] node
  | inside {doc value : Json} {place rest : Place} {node : Node} {step : Step}
    (hv : valueInside doc step = some value) (h : Misplaced value (place ++ [step]) rest node) :
    Misplaced doc place (step :: rest) node

/-- All children before the one at a place, or before one that it stands in, are accepted. -/
def Preceded (doc : Json) (place rest : Place) : Prop :=
  ∀ front i back, rest = front ++ .child i :: back → ∀ j < i,
    ∃ sibling, valueAt doc (front ++ [.child j]) = some sibling ∧
      Accepted sibling (place ++ front ++ [.child j])

/-- A document that stands at `place` has a fault at `rest` in it: the value there is rejected, or
it is a node that does not belong there, and what precedes it is accepted. -/
structure Blame (doc : Json) (place rest : Place) : Prop where
  found : ∃ value, valueAt doc rest = some value ∧ (Rejected value (place ++ rest) ∨
    ∃ node, readNode value (place ++ rest) = .ok node ∧ Misplaced doc place rest node)
  preceded : Preceded doc place rest

/-- A fault of a document read at `place` that lies at some place in it. -/
def Blames (doc : Json) (place : Place) (e : Error) : Prop :=
  ∃ rest, e.place = place ++ rest ∧ Blame doc place rest

theorem preceded_nil (doc : Json) (place : Place) : Preceded doc place [] := by
  intro front i back hrest
  simp at hrest

theorem blame_self (h : Rejected doc place) : Blame doc place [] :=
  ⟨⟨doc, rfl, .inl (by rwa [List.append_nil])⟩, preceded_nil doc place⟩

theorem blames_self (h : Rejected doc place) (hp : e.place = place) :
    Blames doc place e :=
  ⟨[], by rw [hp, List.append_nil], blame_self h⟩

/-- A child of a document in which all children before it are accepted. -/
structure IsChild (doc : Json) (place : Place) (i : Nat) (child : Json) : Prop where
  value : valueInside doc (.child i) = some child
  before : ∀ j < i, ∃ sibling, valueInside doc (.child j) = some sibling ∧
    Accepted sibling (place ++ [.child j])

theorem isChild_of_attributes (hdocs : attributes? doc = some docs)
    (hi : docs[i]? = some child)
    (hbefore : ∀ j < i, ∃ sibling, docs[j]? = some sibling ∧
      Accepted sibling (place ++ [.child j])) : IsChild doc place i child := by
  have hinside (j : Nat) : valueInside doc (.child j) = docs[j]? := by
    rw [valueInside, hdocs, Option.bind_some]
  refine ⟨(hinside i).trans hi, fun j hj => ?_⟩
  rw [hinside j]
  exact hbefore j hj

omit [Surrogates] in
theorem append_child (place : Place) (i : Nat) (rest : Place) :
    place ++ .child i :: rest = place ++ [.child i] ++ rest := by
  simp

theorem IsChild.preceded (hc : IsChild doc place i child)
    (h : Preceded child (place ++ [.child i]) rest) : Preceded doc place (.child i :: rest) := by
  intro front k back hrest j hj
  cases front with
  | nil =>
    obtain ⟨hstep, -⟩ := List.cons_eq_cons.mp hrest
    cases hstep
    obtain ⟨sibling, hs, ha⟩ := hc.before j hj
    refine ⟨sibling, ?_, by rwa [List.append_nil]⟩
    rw [List.nil_append, valueAt, hs]
    rfl
  | cons step front =>
    rw [List.cons_append, List.cons_eq_cons] at hrest
    obtain ⟨rfl, hback⟩ := hrest
    obtain ⟨sibling, hs, ha⟩ := h front k back hback j hj
    refine ⟨sibling, ?_, by rwa [append_child place i front]⟩
    rw [List.cons_append, valueAt, hc.value]
    exact hs

/-- A fault in a child is one of the document. -/
theorem IsChild.blame (hc : IsChild doc place i child)
    (h : Blame child (place ++ [.child i]) rest) : Blame doc place (.child i :: rest) := by
  obtain ⟨value, hv, hcase⟩ := h.found
  refine ⟨⟨value, by rw [valueAt, hc.value]; exact hv, ?_⟩, hc.preceded h.preceded⟩
  rw [append_child]
  exact hcase.imp_right fun ⟨node, hn, hm⟩ => ⟨node, hn, .inside hc.value hm⟩

/-- A child that does not belong in a document is to blame. -/
theorem IsChild.blame_misplaced (hc : IsChild doc place i child)
    (hn : readNode child (place ++ [.child i]) = .ok node)
    (h : Misplaced doc place [.child i] node) : Blame doc place [.child i] :=
  ⟨⟨child, by rw [valueAt, hc.value]; rfl, .inr ⟨node, hn, h⟩⟩, hc.preceded (preceded_nil child _)⟩

/-- A variant that is rejected is to blame itself. -/
theorem blame_variant (hv : valueInside doc (.variant i) = some value)
    (h : Rejected value (place ++ [.variant i])) : Blame doc place [.variant i] := by
  refine ⟨⟨value, by rw [valueAt, hv]; rfl, .inl h⟩, fun front k back hrest => ?_⟩
  cases front with
  | nil => cases hrest
  | cons step front => simp at hrest

/-! ## Parts of a node -/

end Blame

theorem place_of_readName (h : readName doc place = .error e) : e.place = place := by
  unfold readName at h
  split at h
  · dsimp only at h
    split at h
    · cases h
      rfl
    · split at h <;> cases h
      rfl
  · cases h
    rfl

/-- A word that is looked up is at fault only with the error given for unknown words. -/
theorem eq_of_elim_eq_error {α β : Type} {word : Option α} {unknown e : Error} {use : α → β}
    (h : (word.elim (.error unknown) fun a => .ok (use a)) = (.error e : Except Error β)) :
    e = unknown := by
  cases word <;> cases h
  rfl

theorem place_of_readKind (h : readKind doc place = .error e) : e.place = place := by
  unfold readKind at h
  dsimp only at h
  split at h
  · rw [eq_of_elim_eq_error h]
  · cases h
    rfl

theorem place_of_readDescription {name : String} (h : readDescription doc name place = .error e) :
    e.place = place := by
  unfold readDescription at h
  split at h <;> cases h
  rfl

theorem place_of_readCardinality (h : readCardinality doc place = .error e) : e.place = place := by
  unfold readCardinality at h
  dsimp only at h
  split at h
  · cases h
  · rw [eq_of_elim_eq_error h]
  · cases h
    rfl

theorem place_of_readSubPackage (h : readSubPackage doc place = .error e) : e.place = place := by
  unfold readSubPackage at h
  split at h
  · cases h
  · split at h <;> cases h
    rfl
  · cases h
    rfl

theorem place_of_readPrimitive (h : readPrimitive doc place = .error e) : e.place = place := by
  unfold readPrimitive at h
  dsimp only at h
  split at h
  · cases h
  · rw [eq_of_elim_eq_error h]
  · cases h
    rfl

/-- What every node starts with is at fault at the place of the node. -/
theorem place_of_readHead (h : readHead doc place = .error e) : e.place = place := by
  unfold readHead at h
  split at h
  · rcases bind_eq_error_iff.mp h with hname | ⟨name, -, h⟩
    · exact place_of_readName hname
    rcases bind_eq_error_iff.mp h with hkind | ⟨kind, -, h⟩
    · exact place_of_readKind hkind
    rcases bind_eq_error_iff.mp h with hdescription | ⟨description, -, h⟩
    · exact place_of_readDescription hdescription
    rcases bind_eq_error_iff.mp h with hcardinality | ⟨cardinality, -, h⟩
    · exact place_of_readCardinality hcardinality
    cases h
  · cases h
    rfl

theorem rejected_of_readHead [Surrogates] (h : readHead doc place = .error e) :
    Rejected doc place :=
  ⟨e, readNode_of_error h⟩

theorem rejected_of_not_object [Surrogates] (h : ∀ ms, doc ≠ .object ms) : Rejected doc place := by
  cases doc with
  | object ms => exact absurd rfl (h ms)
  | _ => exact rejected_of_readHead rfl

theorem place_of_makeValueObject {primitive : Option Primitive} {parts : List ValueObject}
    (h : makeValueObject info primitive parts = .error e) : e.place = info.place := by
  unfold makeValueObject at h
  split at h <;> cases h <;> rfl

/-! ## Variants -/

section Reading

variable [Surrogates]

/-- The variants are at fault at the first one that is no object. -/
theorem readVariantsFrom_eq_error (h : readVariantsFrom place index docs = .error e) :
    ∃ i value, docs[i]? = some value ∧ (∀ ms, value ≠ .object ms) ∧
      e.place = place ++ [.variant (index + i)] := by
  induction docs generalizing index with
  | nil => cases h
  | cons doc r ih =>
    unfold readVariantsFrom at h
    rcases bind_eq_error_iff.mp h with hfirst | ⟨variant, -, h⟩
    · refine ⟨0, doc, rfl, ?_, ?_⟩
      · rintro ms rfl
        cases hfirst
      · unfold readVariant at hfirst
        split at hfirst <;> cases hfirst
        rfl
    rcases bind_eq_error_iff.mp h with hr | ⟨others, -, h⟩
    · obtain ⟨i, value, hi, hv, hp⟩ := ih hr
      exact ⟨i + 1, value, hi, hv, by rw [hp, Nat.add_right_comm, Nat.add_assoc]⟩
    · cases h

theorem blames_of_readVariantList (hdata : decoded (firstOf variantsKeys doc) = data)
    (hr : Rejected doc place) (h : readVariantList place data = .error e) :
    Blames doc place e := by
  unfold readVariantList at h
  split at h
  · next first others =>
    obtain ⟨i, value, hi, hv, hp⟩ := readVariantsFrom_eq_error h
    rw [Nat.zero_add] at hp
    refine ⟨_, hp, blame_variant ?_ (rejected_of_not_object hv)⟩
    rw [valueInside, hdata]
    exact hi
  · cases h
    exact blames_self hr rfl

/-- The data of variants are at fault at a variant, or as a whole where they stand. -/
theorem blames_of_readVariantData (hr : Rejected doc place)
    (h : readVariantData place (firstOf variantsKeys doc) = .error e) : Blames doc place e := by
  unfold readVariantData at h
  split at h
  · next s hs =>
    split at h
    · cases h
      exact blames_self hr rfl
    · next data hread =>
      refine blames_of_readVariantList ?_ hr h
      rw [hs, decoded, hread]
      rfl
  · next hnot =>
    refine blames_of_readVariantList ?_ hr h
    unfold decoded
    split
    · next s hs => exact absurd hs (hnot s)
    · rfl

/-- A child that holds the variants of an enumeration is no node, as its type is no kind. -/
theorem rejected_of_holder {ms : List (String × Json)}
    (h : (Json.object ms).get? "type" = some (.string holderWord)) :
    Rejected (.object ms) place := by
  have hgiven : firstOf kindKeys (.object ms) = .string holderWord := by
    unfold firstOf firstOf? kindKeys
    rw [List.findSome?_cons, h]
    rfl
  have hkind : readKind (.object ms) place = .error ⟨place, .kindUnknown (.string holderWord)⟩ := by
    rw [readKind, hgiven]
    rfl
  cases hname : readName (.object ms) place with
  | error e =>
    have hhead : readHead (.object ms) place = .error e := by
      simp [readHead, hname, bind, Except.bind]
    exact rejected_of_readHead hhead
  | ok name =>
    have hhead : readHead (.object ms) place =
        .error ⟨place, .kindUnknown (.string holderWord)⟩ := by
      simp [readHead, hname, hkind, bind, Except.bind]
    exact rejected_of_readHead hhead

/-- An enumeration is at fault itself, or in its data, or in those of its only child. -/
theorem blames_of_readVariants (hr : Rejected doc place)
    (h : readVariants doc place = .error e) :
    Blames doc place e := by
  unfold readVariants at h
  dsimp only at h
  split at h
  · cases h
    exact blames_self hr rfl
  · exact blames_of_readVariantData hr h
  · next hdocs =>
    split at h
    · cases h
      exact blames_self hr rfl
    split at h
    · next ms =>
      split at h
      · next word hword =>
        split at h
        · next hw =>
          rw [hw] at hword
          obtain ⟨rest, hp, hb⟩ := blames_of_readVariantData (rejected_of_holder hword) h
          have hchild : IsChild doc place 0 _ := isChild_of_attributes hdocs rfl
            fun j hj => absurd hj (Nat.not_lt_zero j)
          exact ⟨.child 0 :: rest, hp.trans (append_child place 0 rest).symm, hchild.blame hb⟩
        · cases h
          exact blames_self hr rfl
      · cases h
        exact blames_self hr rfl
    · cases h
      exact blames_self hr rfl

/-! ## Nodes -/

/-- Children are at fault at the first one that is rejected, or that the host refuses. -/
theorem readChildren_eq_error (h : readChildren host place index docs = .error e) :
    ∃ i child, docs[i]? = some child ∧
      (∀ j < i, ∃ sibling, docs[j]? = some sibling ∧
        Accepted sibling (place ++ [.child (index + j)])) ∧
      (readNode child (place ++ [.child (index + i)]) = .error e ∨
        ∃ node cause, readNode child (place ++ [.child (index + i)]) = .ok node ∧
          host.refusal node = some cause ∧ e.place = place ++ [.child (index + i)]) := by
  induction docs generalizing index with
  | nil =>
    rw [readChildren] at h
    cases h
  | cons doc r ih =>
    rw [readChildren] at h
    cases hn : readNode doc (place ++ [.child index]) with
    | error e' =>
      rw [hn] at h
      cases h
      exact ⟨0, doc, rfl, fun j hj => absurd hj (Nat.not_lt_zero j), .inl hn⟩
    | ok node =>
    rw [hn] at h
    cases hc : host.refusal node with
    | some cause =>
      simp only [hc] at h
      cases h
      exact ⟨0, doc, rfl, fun j hj => absurd hj (Nat.not_lt_zero j),
        .inr ⟨node, cause, hn, hc, rfl⟩⟩
    | none =>
    simp only [hc] at h
    obtain ⟨i, child, hi, hbefore, hcase⟩ := ih (map_eq_error_iff.mp h)
    have hindex (j : Nat) : index + 1 + j = index + (j + 1) := by omega
    rw [hindex i] at hcase
    refine ⟨i + 1, child, hi, fun j hj => ?_, hcase⟩
    cases j with
    | zero => exact ⟨doc, rfl, node, hn⟩
    | succ j =>
      rw [← hindex j]
      exact hbefore j (by omega)

theorem misplaced_in_entity (hh : readHead doc place = .ok (kind, info))
    (hk : kind = .aggregateRoot ∨ kind = .simpleEntity) (i : Nat) (node : Node)
    (hc : (Host.entity.refusal node).isSome) : Misplaced doc place [.child i] node := by
  refine .rootNested i hh hk ?_
  cases node with
  | value v => cases hc
  | entity info isRoot sub members =>
    cases isRoot with
    | true => rfl
    | false => cases hc

theorem misplaced_in_valueObject
    (hh : readHead doc place = .ok (.valueObject, info)) (i : Nat)
    (node : Node) (hc : (Host.valueObject.refusal node).isSome) :
    Misplaced doc place [.child i] node := by
  refine .inValueObject i hh ?_
  cases node with
  | value v => cases hc
  | entity info isRoot sub members =>
    cases isRoot with
    | true => exact .inl rfl
    | false => exact .inr rfl

/-- What is made of the children is at fault at the first one that is, or where the node stands. -/
theorem blames_of_readInside {make : List Node → Except Error Node}
    (hr : Rejected doc place)
    (hinside : ∀ docs, attributes? doc = some docs → ∀ child ∈ docs, ∀ place e,
      readNode child place = .error e → Blames child place e)
    (hmisplaced : ∀ i node, (host.refusal node).isSome → Misplaced doc place [.child i] node)
    (hmake : ∀ nodes e, make nodes = .error e → e.place = place)
    (h : readInside host doc place make = .error e) : Blames doc place e := by
  unfold readInside at h
  cases hdocs : attributes? doc with
  | none =>
    rw [hdocs] at h
    cases h
    exact blames_self hr rfl
  | some docs =>
  cases hnodes : readChildren host place 0 docs with
  | ok nodes =>
    simp only [hdocs, hnodes] at h
    exact blames_self hr (hmake nodes e h)
  | error e' =>
  simp only [hdocs, hnodes] at h
  cases h
  obtain ⟨i, child, hi, hbefore, hcase⟩ := readChildren_eq_error hnodes
  simp only [Nat.zero_add] at hbefore hcase
  have hchild := isChild_of_attributes hdocs hi hbefore
  rcases hcase with hn | ⟨node, cause, hn, hc, hp⟩
  · obtain ⟨rest, hp, hb⟩ := hinside docs hdocs child (List.mem_of_getElem? hi) _ _ hn
    exact ⟨.child i :: rest, hp.trans (append_child place i rest).symm, hchild.blame hb⟩
  · exact ⟨[.child i], hp, hchild.blame_misplaced hn (hmisplaced i node (by rw [hc]; rfl))⟩

/-- A fault of a node is one that lies in it. -/
theorem blames_of_readNode {doc : Json} {place : Place} {e : Error}
    (h : readNode doc place = .error e) : Blames doc place e := by
  have hr : Rejected doc place := ⟨e, h⟩
  have hinside : ∀ docs, attributes? doc = some docs → ∀ child ∈ docs, ∀ place e,
      readNode child place = .error e → Blames child place e :=
    fun docs hdocs child hm place e h => blames_of_readNode h
  rw [readNode_eq] at h
  cases hh : readHead doc place with
  | error e' =>
    rw [hh] at h
    cases h
    exact blames_self hr (place_of_readHead hh)
  | ok head =>
  obtain ⟨kind, info⟩ := head
  rw [hh] at h
  cases kind with
  | enumeration => exact blames_of_readVariants hr (map_eq_error_iff.mp h)
  | valueObject =>
    cases hp : readPrimitive doc place with
    | error e' =>
      rw [hp] at h
      cases h
      exact blames_self hr (place_of_readPrimitive hp)
    | ok primitive =>
      rw [hp] at h
      refine blames_of_readInside hr hinside (misplaced_in_valueObject hh) (fun nodes e hm => ?_) h
      have hplace : e.place = info.place := place_of_makeValueObject (map_eq_error_iff.mp hm)
      exact hplace.trans (formedAt_of_readHead hh).place_eq
  | aggregateRoot =>
    exact blames_of_readInside hr hinside (misplaced_in_entity hh (.inl rfl))
      (fun nodes e hm => by cases hm) h
  | simpleEntity =>
    exact blames_of_readInside hr hinside (misplaced_in_entity hh (.inr rfl))
      (fun nodes e hm => place_of_readSubPackage (map_eq_error_iff.mp hm)) h
  termination_by sizeOf doc
  decreasing_by
    have hlt := List.sizeOf_lt_of_mem hm
    have hle := sizeOf_of_attributes? hdocs
    omega

/-! ## Documents -/

theorem blame_of_ofDocument (h : Tree.ofDocument doc = .error e) : Blame doc
    [] e.place := by
  unfold Tree.ofDocument at h
  split at h
  · next ms =>
    cases hn : readNode (.object ms) [] with
    | error e' =>
      rw [hn] at h
      cases h
      obtain ⟨rest, hp, hb⟩ := blames_of_readNode hn
      rwa [hp]
    | ok node =>
      rw [hn] at h
      cases node with
      | entity info isRoot sub members => cases h
      | value v =>
        cases h
        exact ⟨⟨_, rfl, .inr ⟨_, hn, .root _ v⟩⟩, fun front i back hrest => by simp at hrest⟩
  · next hnot =>
    cases h
    exact blame_self (rejected_of_not_object hnot)

/-- Blame is accurate. The place of a fault is there in the document, the value at it is rejected or
misplaced, and the children before it or before a node that it stands in are accepted. -/
theorem blame_of_read (h : Tree.read doc = .error e) : Blame (decoded doc)
    [] e.place := by
  unfold Tree.read at h
  split at h
  · next s =>
    split at h
    · next fault hs =>
      cases h
      rw [decoded, hs]
      exact blame_self (rejected_of_not_object fun ms hms => by cases hms)
    · next doc hs =>
      rw [decoded, hs]
      exact blame_of_ofDocument h
  · next hnot =>
    have hdoc : decoded doc = doc := by
      unfold decoded
      split
      · next s => exact absurd rfl (hnot s)
      · rfl
    rw [hdoc]
    exact blame_of_ofDocument h

end Reading

/-- An aggregate root, which does not belong in an entity. -/
def nestedRoot : Json :=
  .object [("name", .string "item"), ("type", .string "AggregateRootEntity")]

/-- An entity with a value object and an aggregate root. -/
def rootInside : Json :=
  .object [("name", .string "order"), ("type", .string "SimpleEntity"),
    ("attributes", .array [samplePart, nestedRoot])]

open scoped Surrogates in
theorem read_rootInside : Tree.read rootInside = .error ⟨[.child 1], .rootNested⟩ := by
  have hroot (place : Place) : readNode nestedRoot place =
      .ok (.entity ⟨"item", "item领域模型", .single, place⟩ true none []) :=
    readNode_of_aggregateRoot rfl rfl (by rw [readChildren])
  have hmembers : readChildren .entity [] 0 [samplePart, nestedRoot] =
      .error ⟨[.child 1], .rootNested⟩ := by
    rw [readChildren, readNode_samplePart]
    simp only [Host.refusal]
    rw [readChildren, hroot]
    rfl
  have hnode : readNode rootInside [] = .error ⟨[.child 1], .rootNested⟩ := by
    have hdocs : attributes? rootInside = some [samplePart, nestedRoot] := rfl
    rw [readNode_eq]
    show readInside .entity _ [] _ = _
    rw [readInside_of_some hdocs, hmembers]
  show Tree.ofDocument (.object _) = _
  unfold rootInside at hnode
  rw [Tree.ofDocument, hnode]

open scoped Surrogates in
theorem blame_of_read_rootInside : Blame rootInside [] [.child 1] :=
  blame_of_read read_rootInside

end DomainCodegen.Schema
