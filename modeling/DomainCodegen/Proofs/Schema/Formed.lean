import DomainCodegen.Proofs.Text.Blank
import DomainCodegen.Schema.Reader

/-!
# Well-formed trees

What holds of every node of a schema tree: it knows its own place, its texts are stripped, its name
gives a class and a field, a value object is made of something, and no entity inside another one is
an aggregate root. `wellFormed_of_read` says that reading gives nothing but such trees.
-/

namespace DomainCodegen.Schema

variable {doc : Json} {docs : List Json} {place : Place} {node : Node} {info : Info} {kind : Kind}
  {host : Host} {index : Nat} {nodes : List Node}

/-! ## Well-formed nodes -/

/-- What every node at a place has: a stripped name that Java allows as a class and, in its other
form, as a field, and a stripped description. -/
structure Info.FormedAt (place : Place) (info : Info) : Prop where
  place_eq : info.place = place
  name_ne_empty : info.name ≠ ""
  name_stripped : Text.stripped info.name = info.name
  classAllowed : Name.isIdentifier (Name.className info.name) = true
  fieldAllowed : Name.isIdentifier (Name.fieldName info.name) = true
  description_ne_empty : info.description ≠ ""
  description_stripped : Text.stripped info.description = info.description

structure Variant.Stripped (v : Variant) : Prop where
  constant : Text.stripped v.constant = v.constant
  meaning : Text.stripped v.meaning = v.meaning

instance (place : Place) (info : Info) : Decidable (info.FormedAt place) :=
  decidable_of_iff
    (info.place = place ∧ info.name ≠ "" ∧ Text.stripped info.name = info.name ∧
      Name.isIdentifier (Name.className info.name) = true ∧
      Name.isIdentifier (Name.fieldName info.name) = true ∧
      info.description ≠ "" ∧ Text.stripped info.description = info.description)
    ⟨fun ⟨h₁, h₂, h₃, h₄, h₅, h₆, h₇⟩ => ⟨h₁, h₂, h₃, h₄, h₅, h₆, h₇⟩,
      fun ⟨h₁, h₂, h₃, h₄, h₅, h₆, h₇⟩ => ⟨h₁, h₂, h₃, h₄, h₅, h₆, h₇⟩⟩

instance (v : Variant) : Decidable v.Stripped :=
  decidable_of_iff (Text.stripped v.constant = v.constant ∧ Text.stripped v.meaning = v.meaning)
    ⟨fun ⟨hc, hm⟩ => ⟨hc, hm⟩, fun ⟨hc, hm⟩ => ⟨hc, hm⟩⟩

/-- A value object wraps a primitive, or has at least one part, or at least one variant. The part
with an index stands at the child with that index. -/
inductive ValueObject.FormedAt : Place → ValueObject → Prop
  | leaf {place : Place} {info : Info} (h : info.FormedAt place) (primitive : Primitive) :
    FormedAt place (.leaf info primitive)
  | composite {place : Place} {info : Info} {parts : List ValueObject} (h : info.FormedAt place)
    (hne : parts ≠ [])
    (hparts : ∀ i part, parts[i]? = some part → FormedAt (place ++ [.child i]) part) :
    FormedAt place (.composite info parts)
  | enumeration {place : Place} {info : Info} {variants : List Variant} (h : info.FormedAt place)
    (hne : variants ≠ []) (hvariants : ∀ v ∈ variants, v.Stripped) :
    FormedAt place (.enumeration info variants)

/-- An aggregate root has no sub-package, and no member of an entity is an aggregate root. -/
inductive Node.FormedAt : Place → Node → Prop
  | value {place : Place} {v : ValueObject} (h : v.FormedAt place) : FormedAt place (.value v)
  | entity {place : Place} {info : Info} {isRoot : Bool} {sub : Option String}
    {members : List Node} (h : info.FormedAt place)
    (hsub : ∀ s ∈ sub, isRoot = false ∧ PackageName.isValid s = true)
    (hroot : ∀ m ∈ members, m.kind ≠ .aggregateRoot)
    (hmembers : ∀ i m, members[i]? = some m → FormedAt (place ++ [.child i]) m) :
    FormedAt place (.entity info isRoot sub members)

/-- A tree whose nodes are well formed at their places. -/
def Tree.WellFormed (t : Tree) : Prop := t.node.FormedAt []

/-! ## Steps of a reader -/

section Steps

variable {α β : Type} {x : Except Error α} {e : Error} {b : β}

theorem map_eq_ok_iff {f : α → β} : x.map f = .ok b ↔ ∃ a, x = .ok a ∧ f a = b := by
  cases x with
  | error e => exact ⟨nofun, fun ⟨_, h, _⟩ => nomatch h⟩
  | ok a => simp [Except.map]

theorem map_eq_error_iff {f : α → β} : x.map f = .error e ↔ x = .error e := by
  cases x <;> simp [Except.map]

theorem bind_eq_ok_iff {f : α → Except Error β} :
    x >>= f = .ok b ↔ ∃ a, x = .ok a ∧ f a = .ok b := by
  cases x with
  | error e => exact ⟨nofun, fun ⟨_, h, _⟩ => nomatch h⟩
  | ok a => simp [bind, Except.bind]

theorem bind_eq_error_iff {f : α → Except Error β} :
    x >>= f = .error e ↔ x = .error e ∨ ∃ a, x = .ok a ∧ f a = .error e := by
  cases x <;> simp [bind, Except.bind]

end Steps

/-! ## Reading the parts of a node -/

theorem readName_eq_ok {name : String} (h : readName doc place = .ok name) :
    name ≠ "" ∧ Text.stripped name = name ∧ Name.isIdentifier (Name.className name) = true ∧
      Name.isIdentifier (Name.fieldName name) = true := by
  unfold readName at h
  split at h
  · dsimp only at h
    split at h
    · cases h
    · next hne =>
      split at h
      · next ha =>
        cases h
        exact ⟨hne, Text.stripped_stripped _, Bool.and_eq_true_iff.mp ha⟩
      · cases h
  · cases h

/-- A description that is made from a name is stripped, as the name is. -/
theorem readDescription_eq_ok {name description : String} (hne : name ≠ "")
    (hs : Text.stripped name = name) (h : readDescription doc name place = .ok description) :
    description ≠ "" ∧ Text.stripped description = description := by
  have hmade : name ++ "领域模型" ≠ "" ∧ Text.stripped (name ++ "领域模型") = name ++ "领域模型" :=
    ⟨by simp, Text.stripped_append hs hne (by decide) (by decide)⟩
  unfold readDescription at h
  split at h
  · cases h
    exact hmade
  · cases h
    split
    · exact hmade
    · next hd => exact ⟨hd, Text.stripped_stripped _⟩
  · cases h

/-- A head that was read has been read part by part. -/
theorem readHead_eq_ok (h : readHead doc place = .ok (kind, info)) :
    readName doc place = .ok info.name ∧ readKind doc place = .ok kind ∧
      readDescription doc info.name place = .ok info.description ∧ info.place = place := by
  unfold readHead at h
  split at h
  · obtain ⟨name, hname, h⟩ := bind_eq_ok_iff.mp h
    obtain ⟨kind', hkind, h⟩ := bind_eq_ok_iff.mp h
    obtain ⟨description, hdescription, h⟩ := bind_eq_ok_iff.mp h
    obtain ⟨cardinality, -, h⟩ := bind_eq_ok_iff.mp h
    cases h
    exact ⟨hname, hkind, hdescription, rfl⟩
  · cases h

theorem formedAt_of_readHead (h : readHead doc place = .ok (kind, info)) : info.FormedAt place := by
  obtain ⟨hname, -, hdescription, hplace⟩ := readHead_eq_ok h
  obtain ⟨hne, hs, hc, hf⟩ := readName_eq_ok hname
  obtain ⟨hdne, hds⟩ := readDescription_eq_ok hne hs hdescription
  exact ⟨hplace, hne, hs, hc, hf, hdne, hds⟩

theorem isValid_of_readSubPackage {sub : Option String} (h : readSubPackage doc place = .ok sub) :
    ∀ s ∈ sub, PackageName.isValid s = true := by
  unfold readSubPackage at h
  split at h
  · cases h
    exact nofun
  · split at h
    · next hv =>
      cases h
      rintro s ⟨⟩
      exact hv
    · cases h
  · cases h

/-! ## Reading variants -/

variable [Surrogates]

theorem stripped_variantText (value : Json) :
    Text.stripped (variantText value) = variantText value := by
  unfold variantText
  split
  · decide
  · exact Text.stripped_stripped _

theorem readVariantsFrom_eq_ok {variants : List Variant}
    (h : readVariantsFrom place index docs = .ok variants) :
    variants.length = docs.length ∧ ∀ v ∈ variants, v.Stripped := by
  induction docs generalizing index variants with
  | nil =>
    cases h
    exact ⟨rfl, nofun⟩
  | cons doc r ih =>
    unfold readVariantsFrom at h
    obtain ⟨variant, hv, h⟩ := bind_eq_ok_iff.mp h
    obtain ⟨others, hr, h⟩ := bind_eq_ok_iff.mp h
    cases h
    obtain ⟨hlen, hall⟩ := ih hr
    refine ⟨by rw [List.length_cons, hlen, List.length_cons],
      List.forall_mem_cons.mpr ⟨?_, hall⟩⟩
    unfold readVariant at hv
    split at hv <;> cases hv
    exact ⟨stripped_variantText _, stripped_variantText _⟩

theorem readVariantList_eq_ok {data : Json} {variants : List Variant}
    (h : readVariantList place data = .ok variants) :
    variants ≠ [] ∧ ∀ v ∈ variants, v.Stripped := by
  unfold readVariantList at h
  split at h
  · obtain ⟨hlen, hall⟩ := readVariantsFrom_eq_ok h
    exact ⟨List.ne_nil_of_length_eq_add_one hlen, hall⟩
  · cases h

theorem readVariantData_eq_ok {data : Json} {variants : List Variant}
    (h : readVariantData place data = .ok variants) :
    variants ≠ [] ∧ ∀ v ∈ variants, v.Stripped := by
  unfold readVariantData at h
  split at h
  · split at h
    · cases h
    · exact readVariantList_eq_ok h
  · exact readVariantList_eq_ok h

/-- Wherever the variants of an enumeration are written, there is one at least. -/
theorem readVariants_eq_ok {variants : List Variant}
    (h : readVariants doc place = .ok variants) :
    variants ≠ [] ∧ ∀ v ∈ variants, v.Stripped := by
  unfold readVariants at h
  dsimp only at h
  split at h
  · cases h
  · exact readVariantData_eq_ok h
  · split at h
    · cases h
    split at h
    · split at h
      · split at h
        · exact readVariantData_eq_ok h
        · cases h
      · cases h
    · cases h

/-! ## Reading nodes -/

/-- What the children of a node are made into. -/
def readInside (host : Host) (doc : Json) (place : Place)
    (make : List Node → Except Error Node) :
    Except Error Node :=
  match attributes? doc with
  | none => .error ⟨place, .attributesNotArray⟩
  | some docs =>
    match readChildren host place 0 docs with
    | .error e => .error e
    | .ok nodes => make nodes

theorem readInside_of_none {host : Host} {make : List Node → Except Error Node}
    (h : attributes? doc = none) :
    readInside host doc place make = .error ⟨place, .attributesNotArray⟩ := by
  rw [readInside, h]

theorem readInside_of_some {host : Host} {make : List Node → Except Error Node}
    (h : attributes? doc = some docs) :
    readInside host doc place make =
      match readChildren host place 0 docs with
      | .error e => .error e
      | .ok nodes => make nodes := by
  rw [readInside, h]

theorem readInside_eq_ok {host : Host} {make : List Node → Except Error Node}
    (h : readInside host doc place make = .ok node) :
    ∃ docs nodes, attributes? doc = some docs ∧ readChildren host place 0 docs = .ok nodes ∧
      make nodes = .ok node := by
  unfold readInside at h
  split at h
  · cases h
  next docs hdocs =>
  split at h
  · cases h
  next nodes hnodes => exact ⟨docs, nodes, hdocs, hnodes, h⟩

/-- A node is read from its head and, by its kind, from its variants or its children. -/
theorem readNode_eq (doc : Json) (place : Place) :
    readNode doc place =
      match readHead doc place with
      | .error e => .error e
      | .ok (.enumeration, info) =>
        (readVariants doc place).map fun variants => .value (.enumeration info variants)
      | .ok (.valueObject, info) =>
        match readPrimitive doc place with
        | .error e => .error e
        | .ok primitive => readInside .valueObject doc place fun children =>
          (makeValueObject info primitive (children.filterMap Node.value?)).map .value
      | .ok (kind, info) => readInside .entity doc place fun members =>
        if kind = .aggregateRoot then .ok (.entity info true none members)
        else (readSubPackage doc place).map fun sub => .entity info false sub members := by
  rw [readNode]
  cases readHead doc place with
  | error e => rfl
  | ok head =>
    obtain ⟨kind, info⟩ := head
    cases kind with
    | enumeration => rfl
    | valueObject =>
      cases readPrimitive doc place with
      | error e => rfl
      | ok primitive =>
        dsimp only
        split
        · next hdocs => exact (readInside_of_none hdocs).symm
        · next docs hdocs => exact (readInside_of_some hdocs).symm
    | _ =>
      dsimp only
      split
      · next hdocs => exact (readInside_of_none hdocs).symm
      · next docs hdocs => exact (readInside_of_some hdocs).symm

theorem readNode_of_error {e : Error} (h : readHead doc place = .error e) :
    readNode doc place = .error e := by
  rw [readNode_eq, h]

/-- What a node that was read was made from. -/
inductive ReadFrom (doc : Json) (place : Place) (info : Info) : Node → Prop
  | enumeration {variants : List Variant} (h : readVariants doc place = .ok variants) :
    ReadFrom doc place info (.value (.enumeration info variants))
  | valueObject {primitive : Option Primitive} {docs : List Json} {children : List Node}
    {v : ValueObject} (hdocs : attributes? doc = some docs)
    (hchildren : readChildren .valueObject place 0 docs = .ok children)
    (hv : makeValueObject info primitive (children.filterMap Node.value?) = .ok v) :
    ReadFrom doc place info (.value v)
  | entity {docs : List Json} {isRoot : Bool} {sub : Option String} {members : List Node}
    (hdocs : attributes? doc = some docs)
    (hmembers : readChildren .entity place 0 docs = .ok members)
    (hsub : ∀ s ∈ sub, isRoot = false ∧ PackageName.isValid s = true) :
    ReadFrom doc place info (.entity info isRoot sub members)

theorem readFrom_of_readNode (h : readNode doc place = .ok node) :
    ∃ kind info, readHead doc place = .ok (kind, info) ∧ ReadFrom doc place info node := by
  rw [readNode_eq] at h
  cases hh : readHead doc place with
  | error e => rw [hh] at h; cases h
  | ok head =>
  obtain ⟨kind, info⟩ := head
  refine ⟨kind, info, rfl, ?_⟩
  rw [hh] at h
  cases kind with
  | enumeration =>
    obtain ⟨variants, hv, rfl⟩ := map_eq_ok_iff.mp h
    exact .enumeration hv
  | valueObject =>
    dsimp only at h
    split at h
    · cases h
    obtain ⟨docs, children, hdocs, hchildren, hmade⟩ := readInside_eq_ok h
    obtain ⟨v, hv, rfl⟩ := map_eq_ok_iff.mp hmade
    exact .valueObject hdocs hchildren hv
  | aggregateRoot =>
    obtain ⟨docs, members, hdocs, hmembers, hmade⟩ := readInside_eq_ok h
    cases hmade
    exact .entity hdocs hmembers fun s hs => absurd hs.symm (Option.some_ne_none s)
  | simpleEntity =>
    obtain ⟨docs, members, hdocs, hmembers, hmade⟩ := readInside_eq_ok h
    have hkind : Kind.simpleEntity ≠ .aggregateRoot := by decide
    rw [if_neg hkind] at hmade
    obtain ⟨sub, hs, rfl⟩ := map_eq_ok_iff.mp hmade
    exact .entity hdocs hmembers fun s hm => ⟨rfl, isValid_of_readSubPackage hs s hm⟩

theorem readNode_of_valueObject {primitive : Option Primitive} {children : List Node}
    (hh : readHead doc place = .ok (.valueObject, info))
    (hp : readPrimitive doc place = .ok primitive) (hdocs : attributes? doc = some docs)
    (hchildren : readChildren .valueObject place 0 docs = .ok children) :
    readNode doc place =
      (makeValueObject info primitive (children.filterMap Node.value?)).map .value := by
  rw [readNode_eq]
  simp only [hh, hp, readInside_of_some hdocs, hchildren]

theorem readNode_of_aggregateRoot {members : List Node}
    (hh : readHead doc place = .ok (.aggregateRoot, info)) (hdocs : attributes? doc = some docs)
    (hmembers : readChildren .entity place 0 docs = .ok members) :
    readNode doc place = .ok (.entity info true none members) := by
  rw [readNode_eq]
  simp only [hh, readInside_of_some hdocs, hmembers]
  rfl

theorem readNode_of_simpleEntity {members : List Node}
    (hh : readHead doc place = .ok (.simpleEntity, info)) (hdocs : attributes? doc = some docs)
    (hmembers : readChildren .entity place 0 docs = .ok members) :
    readNode doc place =
      (readSubPackage doc place).map fun sub => .entity info false sub members := by
  rw [readNode_eq]
  simp only [hh, readInside_of_some hdocs, hmembers]
  rfl

omit [Surrogates] in
/-- Children in a value object are value objects. -/
theorem eq_map_of_refusal (h : ∀ node ∈ nodes, Host.refusal .valueObject node = none) :
    nodes = (nodes.filterMap Node.value?).map .value := by
  induction nodes with
  | nil => rfl
  | cons node r ih =>
    obtain ⟨hn, hr⟩ := List.forall_mem_cons.mp h
    cases node with
    | entity info isRoot sub members => cases hn
    | value v =>
      have hv : Node.value? (.value v) = some v := rfl
      rw [List.filterMap_cons_some hv, List.map_cons, ← ih hr]

omit [Surrogates] in
theorem kind_ne_of_refusal (h : Host.refusal .entity node = none) : node.kind ≠ .aggregateRoot := by
  cases node with
  | value v => cases v <;> exact nofun
  | entity info isRoot sub members =>
    cases isRoot
    · exact nofun
    · cases h

omit [Surrogates] in
theorem formedAt_of_makeValueObject {primitive : Option Primitive} {parts : List ValueObject}
    {v : ValueObject} (hi : info.FormedAt place)
    (hparts : ∀ i (part : ValueObject), parts[i]? = some part →
      part.FormedAt (place ++ [.child i]))
    (h : makeValueObject info primitive parts = .ok v) : v.FormedAt place := by
  unfold makeValueObject at h
  split at h <;> cases h
  · exact .leaf hi _
  · next hne => exact .composite hi hne hparts

mutual

theorem formedAt_of_readNode {doc : Json} {place : Place} {node : Node}
    (h : readNode doc place = .ok node) : node.FormedAt place := by
  obtain ⟨kind, info, hh, hfrom⟩ := readFrom_of_readNode h
  have hi := formedAt_of_readHead hh
  cases hfrom with
  | enumeration hv =>
    obtain ⟨hne, hall⟩ := readVariants_eq_ok hv
    exact .value (.enumeration hi hne hall)
  | valueObject hdocs hchildren hv =>
    have hall := formedAt_of_readChildren hchildren
    refine .value (formedAt_of_makeValueObject hi (fun i part hp => ?_) hv)
    have hmap := eq_map_of_refusal fun n hn => by
      obtain ⟨i, hget⟩ := List.mem_iff_getElem?.mp hn
      exact (hall i n hget).2
    have hchild := (hall i (.value part) (by rw [hmap, List.getElem?_map, hp]; rfl)).1
    rw [Nat.zero_add] at hchild
    cases hchild with
    | value hpart => exact hpart
  | entity hdocs hmembers hsub =>
    have hall := formedAt_of_readChildren hmembers
    refine .entity hi hsub (fun m hm => ?_) fun i m hm => ?_
    · obtain ⟨i, hget⟩ := List.mem_iff_getElem?.mp hm
      exact kind_ne_of_refusal (hall i m hget).2
    · have hchild := (hall i m hm).1
      rwa [Nat.zero_add] at hchild
  termination_by sizeOf doc + 1
  decreasing_by all_goals exact Nat.lt_succ_of_le (sizeOf_of_attributes? ‹_›)

/-- The children that were read stand at the children of the place, counted from the first of them,
and the host takes them. -/
theorem formedAt_of_readChildren {docs : List Json} {host : Host} {place : Place}
    {index : Nat}
    {nodes : List Node} (h : readChildren host place index docs = .ok nodes) (i : Nat)
    (node : Node) (hn : nodes[i]? = some node) :
    node.FormedAt (place ++ [.child (index + i)]) ∧ host.refusal node = none := by
  match docs, h with
  | [], h =>
    unfold readChildren at h
    cases h
    cases hn
  | doc :: r, h =>
    unfold readChildren at h
    dsimp only at h
    split at h
    · cases h
    next first hfirst =>
    split at h
    · cases h
    next hrefusal =>
    obtain ⟨others, hr, rfl⟩ := map_eq_ok_iff.mp h
    cases i with
    | zero =>
      cases hn
      exact ⟨formedAt_of_readNode hfirst, hrefusal⟩
    | succ i =>
      have hrest := formedAt_of_readChildren hr i node hn
      rwa [Nat.add_right_comm] at hrest
  termination_by sizeOf docs
  decreasing_by
    · simp only [List.cons.sizeOf_spec]
      have : 1 ≤ sizeOf r := by cases r <;> simp +arith
      omega
    · simp only [List.cons.sizeOf_spec]
      omega

end

theorem wellFormed_of_ofDocument {tree : Tree} (h : Tree.ofDocument doc = .ok tree) :
    tree.WellFormed := by
  unfold Tree.ofDocument at h
  split at h
  · split at h
    · cases h
    · next hn =>
      cases h
      exact formedAt_of_readNode hn
    · cases h
  · cases h

/-- A tree that was read is well formed. -/
theorem wellFormed_of_read {tree : Tree} (h : Tree.read doc = .ok tree) :
    tree.WellFormed := by
  unfold Tree.read at h
  split at h
  · split at h
    · cases h
    · exact wellFormed_of_ofDocument h
  · exact wellFormed_of_ofDocument h

end DomainCodegen.Schema
