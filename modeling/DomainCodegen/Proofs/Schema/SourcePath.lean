import Mathlib.Data.List.Nodup
import DomainCodegen.Proofs.Schema.Formed

/-!
# Source paths

A place is written as a source path such as `$.attributes[1].attributes[0]`. A source path says
which place it is (`Place.text_injective`), because the digits of an index end at a bracket; and no
two nodes of a well-formed tree stand at one place, so that they have different source paths
(`Tree.WellFormed.nodup_sourcePaths`).
-/

namespace DomainCodegen.Schema

variable {place : Place} {node : Node}

/-! ## Paths and places -/

/-- What a step is written with in front of its index. -/
def Step.opening : Step → List Char
  | child _ => ['.', 'a', 't', 't', 'r', 'i', 'b', 'u', 't', 'e', 's', '[']
  | variant _ => ['.', 'e', 'n', 'u', 'm', 'D', 'a', 't', 'a', '[']

def Step.index : Step → Nat
  | child i => i
  | variant i => i

/-- The characters of a step. -/
def Step.chars (s : Step) : List Char := s.opening ++ Nat.toDigits 10 s.index ++ [']']

theorem Step.toList_text (s : Step) : s.text.toList = s.chars := by
  have hchild : ".attributes[".toList = opening (.child 0) := by decide
  have hvariant : ".enumData[".toList = opening (.variant 0) := by decide
  have hclose : "]".toList = [']'] := by decide
  cases s with
  | child i =>
    rw [Step.text, Nat.toString_eq_repr, String.toList_append, String.toList_append,
      Nat.toList_repr, hchild, hclose]
    rfl
  | variant i =>
    rw [Step.text, Nat.toString_eq_repr, String.toList_append, String.toList_append,
      Nat.toList_repr, hvariant, hclose]
    rfl

theorem Place.toList_text (place : Place) :
    place.text.toList = '$' :: place.flatMap Step.chars := by
  unfold Place.text
  rw [String.toList_append, String.toList_join, List.flatMap_map]
  simp only [Step.toList_text]
  rfl

/-- The digits of an index end at the bracket behind them. -/
theorem index_inj {i j : Nat} {r r' : List Char}
    (h : Nat.toDigits 10 i ++ ']' :: r = Nat.toDigits 10 j ++ ']' :: r') : i = j ∧ r = r' := by
  have htake : ∀ n r, (Nat.toDigits 10 n ++ ']' :: r).takeWhile Char.isDigit =
      Nat.toDigits 10 n := by
    intro n r
    have hdigits : ∀ c ∈ Nat.toDigits 10 n, c.isDigit = true := fun c hc =>
      Nat.isDigit_of_mem_toDigits (by decide) (by decide) hc
    rw [List.takeWhile_append_of_pos hdigits, List.takeWhile_cons_of_neg (by decide),
      List.append_nil]
  have hd : Nat.toDigits 10 i = Nat.toDigits 10 j := by rw [← htake i r, h, htake]
  rw [hd, List.append_cancel_left_eq, List.cons.injEq] at h
  have hi : i = j := by
    rw [← Nat.ofDigitChars_ten_toDigits (n := i), hd, Nat.ofDigitChars_ten_toDigits]
  exact ⟨hi, h.2⟩

theorem Step.opening_eq {s t : Step} {r r' : List Char}
    (h : s.opening ++ r = t.opening ++ r') : s.opening = t.opening := by
  cases s <;> cases t <;> first | rfl | simp [opening] at h

theorem Step.eq_of_opening_eq {s t : Step} (h : s.opening = t.opening) (hi : s.index = t.index) :
    s = t := by
  cases s <;> cases t <;> first | exact congrArg _ hi | simp [opening] at h

/-- A step that a text starts with is the only one. -/
theorem Step.chars_append_inj {s t : Step} {r r' : List Char} (h : s.chars ++ r = t.chars ++ r') :
    s = t ∧ r = r' := by
  simp only [chars, List.append_assoc, List.cons_append, List.nil_append] at h
  have hopening := opening_eq h
  rw [hopening, List.append_cancel_left_eq] at h
  obtain ⟨hi, hr⟩ := index_inj h
  exact ⟨eq_of_opening_eq hopening hi, hr⟩

theorem flatMap_chars_inj {p q : Place} (h : p.flatMap Step.chars = q.flatMap Step.chars) :
    p = q := by
  induction p generalizing q with
  | nil =>
    cases q with
    | nil => rfl
    | cons t q => cases t <;> cases h
  | cons s p ih =>
    cases q with
    | nil => cases s <;> cases h
    | cons t q =>
      rw [List.flatMap_cons, List.flatMap_cons] at h
      obtain ⟨rfl, hr⟩ := Step.chars_append_inj h
      rw [ih hr]

/-- Different places have different source paths. -/
theorem Place.text_injective : Function.Injective Place.text := by
  intro p q h
  have hc := congrArg String.toList h
  rw [Place.toList_text, Place.toList_text, List.cons.injEq] at hc
  exact flatMap_chars_inj hc.2

/-! ## The places of the nodes of a tree -/

mutual

/-- The places of the nodes of a value object, in document order. -/
def ValueObject.places : ValueObject → List Place
  | .leaf info _ => [info.place]
  | .composite info parts => info.place :: placesOfParts parts
  | .enumeration info _ => [info.place]

def placesOfParts : List ValueObject → List Place
  | [] => []
  | v :: r => v.places ++ placesOfParts r

end

mutual

def Node.places : Node → List Place
  | .value v => v.places
  | .entity info _ _ members => info.place :: placesOfMembers members

def placesOfMembers : List Node → List Place
  | [] => []
  | m :: r => m.places ++ placesOfMembers r

end

/-- The source paths of the nodes of a tree, in document order. -/
def Tree.sourcePaths (t : Tree) : List String := t.node.places.map Place.text

theorem placesOfParts_eq (parts : List ValueObject) :
    placesOfParts parts = parts.flatMap ValueObject.places := by
  induction parts with
  | nil => rfl
  | cons v r ih => rw [placesOfParts, ih, List.flatMap_cons]

theorem placesOfMembers_eq (members : List Node) :
    placesOfMembers members = members.flatMap Node.places := by
  induction members with
  | nil => rfl
  | cons m r ih => rw [placesOfMembers, ih, List.flatMap_cons]

/-- Different places at or below a place. -/
structure ApartBelow (place : Place) (places : List Place) : Prop where
  starts : ∀ p ∈ places, place <+: p
  nodup : places.Nodup

theorem ApartBelow.single (place : Place) : ApartBelow place [place] where
  starts _ hp := List.mem_singleton.mp hp ▸ List.prefix_refl _
  nodup := List.nodup_singleton place

/-- Two places below different children of a place are different. -/
theorem child_unique {i j : Nat} {p : Place} (hi : place ++ [.child i] <+: p)
    (hj : place ++ [.child j] <+: p) : i = j := by
  have heq := List.prefix_of_prefix_length_le hi hj (by simp)
  have := heq.eq_of_length (by simp)
  simpa using this

/-- The places of children, each below its own step, are apart, also from the place of the host. -/
theorem ApartBelow.cons_flatMap {α : Type} {f : α → List Place} {children : List α}
    (h : ∀ i c, children[i]? = some c → ApartBelow (place ++ [.child i]) (f c)) :
    ApartBelow place (place :: children.flatMap f) := by
  have hbelow : ∀ p ∈ children.flatMap f, ∃ i, place ++ [.child i] <+: p := by
    intro p hp
    obtain ⟨c, hc, hpc⟩ := List.mem_flatMap.mp hp
    obtain ⟨i, hget⟩ := List.mem_iff_getElem?.mp hc
    exact ⟨i, (h i c hget).starts p hpc⟩
  refine ⟨List.forall_mem_cons.mpr ⟨List.prefix_refl _, fun p hp => ?_⟩,
    List.nodup_cons.mpr ⟨fun hp => ?_, List.nodup_flatMap.mpr ⟨fun c hc => ?_, ?_⟩⟩⟩
  · obtain ⟨i, hi⟩ := hbelow p hp
    exact (List.prefix_append _ _).trans hi
  · obtain ⟨i, hi⟩ := hbelow place hp
    have hlen := hi.length_le
    rw [List.length_append, List.length_singleton] at hlen
    omega
  · obtain ⟨i, hget⟩ := List.mem_iff_getElem?.mp hc
    exact (h i c hget).nodup
  · rw [List.pairwise_iff_getElem]
    intro i j hi hj hij p hpi hpj
    have hstart := (h i _ (List.getElem?_eq_getElem hi)).starts p hpi
    have hstart' := (h j _ (List.getElem?_eq_getElem hj)).starts p hpj
    exact hij.ne (child_unique hstart hstart')

theorem ValueObject.FormedAt.apartBelow {v : ValueObject} (h : v.FormedAt place) :
    ApartBelow place v.places := by
  induction h with
  | leaf hi _ =>
    rw [ValueObject.places, hi.place_eq]
    exact .single _
  | composite hi _ _ ih =>
    rw [ValueObject.places, hi.place_eq, placesOfParts_eq]
    exact .cons_flatMap ih
  | enumeration hi _ _ =>
    rw [ValueObject.places, hi.place_eq]
    exact .single _

theorem Node.FormedAt.apartBelow (h : node.FormedAt place) : ApartBelow place node.places := by
  induction h with
  | value hv => exact hv.apartBelow
  | entity hi _ _ _ ih =>
    rw [Node.places, hi.place_eq, placesOfMembers_eq]
    exact .cons_flatMap ih

/-- No two nodes of a well-formed tree have one source path. -/
theorem Tree.WellFormed.nodup_sourcePaths {tree : Tree} (h : tree.WellFormed) :
    tree.sourcePaths.Nodup :=
  h.apartBelow.nodup.map Place.text_injective

end DomainCodegen.Schema
