import DomainCodegen.Proofs.Artifact.Contents

/-!
# Free text in generated files

The descriptions of an artifact and the meanings of its variants are free text. They reach its file
in Javadoc and in string literals only, so a file without its comments and the contents of its
literals does not depend on them: two artifacts that differ in free text alone either both have no
file, or have files with one skeleton (`skeleton_agrees`).
-/

namespace DomainCodegen

namespace Java

/-! ## Files without their free text -/

/-- What is left of a piece when comments and the contents of literals are deleted. -/
def Piece.residue (p : Piece) : List Char := p.lexemes.flatMap Lexeme.residue

def residue (ps : List Piece) : List Char := ps.flatMap Piece.residue

variable {p : Piece} {ps qs : List Piece}

theorem residue_cons : residue (p :: ps) = p.residue ++ residue ps := List.flatMap_cons

theorem residue_append : residue (ps ++ qs) = residue ps ++ residue qs := List.flatMap_append

theorem residue_flatMap {α : Type} (all : List α) (f : α → List Piece) :
    residue (all.flatMap f) = all.flatMap fun a => residue (f a) :=
  List.flatMap_assoc

theorem residue_literal (value : String) : (Piece.literal value).residue = ['"', '"'] := rfl

theorem residue_doc (indent : String) (all : List DocLine) :
    (Piece.doc indent all).residue = indent.toList ++ ['\n'] := by
  have hcode : (indent.toList.map Lexeme.code).flatMap Lexeme.residue = indent.toList := by
    rw [List.flatMap_map]
    exact List.flatMap_singleton' _
  rw [Piece.residue, Piece.lexemes, List.flatMap_append, hcode]
  rfl

theorem File.Plain.skeleton_print {f : File} (h : f.Plain) :
    skeleton f.print = some (residue f.pieces) := by
  rw [skeleton, h.lexemes_print, Option.map_some, List.flatMap_assoc]
  rfl

def Member.masked (m : Member) : Member := { m with doc := "" }

def EntityClass.masked (d : EntityClass) : EntityClass :=
  { d with members := d.members.map Member.masked }

def ValueClass.masked (d : ValueClass) : ValueClass :=
  { d with members := d.members.map fun p => (p.1.masked, p.2) }

def EnumClass.masked (d : EnumClass) : EnumClass :=
  { d with constants := d.constants.map fun c => (c.1, "") }

def Declaration.masked : Declaration → Declaration
  | entity d => .entity d.masked
  | value d => .value d.masked
  | enumeration d => .enumeration d.masked

/-- A file without its free text. -/
def File.masked (f : File) : File := { f with doc := "", declaration := f.declaration.masked }

theorem Member.residue_masked (modifiers : String) (m : Member) :
    residue (m.masked.pieces modifiers) = residue (m.pieces modifiers) := by
  simp only [Member.pieces, Member.masked, partDoc, residue_append, residue_cons, residue_doc]

theorem fillList_masked (m : Member) : fillList m.masked = fillList m := rfl

theorem EntityClass.residue_masked (d : EntityClass) :
    residue d.masked.pieces = residue d.pieces := by
  have hfilter : (d.members.map Member.masked).filter (fun m => m.type.list) =
      (d.members.filter fun m => m.type.list).map Member.masked := by
    rw [List.filter_map]
    rfl
  simp only [EntityClass.pieces, EntityClass.masked, hfilter, residue_append, residue_flatMap,
    List.flatMap_map, Member.residue_masked, fillList_masked]

theorem comparisonText_masked (p : Member × Comparison) :
    comparisonText (p.1.masked, p.2) = comparisonText p := by
  obtain ⟨m, c⟩ := p
  cases c <;> rfl

theorem ValueClass.residue_check (d : ValueClass) (m : Member) :
    residue (d.masked.checkPieces m.masked) = residue (d.checkPieces m) := by
  simp only [checkPieces, masked, Member.masked, residue_cons, residue_literal]

theorem ValueClass.residue_masked (d : ValueClass) :
    residue d.masked.pieces = residue d.pieces := by
  have hmembers : d.masked.members.map Prod.fst = (d.members.map Prod.fst).map Member.masked := by
    simp [masked]
  have hcomparisons : d.masked.members.map comparisonText = d.members.map comparisonText := by
    rw [masked, List.map_map]
    exact List.map_congr_left fun p _ => comparisonText_masked p
  have harguments : ((d.members.map Prod.fst).map Member.masked).map
      (fun m => m.type.text ++ " " ++ m.name) =
        (d.members.map Prod.fst).map fun m => m.type.text ++ " " ++ m.name := List.map_map
  have hassignments : ((d.members.map Prod.fst).map Member.masked).map assignment =
      (d.members.map Prod.fst).map assignment := List.map_map
  unfold ValueClass.pieces
  rw [hmembers]
  dsimp only
  rw [hcomparisons, harguments, hassignments]
  simp only [partDoc, residue_append, residue_cons, residue_doc, residue_flatMap, List.flatMap_map,
    Member.residue_masked, residue_check]
  rfl

theorem residue_constantPieces (constants : List (String × String)) :
    residue (constantPieces (constants.map fun c => (c.1, ""))) =
      residue (constantPieces constants) := by
  induction constants with
  | nil => rfl
  | cons c r ih =>
    simp only [List.map_cons, constantPieces, partDoc, residue_append, residue_cons,
      residue_literal, residue_doc, ih, List.isEmpty_map]

theorem EnumClass.residue_masked (d : EnumClass) : residue d.masked.pieces = residue d.pieces := by
  simp only [EnumClass.pieces, EnumClass.masked, residue_append, residue_constantPieces]

theorem File.residue_masked (f : File) : residue f.masked.pieces = residue f.pieces := by
  have hdeclaration : residue f.declaration.masked.pieces = residue f.declaration.pieces := by
    cases f.declaration with
    | entity d => exact d.residue_masked
    | value d => exact d.residue_masked
    | enumeration d => exact d.residue_masked
  simp only [File.pieces, File.masked, residue_append, residue_cons, residue_doc, hdeclaration]

end Java

/-! ## Artifacts without their free text -/

namespace Artifact

open Java

variable {config : Config} {a b : Artifact}

/-- Fields and variants that differ in free text alone, as the artifacts themselves. What they come
from may differ. -/
structure SameButText (a b : Artifact) : Prop where
  package : a.package = b.package
  className : a.className = b.className
  kind : a.kind = b.kind
  idClass : a.idClass = b.idClass
  fields : List.Forall₂ (fun f g => f.name = g.name ∧ f.type = g.type ∧ f.role = g.role)
    a.fields b.fields
  variants : List.Forall₂ (fun v w => v.constant = w.constant) a.variants b.variants

def Field.masked (f : Field) : Field := { f with description := "" }

/-- The mask of a meaning is not empty, since a variant needs one. -/
def maskedVariant (v : Schema.Variant) : Schema.Variant := { v with meaning := "text" }

/-- An artifact without its free text. -/
def masked (a : Artifact) : Artifact :=
  { a with
    description := ""
    fields := a.fields.map Field.masked
    source := none
    variants := a.variants.map maskedVariant }

theorem map_eq_of_forall₂ {α β : Type} {R : α → α → Prop} {f : α → β} {as bs : List α}
    (h : List.Forall₂ R as bs) (hf : ∀ a b, R a b → f a = f b) : as.map f = bs.map f := by
  rw [← List.forall₂_eq_eq_eq, List.forall₂_map_left_iff, List.forall₂_map_right_iff]
  exact h.imp hf

theorem SameButText.fields_masked (h : SameButText a b) :
    a.fields.map Field.masked = b.fields.map Field.masked := by
  refine map_eq_of_forall₂ h.fields ?_
  rintro ⟨_, _, _, _⟩ ⟨_, _, _, _⟩ ⟨rfl, rfl, rfl⟩
  rfl

theorem SameButText.masked_eq (h : SameButText a b) : a.masked = b.masked := by
  have hvariants : a.variants.map maskedVariant = b.variants.map maskedVariant := by
    refine map_eq_of_forall₂ h.variants ?_
    rintro ⟨_, _⟩ ⟨_, _⟩ rfl
    rfl
  unfold masked
  rw [h.fields_masked, hvariants, h.package, h.className, h.kind, h.idClass]

theorem checkNames_masked (index : Nat) (fields : List Field) :
    a.masked.checkNames index (fields.map Field.masked) = a.checkNames index fields := by
  induction fields generalizing index with
  | nil => rfl
  | cons f r ih =>
    rw [List.map_cons, checkNames, checkNames, ih]
    rfl

theorem checkVariants_masked {variants : List Schema.Variant} (h : ∀ v ∈ variants, v.meaning ≠ "")
    (seen : List String) (index : Nat) :
    checkVariants seen index (variants.map maskedVariant) = checkVariants seen index variants := by
  induction variants generalizing seen index with
  | nil => rfl
  | cons v r ih =>
    obtain ⟨hv, hr⟩ := List.forall_mem_cons.mp h
    have hmask : (maskedVariant v).meaning ≠ "" := by
      show "text" ≠ ""
      decide
    rw [List.map_cons, checkVariants, checkVariants, if_neg hv, if_neg hmask, ih hr]
    rfl

theorem fieldImports_masked : a.masked.fieldImports = a.fieldImports := by
  unfold fieldImports masked
  rw [List.flatMap_map]
  rfl

theorem filter_serialNumber_masked (fields : List Field) :
    (fields.map Field.masked).filter (fun f => f.role = .serialNumber) =
      (fields.filter fun f => f.role = .serialNumber).map Field.masked := by
  rw [List.filter_map]
  rfl

theorem entityFile_masked :
    (a.masked.entityFile config).map File.masked = (a.entityFile config).map File.masked := by
  have hfilter : a.masked.fields.filter (fun f => f.role = .serialNumber) =
      (a.fields.filter fun f => f.role = .serialNumber).map Field.masked :=
    filter_serialNumber_masked a.fields
  have hany : (a.masked.fields.any fun f => f.type.collection) =
      a.fields.any fun f => f.type.collection := List.any_map
  have hmembers : a.masked.fields.map Field.member = a.fields.map fun f => f.masked.member :=
    List.map_map
  unfold entityFile
  rw [hfilter, hany, hmembers, fieldImports_masked, show a.masked.idClass = a.idClass from rfl,
    show a.masked.baseClass config = a.baseClass config from rfl]
  cases present a.idClass with
  | none => rfl
  | some idClass =>
  generalize List.filter _ a.fields = serials
  rcases serials with _ | ⟨serial, _ | ⟨second, more⟩⟩
  · rfl
  · dsimp only [List.map_cons, List.map_nil]
    cases checkClasses [a.baseClass config, config.serialGenerator] with
    | error cause => rfl
    | ok =>
    cases checkInterface config.valueInterface with
    | error cause => rfl
    | ok =>
    have hmasked : (a.fields.map fun f => f.masked.member).map Member.masked =
        (a.fields.map Field.member).map Member.masked := by
      rw [List.map_map, List.map_map]
      rfl
    refine congrArg Except.ok ?_
    simp only [File.masked, fileOf, Declaration.masked, EntityClass.masked, hmasked]
    rfl
  · rfl

theorem valueFile_masked :
    (a.masked.valueFile config).map File.masked = (a.valueFile config).map File.masked := by
  have hempty : a.masked.fields.isEmpty = a.fields.isEmpty := List.isEmpty_map
  have hmembers : a.masked.fields.map Field.valueMember =
      a.fields.map fun f => f.masked.valueMember := List.map_map
  have hany : ((a.fields.map fun f => f.masked.valueMember).any fun p => p.2 == .equality) =
      (a.fields.map Field.valueMember).any fun p => p.2 == .equality := by
    rw [List.any_map, List.any_map]
    rfl
  unfold valueFile
  dsimp only
  rw [hempty, hmembers, hany, fieldImports_masked]
  cases a.fields.isEmpty with
  | true => rfl
  | false =>
  cases checkClasses (valueClasses config) with
  | error cause => rfl
  | ok =>
  have hmasked : (a.fields.map fun f => f.masked.valueMember).map (fun p => (p.1.masked, p.2)) =
      (a.fields.map Field.valueMember).map fun p => (p.1.masked, p.2) := by
    rw [List.map_map, List.map_map]
    rfl
  refine congrArg Except.ok ?_
  simp only [File.masked, fileOf, Declaration.masked, ValueClass.masked, hmasked]
  rfl

theorem enumFile_masked (h : ∀ v ∈ a.variants, v.meaning ≠ "") :
    (a.masked.enumFile config).map File.masked = (a.enumFile config).map File.masked := by
  have hempty : a.masked.variants.isEmpty = a.variants.isEmpty := List.isEmpty_map
  have hcheck : checkVariants [] 0 a.masked.variants = checkVariants [] 0 a.variants :=
    checkVariants_masked h [] 0
  unfold enumFile
  rw [hempty, hcheck]
  cases a.variants.isEmpty with
  | true => rfl
  | false =>
  cases checkVariants [] 0 a.variants with
  | error cause => rfl
  | ok =>
  cases checkClasses [config.valueInterface] with
  | error cause => rfl
  | ok =>
  have hmasked : (a.masked.variants.map fun v => (v.constant, v.meaning)).map (fun c => (c.1, "")) =
      (a.variants.map fun v => (v.constant, v.meaning)).map fun c => (c.1, "") := by
    rw [masked, List.map_map, List.map_map, List.map_map]
    rfl
  refine congrArg Except.ok ?_
  simp only [File.masked, fileOf, Declaration.masked, EnumClass.masked, hmasked]
  rfl

/-- The free text of an artifact decides neither whether it has a file nor what stands in the file
besides free text. -/
theorem fileOrCause_masked (h : ∀ v ∈ a.variants, v.meaning ≠ "") :
    (a.masked.fileOrCause config).map File.masked = (a.fileOrCause config).map File.masked := by
  have hnames : a.masked.checkAllNames = a.checkAllNames := by
    unfold checkAllNames
    rw [show a.masked.checkNames 0 a.masked.fields = a.checkNames 0 a.fields from
      checkNames_masked 0 a.fields]
    rfl
  unfold fileOrCause
  rw [hnames, show a.masked.kind = a.kind from rfl]
  cases a.checkAllNames with
  | error cause => rfl
  | ok =>
  dsimp only
  split
  · exact entityFile_masked
  split
  · exact enumFile_masked h
  · exact valueFile_masked

theorem SameButText.quietNames (h : SameButText a b) (ha : a.QuietNames) : b.QuietNames := by
  have htypes : ∀ g ∈ b.fields, ∃ f ∈ a.fields, f.type = g.type := by
    intro g hg
    have hmem : g.masked ∈ a.fields.map Field.masked := h.fields_masked ▸ List.mem_map_of_mem hg
    obtain ⟨f, hf, heq⟩ := List.mem_map.mp hmem
    exact ⟨f, hf, show f.masked.type = g.masked.type from heq ▸ rfl⟩
  refine ⟨h.package ▸ ha.package, h.idClass ▸ ha.idClass, fun g hg => ?_, fun g hg => ?_⟩
  · obtain ⟨f, hf, htype⟩ := htypes g hg
    exact htype ▸ ha.fieldClass f hf
  · obtain ⟨f, hf, htype⟩ := htypes g hg
    exact htype ▸ ha.fieldPackage f hf

/-- Two artifacts that differ in free text alone either are both refused, or have texts that are
scanned without an error and are the same once comments and the contents of literals are deleted. -/
theorem skeleton_agrees (h : SameButText a b) (hq : a.QuietNames)
    (ha : ∀ v ∈ a.variants, v.meaning ≠ "") (hb : ∀ v ∈ b.variants, v.meaning ≠ "") :
    ((∃ e, a.render {} = .error e) ∧ ∃ e, b.render {} = .error e) ∨
      ∃ s t code, a.render {} = .ok s ∧ b.render {} = .ok t ∧
        skeleton s = some code ∧ skeleton t = some code := by
  have hsame : (a.fileOrCause {}).map File.masked = (b.fileOrCause {}).map File.masked := by
    rw [← fileOrCause_masked ha, ← fileOrCause_masked hb, h.masked_eq]
  cases hfa : a.fileOrCause {} with
  | error cause =>
    cases hfb : b.fileOrCause {} with
    | error other => exact .inl ⟨⟨_, render_eq_error hfa⟩, _, render_eq_error hfb⟩
    | ok file =>
      rw [hfa, hfb] at hsame
      cases hsame
  | ok file =>
    cases hfb : b.fileOrCause {} with
    | error cause =>
      rw [hfa, hfb] at hsame
      cases hsame
    | ok other =>
      rw [hfa, hfb] at hsame
      have hmasked : file.masked = other.masked := Except.ok.inj hsame
      have hpa : file.Plain := plain_of_quiet quiet_default hq hfa
      have hpb : other.Plain := plain_of_quiet quiet_default (h.quietNames hq) hfb
      have hcode : residue file.pieces = residue other.pieces := by
        rw [← file.residue_masked, hmasked, other.residue_masked]
      exact .inr ⟨_, _, residue file.pieces, render_eq_ok hfa, render_eq_ok hfb,
        hpa.skeleton_print, hcode ▸ hpb.skeleton_print⟩

/-- An enumeration with two variants and a text in each place for one. -/
def enumerationOf (description first second : String) : Artifact :=
  { package := "shop.valueobject", className := "Currency", kind := .enumeration, description
    fields := [{ name := "businessMeaning", type := { primitive := some .string }, role := .value,
                 description }]
    variants := [⟨"CNY", first⟩, ⟨"USD", second⟩] }

theorem enumerationOf_eq_ok (description first second : String) (hf : first ≠ "")
    (hs : second ≠ "") :
    ∃ file, (enumerationOf description first second).fileOrCause {} = .ok file := by
  have hid : ∀ name ∈ ["Currency", "businessMeaning", "CNY", "USD"],
      Name.isIdentifier name = true := by decide
  have hnames : (enumerationOf description first second).checkAllNames = .ok () := by
    rw [checkAllNames, if_pos (hid _ (by simp [enumerationOf]))]
    exact checkNames_of_forall 0 (List.forall_mem_singleton.mpr (hid _ (by simp)))
  have hvariants : checkVariants [] 0 (enumerationOf description first second).variants =
      .ok () := by
    simp [enumerationOf, checkVariants, hid "CNY" (by simp), hid "USD" (by simp), hf, hs]
  have hfile : ∃ file, (enumerationOf description first second).enumFile {} = .ok file := by
    rw [enumFile, hvariants]
    exact ⟨_, rfl⟩
  rw [fileOrCause, hnames]
  exact hfile

/-- Line breaks, quotes, backslashes and comment ends in the texts of an enumeration stay within
its comments and literals. -/
theorem skeleton_agrees_enumeration :
    SameButText (enumerationOf "*/ \"\\" "a\r\nb\\" "\"); //*") (enumerationOf "" "*" "/") ∧
      ∃ s t code, (enumerationOf "*/ \"\\" "a\r\nb\\" "\"); //*").render {} = .ok s ∧
        (enumerationOf "" "*" "/").render {} = .ok t ∧
        skeleton s = some code ∧ skeleton t = some code := by
  have h : SameButText (enumerationOf "*/ \"\\" "a\r\nb\\" "\"); //*")
      (enumerationOf "" "*" "/") :=
    ⟨rfl, rfl, rfl, rfl, .cons ⟨rfl, rfl, rfl⟩ .nil, .cons rfl (.cons rfl .nil)⟩
  have hquiet : QuietNames (enumerationOf "*/ \"\\" "a\r\nb\\" "\"); //*") :=
    ⟨.lit (by decide), nofun, by simp [enumerationOf], by simp [enumerationOf]⟩
  obtain ⟨file, hfile⟩ :=
    enumerationOf_eq_ok "*/ \"\\" "a\r\nb\\" "\"); //*" (by decide) (by decide)
  rcases skeleton_agrees h hquiet (by simp [enumerationOf]) (by simp [enumerationOf]) with
    ⟨⟨e, he⟩, -⟩ | hall
  · rw [render_eq_ok hfile] at he
    cases he
  · exact ⟨h, hall⟩

end Artifact

end DomainCodegen
