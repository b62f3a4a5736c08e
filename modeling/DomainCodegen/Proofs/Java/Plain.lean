import DomainCodegen.Proofs.Java.Scanner

/-!
# Plain files

A file is plain when the names that it puts into code are quiet. Its Javadoc and the values of its
literals may be any texts. The pieces of a plain file are sound (`File.Plain.sound`), so that its
text is scanned into them.
-/

namespace DomainCodegen.Java

/-! ## Plain declarations -/

structure Member.Plain (m : Member) : Prop where
  type : Quiet m.type.name
  name : Quiet m.name
  note : ∀ note ∈ m.note, Quiet note

structure EntityClass.Plain (d : EntityClass) : Prop where
  name : Quiet d.name
  base : Quiet d.base
  idClass : Quiet d.idClass
  members : ∀ m ∈ d.members, m.Plain
  serialField : Quiet d.serialField
  serialClass : Quiet d.serialClass
  serialExpression : Quiet d.serialExpression

structure ValueClass.Plain (d : ValueClass) : Prop where
  name : Quiet d.name
  interface : Quiet d.interface
  members : ∀ m ∈ d.members, m.1.Plain
  emptyCheck : Quiet d.emptyCheck
  exception : Quiet d.exception
  resultCode : Quiet d.resultCode

structure EnumClass.Plain (d : EnumClass) : Prop where
  name : Quiet d.name
  interface : Quiet d.interface
  constants : ∀ c ∈ d.constants, Quiet c.1

def Declaration.Plain : Declaration → Prop
  | entity d => d.Plain
  | value d => d.Plain
  | enumeration d => d.Plain

structure File.Plain (f : File) : Prop where
  banner : ∀ text ∈ f.banner, OneLine text
  package : Quiet f.package
  imports : ∀ name ∈ f.imports, Quiet name
  declaration : f.declaration.Plain

/-! ## Sound pieces -/

def AllQuiet (texts : List String) : Prop := ∀ s ∈ texts, Quiet s

def AllSafe (all : List DocLine) : Prop := ∀ line ∈ all, line.Safe

def AllSound (ps : List Piece) : Prop := ∀ p ∈ ps, p.Sound

variable {m : Member} {ps qs : List Piece} {p : Piece} {s : String} {texts : List String}
  {l : DocLine} {all more : List DocLine}

theorem allQuiet_nil : AllQuiet [] := nofun

theorem allQuiet_cons : AllQuiet (s :: texts) ↔ Quiet s ∧ AllQuiet texts := List.forall_mem_cons

theorem allSafe_nil : AllSafe [] := nofun

theorem allSafe_cons : AllSafe (l :: all) ↔ l.Safe ∧ AllSafe all := List.forall_mem_cons

theorem safe_bare : DocLine.bare.Safe := trivial

theorem safe_javadoc : (DocLine.words (javadoc s)).Safe := noCommentEnd_javadoc s

theorem allSound_nil : AllSound [] := nofun

theorem allSound_cons : AllSound (p :: ps) ↔ p.Sound ∧ AllSound ps := List.forall_mem_cons

theorem allSound_append : AllSound (ps ++ qs) ↔ AllSound ps ∧ AllSound qs := List.forall_mem_append

theorem allSound_flatMap {α : Type} {all : List α} {f : α → List Piece}
    (h : ∀ a ∈ all, AllSound (f a)) : AllSound (all.flatMap f) := by
  intro p hp
  obtain ⟨a, ha, hp⟩ := List.mem_flatMap.mp hp
  exact h a ha p hp

theorem sound_code : (Piece.code s).Sound ↔ Quiet s := .rfl

theorem sound_literal : (Piece.literal s).Sound := trivial

theorem sound_line : (line s).Sound ↔ Quiet s := by
  rw [line, sound_code, quiet_append, and_iff_left (.lit (by decide))]

theorem allSound_lines : AllSound (lines texts) ↔ AllQuiet texts := by
  simp [AllSound, AllQuiet, lines, sound_line]

theorem allSound_partDoc : AllSound (partDoc all) ↔ AllSafe all := by
  rw [partDoc, allSound_cons, sound_line, allSound_cons, and_iff_right (.lit (by decide)),
    and_iff_left allSound_nil]
  exact and_iff_right (.lit (by decide))

/-! ## Members -/

theorem Member.Plain.quiet_type (h : m.Plain) : Quiet m.type.text := by
  unfold TypeUse.text
  split
  · exact quiet_append.mpr ⟨quiet_append.mpr ⟨.lit (by decide), h.type⟩, .lit (by decide)⟩
  · exact h.type

theorem Member.Plain.allSafe_docLines (h : m.Plain) : AllSafe m.docLines := by
  refine allSafe_cons.mpr ⟨safe_javadoc, List.forall_mem_map.mpr fun note hn => ?_⟩
  have hnote : Quiet ("<p>" ++ note) :=
    quiet_append.mpr ⟨.lit (by decide), h.note note (Option.mem_toList.mp hn)⟩
  exact hnote.noCommentEnd

theorem Member.Plain.sound (h : m.Plain) {modifiers : String} (hm : Quiet modifiers) :
    AllSound (m.pieces modifiers) := by
  simp only [Member.pieces, allSound_append, allSound_partDoc, allSound_cons, allSound_nil,
    sound_line, quiet_append, hm, h.allSafe_docLines, h.quiet_type, h.name, true_and, and_true]
  and_intros <;> exact .lit (by decide)

theorem allSound_members {members : List Member} (h : ∀ m ∈ members, m.Plain) {modifiers : String}
    (hm : Quiet modifiers) : AllSound (members.flatMap (Member.pieces modifiers)) :=
  allSound_flatMap fun m hmem => (h m hmem).sound hm

/-! ## Entities -/

theorem EntityClass.Plain.sound {d : EntityClass} (h : d.Plain) : AllSound d.pieces := by
  have hmembers : AllSound (d.members.flatMap (Member.pieces "private")) :=
    allSound_members h.members (.lit (by decide))
  have hfill : AllSound ((d.members.filter fun m => m.type.list).flatMap fillList) := by
    refine allSound_flatMap fun m hm => ?_
    have hname := (h.members m (List.mem_of_mem_filter hm)).name
    simp only [fillList, allSound_lines, allQuiet_cons, allQuiet_nil, quiet_append, hname, and_true]
    and_intros <;> exact .lit (by decide)
  simp only [EntityClass.pieces, allSound_append, allSound_lines, allSound_partDoc, allQuiet_cons,
    allQuiet_nil, allSafe_cons, allSafe_nil, quiet_append, hmembers, hfill, h.name, h.base,
    h.idClass, h.serialField, h.serialClass, h.serialExpression, and_true]
  and_intros <;> exact .lit (by decide)

/-! ## Value objects -/

section ValueClass

variable {d : ValueClass}

theorem ValueClass.Plain.sound_check (h : d.Plain) (hm : m.Plain) : AllSound (d.checkPieces m) := by
  simp only [checkPieces, allSound_cons, allSound_nil, sound_line, sound_code, sound_literal,
    quiet_append, h.emptyCheck, h.exception, h.resultCode, hm.name, true_and, and_true]
  and_intros <;> exact .lit (by decide)

theorem Member.Plain.quiet_assignment (h : m.Plain) : Quiet (assignment m) := by
  unfold assignment
  split
  all_goals
    simp only [quiet_append, h.name, and_true]
    and_intros <;> exact .lit (by decide)

theorem Member.Plain.quiet_comparison (h : m.Plain) (c : Comparison) :
    Quiet (comparisonText (m, c)) := by
  cases c with
  | equality =>
    show Quiet ("Objects.equals(this." ++ m.name ++ ", other." ++ m.name ++ ")")
    simp only [quiet_append, h.name, and_true]
    and_intros <;> exact .lit (by decide)
  | order =>
    show Quiet ("this." ++ m.name ++ ".compareTo(other." ++ m.name ++ ") == 0")
    simp only [quiet_append, h.name, and_true]
    and_intros <;> exact .lit (by decide)

/-- The line that documents an argument holds the name of the member as it is. -/
theorem Member.Plain.safe_param (h : m.Plain) :
    (DocLine.words ("@param " ++ m.name ++ " " ++ javadoc m.doc)).Safe := by
  have hname : Quiet ("@param " ++ m.name) := quiet_append.mpr ⟨.lit (by decide), h.name⟩
  have hsplit : ("@param " ++ m.name ++ " " ++ javadoc m.doc).toList =
      ("@param " ++ m.name).toList ++ ' ' :: (javadoc m.doc).toList := by simp
  show NoCommentEnd _
  rw [hsplit]
  exact noCommentEnd_append_blank.mpr ⟨hname.noCommentEnd, noCommentEnd_javadoc m.doc⟩

/-- The note on the order of decimals has a slash, but no star before it. -/
theorem allSafe_orderNote : AllSafe orderNote := by
  simp only [orderNote, allSafe_cons, allSafe_nil, and_true]
  and_intros <;> exact .lit (by decide)

theorem ValueClass.Plain.sound (h : d.Plain) : AllSound d.pieces := by
  have hm : ∀ m ∈ d.members.map Prod.fst, m.Plain := List.forall_mem_map.mpr h.members
  have harguments : Quiet (", ".intercalate
      ((d.members.map Prod.fst).map fun m => m.type.text ++ " " ++ m.name)) := by
    refine quiet_intercalate (.lit (by decide)) (List.forall_mem_map.mpr fun m h => ?_)
    exact quiet_append.mpr
      ⟨quiet_append.mpr ⟨(hm m h).quiet_type, .lit (by decide)⟩, (hm m h).name⟩
  have hcomparisons : Quiet ("\n                && ".intercalate (d.members.map comparisonText)) :=
    quiet_intercalate (.lit (by decide))
      (List.forall_mem_map.mpr fun p hp => (h.members p hp).quiet_comparison p.2)
  unfold ValueClass.pieces
  simp only [allSound_append]
  refine ⟨⟨⟨⟨⟨⟨⟨⟨?header, ?members⟩, ?params⟩, ?constructor⟩, ?checks⟩, ?assignments⟩, ?close⟩,
    ?equality⟩, ?comparison⟩
  case header =>
    simp only [allSound_lines, allQuiet_cons, allQuiet_nil, quiet_append, h.name, h.interface,
      and_true]
    and_intros <;> exact .lit (by decide)
  case members => exact allSound_members hm (.lit (by decide))
  case params =>
    exact allSound_partDoc.mpr (allSafe_cons.mpr ⟨.lit (by decide), allSafe_cons.mpr ⟨safe_bare,
      List.forall_mem_map.mpr fun m h => (hm m h).safe_param⟩⟩)
  case constructor =>
    simp only [allSound_cons, allSound_nil, sound_line, quiet_append, harguments, h.name, and_true]
    and_intros <;> exact .lit (by decide)
  case checks => exact allSound_flatMap fun m hmem => h.sound_check (hm m hmem)
  case assignments =>
    exact allSound_lines.mpr (List.forall_mem_map.mpr fun m hmem => (hm m hmem).quiet_assignment)
  case close => exact allSound_lines.mpr (allQuiet_cons.mpr ⟨.lit (by decide), allQuiet_nil⟩)
  case equality =>
    refine allSound_partDoc.mpr (allSafe_cons.mpr ⟨.lit (by decide), ?_⟩)
    refine List.forall_mem_append.mpr ⟨?_, ?_⟩
    · split
      · exact allSafe_orderNote
      · exact allSafe_nil
    · exact allSafe_cons.mpr ⟨safe_bare, allSafe_cons.mpr ⟨.lit (by decide),
        allSafe_cons.mpr ⟨.lit (by decide), allSafe_nil⟩⟩⟩
  case comparison =>
    simp only [allSound_lines, allQuiet_cons, allQuiet_nil, quiet_append, hcomparisons, h.name,
      and_true]
    and_intros <;> exact .lit (by decide)

end ValueClass

/-! ## Enumerations -/

theorem allSound_constantPieces {constants : List (String × String)}
    (h : ∀ c ∈ constants, Quiet c.1) : AllSound (constantPieces constants) := by
  induction constants with
  | nil => exact allSound_nil
  | cons c r ih =>
    obtain ⟨hc, hr⟩ := List.forall_mem_cons.mp h
    have hend : Quiet (if r.isEmpty then ");" else "),") := by
      split <;> exact .lit (by decide)
    simp only [constantPieces, allSound_append, allSound_partDoc, allSound_cons, allSound_nil,
      allSafe_cons, allSafe_nil, safe_javadoc, sound_code, sound_literal, sound_line, quiet_append,
      hc, hend, ih hr, true_and, and_true]
    and_intros <;> exact .lit (by decide)

theorem EnumClass.Plain.sound {d : EnumClass} (h : d.Plain) : AllSound d.pieces := by
  simp only [EnumClass.pieces, allSound_append, allSound_lines, allSound_partDoc, allQuiet_cons,
    allQuiet_nil, allSafe_cons, allSafe_nil, safe_bare, quiet_append,
    allSound_constantPieces h.constants, h.name, h.interface, true_and, and_true]
  and_intros <;> exact .lit (by decide)

/-! ## Files -/

theorem Declaration.Plain.sound {d : Declaration} (h : d.Plain) : AllSound d.pieces := by
  cases d with
  | entity d => exact EntityClass.Plain.sound h
  | value d => exact ValueClass.Plain.sound h
  | enumeration d => exact EnumClass.Plain.sound h

theorem File.Plain.sound {f : File} (h : f.Plain) : AllSound f.pieces := by
  have hbanner : AllSound (f.banner.toList.map .lineComment) :=
    List.forall_mem_map.mpr fun text ht => h.banner text (Option.mem_toList.mp ht)
  have himports : AllSound (lines (f.imports.map fun name => "import " ++ name ++ ";")) := by
    refine allSound_lines.mpr (List.forall_mem_map.mpr fun name hn => ?_)
    exact quiet_append.mpr
      ⟨quiet_append.mpr ⟨.lit (by decide), h.imports name hn⟩, .lit (by decide)⟩
  have hdoc : (Piece.doc "" [.words (javadoc f.doc)]).Sound :=
    ⟨.lit (by decide), allSafe_cons.mpr ⟨safe_javadoc, allSafe_nil⟩⟩
  simp only [File.pieces, allSound_append, allSound_lines, allQuiet_cons, allQuiet_nil,
    allSound_cons, allSound_nil, sound_line, quiet_append, hbanner, allSound_lines.mp himports,
    hdoc, h.package, h.declaration.sound, true_and, and_true]
  and_intros <;> exact .lit (by decide)

/-- The text of a plain file is scanned into its pieces. -/
theorem File.Plain.lexemes_print {f : File} (h : f.Plain) :
    lexemes f.print = some (f.pieces.flatMap Piece.lexemes) :=
  lexemes_printPieces h.sound

end DomainCodegen.Java
