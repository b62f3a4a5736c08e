import DomainCodegen.Proofs.Artifact.Contents
import DomainCodegen.Proofs.Text.Encoding

/-!
# Texts that can be written

The text of an artifact can have no bytes: UTF-8 has none for a lone surrogate, which a description
can hold. Whether it has is seen from the pieces that the text is printed from, whatever the order
of the imports (`Artifact.isWritable_eq`).
-/

namespace DomainCodegen

variable [Surrogates]

namespace Java

theorem hasSurrogate_printPieces (pieces : List Piece) :
    Text.hasSurrogate (printPieces pieces) =
      pieces.any fun piece => Text.hasSurrogate piece.text := by
  unfold Text.hasSurrogate printPieces
  rw [String.toList_join, List.any_flatMap, List.any_map]
  rfl

/-- The description of a class is in its Javadoc. -/
theorem hasSurrogate_print {file : File}
    (h : Text.hasSurrogate (Piece.doc "" [.words (javadoc file.doc)]).text = true) :
    Text.hasSurrogate file.print = true := by
  refine (hasSurrogate_printPieces _).trans (List.any_eq_true.mpr ⟨_, ?_, h⟩)
  unfold File.pieces
  simp

end Java

namespace Artifact

open Java

variable {config : Config} {a : Artifact} {imports : List String} {declaration : Declaration}

/-- Whether an artifact has a text, and the text has bytes: UTF-8 has none for a lone surrogate. -/
def isWritable (config : Config) (a : Artifact) : Bool :=
  match a.render config with
  | .ok text => !Text.hasSurrogate text
  | .error _ => false

theorem isWritable_iff :
    a.isWritable config = true ↔
      ∃ text, a.render config = .ok text ∧ Text.hasSurrogate text = false := by
  unfold isWritable
  cases a.render config with
  | error e => exact iff_of_false nofun nofun
  | ok text => simp

/-- Whether an artifact can be written does not depend on the order of its imports. -/
theorem isWritable_eq
    (h : a.file config = .ok (a.fileOf config imports declaration)) :
    a.isWritable config = !({ a.fileOf config imports declaration with imports } :
      File).pieces.any fun piece => Text.hasSurrogate piece.text := by
  have hrender : a.render config = .ok (a.fileOf config imports declaration).print :=
    congrArg (Except.map File.print) h
  have himports : ∀ kind : Piece → Bool,
      ((a.fileOf config imports declaration).imports.map
        fun name => line ("import " ++ name ++ ";")).any kind =
      (imports.map fun name => line ("import " ++ name ++ ";")).any kind := fun kind => by
    rw [Bool.eq_iff_iff]
    simp only [List.any_map, List.any_eq_true, mem_imports_fileOf]
  unfold isWritable
  rw [hrender]
  refine congrArg not ((hasSurrogate_printPieces _).trans ?_)
  unfold File.pieces lines
  simp only [List.any_append, List.map_map, Function.comp_def, himports]

/-- An artifact can be written if no piece of its file has a high byte. -/
theorem isWritable_of_bytes
    (h : a.file config = .ok (a.fileOf config imports declaration))
    (hbytes : ({ a.fileOf config imports declaration with imports } :
      File).pieces.any (fun piece =>
        piece.text.toByteArray.data.toList.any fun b => 0xee ≤ b.toNat) = false) :
    a.isWritable config = true := by
  rw [isWritable_eq h, Bool.not_eq_true', List.any_eq_false]
  intro piece hp
  have hpiece := eq_false_of_ne_true (List.any_eq_false.mp hbytes piece hp)
  rw [Text.hasSurrogate_eq_false_of_bytes hpiece]
  exact Bool.false_ne_true

end Artifact

end DomainCodegen
