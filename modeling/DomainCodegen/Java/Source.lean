import DomainCodegen.Java.Literal

/-!
# Java source files

The generated files as data, and how they are printed. A file is printed in two steps: into
pieces, which tell code from comments and string literals, and from pieces into text. Free text
appears only in Javadoc and in string literals.
-/

namespace DomainCodegen.Java

/-! ## Pieces -/

/-- A line of a Javadoc comment; a bare line separates. -/
inductive DocLine where
  | words (text : String)
  | bare
  deriving DecidableEq, Repr

/-- A piece of a source text: code as it stands, a line comment, the lines of a Javadoc comment at
some indentation, or a string literal with its value. -/
inductive Piece where
  | code (text : String)
  | lineComment (text : String)
  | doc (indent : String) (lines : List DocLine)
  | literal (value : String)
  deriving DecidableEq, Repr

def DocLine.text (indent : String) : DocLine → String
  | words text => indent ++ " * " ++ text ++ "\n"
  | bare => indent ++ " *\n"

def Piece.text : Piece → String
  | code text => text
  | lineComment text => "// " ++ text ++ "\n"
  | doc indent lines =>
    indent ++ "/**\n" ++ String.join (lines.map (DocLine.text indent)) ++ indent ++ " */\n"
  | literal value => "\"" ++ literalBody value ++ "\""

def printPieces (pieces : List Piece) : String := String.join (pieces.map Piece.text)

/-! ## Files -/

/-- The type of a field: a class, or a list of it. -/
structure TypeUse where
  name : String
  list : Bool := false
  deriving DecidableEq, Repr

def TypeUse.text (t : TypeUse) : String := if t.list then "List<" ++ t.name ++ ">" else t.name

/-- A private field with the text of its Javadoc and a fixed further line. -/
structure Member where
  type : TypeUse
  name : String
  doc : String
  note : Option String := none
  deriving DecidableEq, Repr

/-- A class with an id, a serial number and mutable fields. -/
structure EntityClass where
  name : String
  base : String
  idClass : String
  members : List Member
  serialField : String
  serialClass : String
  serialExpression : String
  deriving DecidableEq, Repr

/-- How two values of a field are compared. -/
inductive Comparison where
  | equality
  | order
  deriving DecidableEq, Repr

/-- An immutable class. A list is copied; an empty argument is refused with an exception. -/
structure ValueClass where
  name : String
  interface : String
  members : List (Member × Comparison)
  emptyCheck : String
  exception : String
  resultCode : String
  deriving DecidableEq, Repr

structure EnumClass where
  name : String
  interface : String
  constants : List (String × String)
  deriving DecidableEq, Repr

inductive Declaration where
  | entity (d : EntityClass)
  | value (d : ValueClass)
  | enumeration (d : EnumClass)
  deriving DecidableEq, Repr

structure File where
  banner : Option String
  package : String
  imports : List String
  doc : String
  declaration : Declaration
  deriving DecidableEq, Repr

/-! ## Printing -/

/-- A line of code. -/
def line (text : String) : Piece := .code (text ++ "\n")

def lines (texts : List String) : List Piece := texts.map line

/-- The Javadoc of a part of a class, after an empty line. -/
def partDoc (docLines : List DocLine) : List Piece := [line "", .doc "    " docLines]

def Member.docLines (m : Member) : List DocLine :=
  .words (javadoc m.doc) :: m.note.toList.map fun note => .words ("<p>" ++ note)

def Member.pieces (modifiers : String) (m : Member) : List Piece :=
  partDoc m.docLines ++ [line ("    " ++ modifiers ++ " " ++ m.type.text ++ " " ++ m.name ++ ";")]

/-- Fills a list that a new entity does not have yet. -/
def fillList (m : Member) : List Piece :=
  lines
    ["        if (this." ++ m.name ++ " == null) \x7b",
      "            this." ++ m.name ++ " = new ArrayList<>();",
      "        \x7d"]

def EntityClass.pieces (d : EntityClass) : List Piece :=
  lines
    ["@Getter", "@SuperBuilder", "@Setter(AccessLevel.PRIVATE)",
      "@EqualsAndHashCode(callSuper = true)",
      "public class " ++ d.name ++ " extends " ++ d.base ++ "<" ++ d.idClass ++ "> \x7b"] ++
  d.members.flatMap (Member.pieces "private") ++
  partDoc [.words "首次创建时调用, 分配业务编号"] ++
  lines
    ["    @Override", "    public void toNew() \x7b", "        super.toNew();",
      "        this." ++ d.serialField ++ " = new " ++ d.serialClass ++ "(" ++ d.serialExpression ++
        ");"] ++
  (d.members.filter fun m => m.type.list).flatMap fillList ++
  lines ["    \x7d", "\x7d"]

/-- What an argument is refused with. -/
def refusalText (m : Member) : String := m.doc ++ "不能为空"

def ValueClass.checkPieces (d : ValueClass) (m : Member) : List Piece :=
  [line ("        if (" ++ d.emptyCheck ++ "(" ++ m.name ++ ")) \x7b"),
    .code ("            throw new " ++ d.exception ++ "(" ++ d.resultCode ++ ", "),
    .literal (refusalText m), line ");", line "        \x7d"]

def assignment (m : Member) : String :=
  "        this." ++ m.name ++ " = " ++
    (if m.type.list then "List.copyOf(" ++ m.name ++ ")" else m.name) ++ ";"

def comparisonText : Member × Comparison → String
  | (m, .equality) => "Objects.equals(this." ++ m.name ++ ", other." ++ m.name ++ ")"
  | (m, .order) => "this." ++ m.name ++ ".compareTo(other." ++ m.name ++ ") == 0"

/-- Says that two numbers of different precision can be the same value. -/
def orderNote : List DocLine :=
  [.words "<p>BigDecimal 字段按 compareTo 比较, 忽略精度 (1.0 与 1.00 视为相同);",
    .words "Lombok 生成的 equals/hashCode 使用 BigDecimal.equals, 区分精度"]

def ValueClass.comparesByOrder (d : ValueClass) : Bool := d.members.any fun p => p.2 == .order

def ValueClass.pieces (d : ValueClass) : List Piece :=
  let members := d.members.map Prod.fst
  lines
    ["@Getter", "@EqualsAndHashCode",
      "public class " ++ d.name ++ " implements " ++ d.interface ++ "<" ++ d.name ++ "> \x7b"] ++
  members.flatMap (Member.pieces "private final") ++
  partDoc (.words "构造函数" :: .bare ::
    members.map fun m => .words ("@param " ++ m.name ++ " " ++ javadoc m.doc)) ++
  [line ("    public " ++ d.name ++ "(" ++
    ", ".intercalate (members.map fun m => m.type.text ++ " " ++ m.name) ++ ") \x7b")] ++
  members.flatMap d.checkPieces ++
  lines (members.map assignment) ++
  lines ["    \x7d"] ++
  partDoc (.words "比较两个值对象的值是否相等" :: ((if d.comparesByOrder then orderNote else []) ++
    [.bare, .words "@param other 另一个值对象", .words "@return 结果"])) ++
  lines
    ["    @Override", "    public boolean sameValueAs(" ++ d.name ++ " other) \x7b",
      "        if (other == null) \x7b", "            return false;", "        \x7d",
      "        return " ++
        "\n                && ".intercalate (d.members.map comparisonText) ++ ";",
      "    \x7d", "\x7d"]

/-- The constants of an enumeration; the last one ends with a semicolon. -/
def constantPieces : List (String × String) → List Piece
  | [] => []
  | (name, meaning) :: r =>
    partDoc [.words (javadoc meaning)] ++
    [.code ("    " ++ name ++ "("), .literal meaning, line (if r.isEmpty then ");" else "),")] ++
    constantPieces r

def EnumClass.pieces (d : EnumClass) : List Piece :=
  lines
    ["@Getter",
      "public enum " ++ d.name ++ " implements " ++ d.interface ++ "<" ++ d.name ++ "> \x7b"] ++
  constantPieces d.constants ++
  partDoc [.words "业务含义"] ++
  lines
    ["    private final String businessMeaning;", "",
      "    " ++ d.name ++ "(String businessMeaning) \x7b",
      "        this.businessMeaning = businessMeaning;", "    \x7d"] ++
  partDoc [.words "比较两个枚举值是否相等", .bare, .words "@param other 另一个枚举值", .words "@return 结果"] ++
  lines
    ["    @Override", "    public boolean sameValueAs(" ++ d.name ++ " other) \x7b",
      "        return other != null && this.name().equals(other.name());", "    \x7d", "\x7d"]

def Declaration.pieces : Declaration → List Piece
  | entity d => d.pieces
  | value d => d.pieces
  | enumeration d => d.pieces

def File.pieces (f : File) : List Piece :=
  f.banner.toList.map .lineComment ++
  lines ["package " ++ f.package ++ ";", ""] ++
  lines (f.imports.map fun name => "import " ++ name ++ ";") ++
  [line "", .doc "" [.words (javadoc f.doc)]] ++
  f.declaration.pieces

/-- The text of a file. -/
def File.print (f : File) : String := printPieces f.pieces

end DomainCodegen.Java
