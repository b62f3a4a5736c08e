import DomainCodegen.Proofs.Java.Readable

/-!
# Reading a printed file back

The tokens of a readable declaration are its header, its members or constants, and calm code behind
them; the pieces that they are printed from keep them apart. So a file that is plain and readable is
read back exactly from its text (`File.Readable.outline_print`).
-/

namespace DomainCodegen.Java

variable {keyword name : List Char} {ts r : List Token} {m : Member} {s t n b i : String}

/-! ## Headers and members -/

/-- A type with its annotations and its header is read from what stands behind the header. -/
theorem declares_header {texts : List String} (htexts : ∀ s ∈ texts, Undeclaring s)
    (hs : EndsApart s) (hpublic : textTokens s = [.word "public".toList, .word keyword])
    (hk : isDeclaring (.word keyword) = true) (ht : Apart t) (hopen : '\x7b' ∉ t.toList)
    (hn : IsName n) (hb : IsName b) (hi : IsName i) (ps : List Piece) :
    Declares (tokensOf
        (lines ("@Getter" :: (texts ++ [s ++ n ++ t ++ b ++ "<" ++ i ++ "> \x7b"])) ++ ps))
      keyword n.toList (tokensOf ps) where
  tokens := by
    refine ⟨texts, textTokens t ++ [.word b.toList, .symbol '<', .word i.toList, .symbol '>'], ?_,
      htexts, fun hm => ?_⟩
    · rw [tokensOf_append, tokensOf_lines, List.flatMap_cons, List.flatMap_append,
        List.flatMap_singleton, textTokens_header hn hb hi hs ht, hpublic]
      simp
    · rcases List.mem_append.mp hm with hm | hm
      · exact hopen (mem_of_symbol_mem hm)
      · simp at hm
  keyword := hk

theorem tokensOf_members {members : List Member} (h : ∀ m ∈ members, m.Readable)
    (modifiers : String) :
    tokensOf (members.flatMap (Member.pieces modifiers)) =
      members.flatMap (Member.tokens (textTokens modifiers)) := by
  rw [tokensOf_flatMap]
  exact List.flatMap_congr fun m hm => (h m hm).tokensOf_pieces modifiers

theorem calm_fillList (h : IsName m.name) : AllCalm (tokensOf (fillList m)) := by
  have hthis : Leads "        if (this." := .lit (by decide)
  have hnull : Trails " == null) \x7b" := .lit (by decide)
  have hthis' : Leads "            this." := .lit (by decide)
  have hnew : Trails " = new ArrayList<>();" := .lit (by decide)
  refine allCalm_lines ?_
  simp only [List.forall_mem_cons]
  exact ⟨hthis.closed h.calm hnull, hthis'.closed h.calm hnew, .lit (by decide),
    List.forall_mem_nil _⟩

theorem textTokens_private : textTokens "private" = [.word "private".toList] := by
  rw [toList_private]
  exact textTokens_lit.trans (by decide)

theorem textTokens_privateFinal :
    textTokens "private final" = [.word "private".toList, .word "final".toList] := by
  rw [toList_private, show "final".toList = ['f', 'i', 'n', 'a', 'l'] by decide]
  exact textTokens_lit.trans (by decide)

theorem textTokens_publicClass :
    textTokens "public class " = [.word "public".toList, .word "class".toList] := by
  rw [show "public".toList = ['p', 'u', 'b', 'l', 'i', 'c'] by decide,
    show "class".toList = ['c', 'l', 'a', 's', 's'] by decide]
  exact textTokens_lit.trans (by decide)

theorem textTokens_publicEnum :
    textTokens "public enum " = [.word "public".toList, .word "enum".toList] := by
  rw [show "public".toList = ['p', 'u', 'b', 'l', 'i', 'c'] by decide,
    show "enum".toList = ['e', 'n', 'u', 'm'] by decide]
  exact textTokens_lit.trans (by decide)

/-! ### Entities -/

/-- What stands behind the members. -/
def EntityClass.tail (d : EntityClass) : List Piece :=
  partDoc [.words "首次创建时调用, 分配业务编号"] ++
  (lines
    ["    @Override", "    public void toNew() \x7b", "        super.toNew();",
      "        this." ++ d.serialField ++ " = new " ++ d.serialClass ++ "(" ++ d.serialExpression ++
        ");"] ++
  ((d.members.filter fun m => m.type.list).flatMap fillList ++
  lines ["    \x7d", "\x7d"]))

theorem EntityClass.pieces_eq (d : EntityClass) :
    d.pieces = lines ("@Getter" :: (["@SuperBuilder", "@Setter(AccessLevel.PRIVATE)",
        "@EqualsAndHashCode(callSuper = true)"] ++
      ["public class " ++ d.name ++ " extends " ++ d.base ++ "<" ++ d.idClass ++ "> \x7b"])) ++
      (d.members.flatMap (Member.pieces "private") ++ d.tail) := by
  simp only [EntityClass.pieces, EntityClass.tail, List.append_assoc]
  rfl

theorem EntityClass.Readable.calm_assigning {d : EntityClass} (h : d.Readable) :
    Calm ("        this." ++ d.serialField ++ " = new " ++ d.serialClass ++ "(" ++
      d.serialExpression ++ ");") := by
  have hthis : Leads "        this." := .lit (by decide)
  have hnew : Apart " = new " := .lit (by decide)
  have hopen : Apart "(" := .lit (by decide)
  have hclose : Trails ");" := .lit (by decide)
  exact ((hthis.around h.serialField.calm hnew).around h.serialClass.calm hopen).closed
    h.serialExpression hclose

theorem EntityClass.Readable.calm_tail {d : EntityClass} (h : d.Readable) :
    AllCalm (tokensOf d.tail) := by
  have hlines : ∀ s ∈ ["    @Override", "    public void toNew() \x7b", "        super.toNew();",
      "        this." ++ d.serialField ++ " = new " ++ d.serialClass ++ "(" ++
        d.serialExpression ++ ");"], Calm s := by
    simp only [List.forall_mem_cons]
    exact ⟨.lit (by decide), .lit (by decide), .lit (by decide), h.calm_assigning,
      List.forall_mem_nil _⟩
  have hclosing : ∀ s ∈ ["    \x7d", "\x7d"], Calm s := by
    simp only [List.forall_mem_cons]
    exact ⟨.lit (by decide), .lit (by decide), List.forall_mem_nil _⟩
  have hlists : AllCalm (tokensOf ((d.members.filter fun m => m.type.list).flatMap fillList)) :=
    allCalm_flatMap fun m hm => calm_fillList (h.members m (List.mem_of_mem_filter hm)).name
  rw [EntityClass.tail, tokensOf_append, tokensOf_partDoc, tokensOf_append, tokensOf_append,
    List.nil_append, allCalm_append, allCalm_append]
  exact ⟨allCalm_lines hlines, hlists, allCalm_lines hclosing⟩

theorem EntityClass.Readable.declares {d : EntityClass} (h : d.Readable) :
    Declares (tokensOf d.pieces) "class".toList d.name.toList
      (d.members.flatMap (Member.tokens [.word "private".toList]) ++ tokensOf d.tail) := by
  have hannotations : ∀ s ∈ ["@SuperBuilder", "@Setter(AccessLevel.PRIVATE)",
      "@EqualsAndHashCode(callSuper = true)"], Undeclaring s := by
    simp only [List.forall_mem_cons]
    exact ⟨.lit (by decide), .lit (by decide), .lit (by decide), List.forall_mem_nil _⟩
  have hextends : Apart " extends " := .lit (by decide)
  rw [EntityClass.pieces_eq, ← textTokens_private, ← tokensOf_members h.members, ← tokensOf_append]
  exact declares_header hannotations (.lit (by decide)) textTokens_publicClass rfl hextends
    (by decide) h.name h.base h.idClass _

theorem EntityClass.Readable.readFields_body {d : EntityClass} (h : d.Readable) :
    readFields (d.members.flatMap (Member.tokens [.word "private".toList]) ++ tokensOf d.tail) =
      some (d.members.map fun m => (m.type, m.name)) :=
  readFields_members (fun m hm _ => (h.members m hm).readFields) h.calm_tail

/-! ### Value objects -/

/-- What stands behind the members. -/
def ValueClass.tail (d : ValueClass) : List Piece :=
  let members := d.members.map Prod.fst
  partDoc (.words "构造函数" :: .bare ::
    members.map fun m => .words ("@param " ++ m.name ++ " " ++ javadoc m.doc)) ++
  (line ("    public " ++ d.name ++ "(" ++
    ", ".intercalate (members.map fun m => m.type.text ++ " " ++ m.name) ++ ") \x7b") ::
  (members.flatMap d.checkPieces ++
  (lines (members.map assignment ++ ["    \x7d"]) ++
  (partDoc (.words "比较两个值对象的值是否相等" :: ((if d.comparesByOrder then orderNote else []) ++
    [.bare, .words "@param other 另一个值对象", .words "@return 结果"])) ++
  lines
    ["    @Override", "    public boolean sameValueAs(" ++ d.name ++ " other) \x7b",
      "        if (other == null) \x7b", "            return false;", "        \x7d",
      "        return " ++
        "\n                && ".intercalate (d.members.map comparisonText) ++ ";",
      "    \x7d", "\x7d"]))))

theorem ValueClass.pieces_eq (d : ValueClass) :
    d.pieces = lines ("@Getter" :: (["@EqualsAndHashCode"] ++
      ["public class " ++ d.name ++ " implements " ++ d.interface ++ "<" ++ d.name ++ "> \x7b"])) ++
      ((d.members.map Prod.fst).flatMap (Member.pieces "private final") ++ d.tail) := by
  simp only [ValueClass.pieces, ValueClass.tail, lines, List.map_append, List.append_assoc]
  rfl

theorem calm_type (h : IsName m.type.name) : Calm m.type.text := by
  rw [Calm, textTokens_type h]
  exact allCalm_type h

theorem Member.Readable.calm_assignment (h : m.Readable) : Calm (assignment m) := by
  have hthis : Leads "        this." := .lit (by decide)
  have hequals : Apart " = " := .lit (by decide)
  have hend : Trails ";" := .lit (by decide)
  have hcopy : Leads "List.copyOf(" := .lit (by decide)
  have hclose : Trails ")" := .lit (by decide)
  refine (hthis.around h.name.calm hequals).closed ?_ hend
  split
  · exact hcopy.closed h.name.calm hclose
  · exact h.name.calm

theorem Member.Readable.calm_comparison (h : m.Readable) (c : Comparison) :
    Calm (comparisonText (m, c)) := by
  cases c with
  | equality =>
    have hequals : Leads "Objects.equals(this." := .lit (by decide)
    have hother : Apart ", other." := .lit (by decide)
    have hclose : Trails ")" := .lit (by decide)
    exact (hequals.around h.name.calm hother).closed h.name.calm hclose
  | order =>
    have hthis : Leads "this." := .lit (by decide)
    have hother : Apart ".compareTo(other." := .lit (by decide)
    have hclose : Trails ") == 0" := .lit (by decide)
    exact (hthis.around h.name.calm hother).closed h.name.calm hclose

theorem ValueClass.Readable.calm_checkPieces {d : ValueClass} (h : d.Readable) (hm : m.Readable) :
    AllCalm (tokensOf (d.checkPieces m)) := by
  have hif : Leads "        if (" := .lit (by decide)
  have hopen : Apart "(" := .lit (by decide)
  have hclose : Trails ")) \x7b" := .lit (by decide)
  have hthrow : Leads "            throw new " := .lit (by decide)
  have hcomma : Trails ", " := .lit (by decide)
  have hend : Calm ");" := .lit (by decide)
  have hbrace : Calm "        \x7d" := .lit (by decide)
  simp only [ValueClass.checkPieces, tokensOf_cons, tokensOf_nil, tokens_line, allCalm_append]
  exact ⟨(hif.around h.emptyCheck hopen).closed hm.name.calm hclose,
    (hthrow.around h.exception hopen).closed h.resultCode hcomma, by simp [AllCalm, Piece.tokens],
    hend, hbrace, allCalm_nil⟩

theorem ValueClass.Readable.calm_constructor {d : ValueClass} (h : d.Readable) :
    Calm ("    public " ++ d.name ++ "(" ++ ", ".intercalate
      ((d.members.map Prod.fst).map fun m => m.type.text ++ " " ++ m.name) ++ ") \x7b") := by
  have hpublic : Leads "    public " := .lit (by decide)
  have hopen : Apart "(" := .lit (by decide)
  have hblank : Apart " " := .lit (by decide)
  have hcomma : Apart ", " := .lit (by decide)
  have hclose : Trails ") \x7b" := .lit (by decide)
  refine (hpublic.around h.name.calm hopen).closed (hcomma.intercalate fun t ht => ?_) hclose
  rw [List.map_map, List.mem_map] at ht
  obtain ⟨p, hp, rfl⟩ := ht
  exact hblank.joins (calm_type (h.members p hp).type) (h.members p hp).name.calm

theorem calm_sameValueAs (h : IsName n) :
    Calm ("    public boolean sameValueAs(" ++ n ++ " other) \x7b") := by
  have hpublic : Leads "    public boolean sameValueAs(" := .lit (by decide)
  have hother : Trails " other) \x7b" := .lit (by decide)
  exact hpublic.closed h.calm hother

theorem ValueClass.Readable.calm_comparing {d : ValueClass} (h : d.Readable) :
    Calm ("        return " ++
      "\n                && ".intercalate (d.members.map comparisonText) ++ ";") := by
  have hreturn : Leads "        return " := .lit (by decide)
  have hand : Apart "\n                && " := .lit (by decide)
  have hend : Trails ";" := .lit (by decide)
  refine hreturn.closed (hand.intercalate fun t ht => ?_) hend
  obtain ⟨p, hp, rfl⟩ := List.mem_map.mp ht
  exact (h.members p hp).calm_comparison p.2

theorem ValueClass.Readable.calm_tail {d : ValueClass} (h : d.Readable) :
    AllCalm (tokensOf d.tail) := by
  have hchecks : AllCalm (tokensOf ((d.members.map Prod.fst).flatMap d.checkPieces)) := by
    refine allCalm_flatMap fun m hm => ?_
    obtain ⟨p, hp, rfl⟩ := List.mem_map.mp hm
    exact h.calm_checkPieces (h.members p hp)
  have hassignments : ∀ s ∈ (d.members.map Prod.fst).map assignment ++ ["    \x7d"], Calm s := by
    rw [List.map_map]
    intro s hs
    rcases List.mem_append.mp hs with hs | hs
    · obtain ⟨p, hp, rfl⟩ := List.mem_map.mp hs
      exact (h.members p hp).calm_assignment
    · obtain rfl := List.mem_singleton.mp hs
      exact .lit (by decide)
  have hlines : ∀ s ∈ ["    @Override",
      "    public boolean sameValueAs(" ++ d.name ++ " other) \x7b",
      "        if (other == null) \x7b", "            return false;", "        \x7d",
      "        return " ++
        "\n                && ".intercalate (d.members.map comparisonText) ++ ";",
      "    \x7d", "\x7d"], Calm s := by
    simp only [List.forall_mem_cons]
    exact ⟨.lit (by decide), calm_sameValueAs h.name, .lit (by decide), .lit (by decide),
      .lit (by decide), h.calm_comparing, .lit (by decide), .lit (by decide), List.forall_mem_nil _⟩
  simp only [ValueClass.tail, tokensOf_append, tokensOf_cons, tokensOf_partDoc, tokens_line,
    List.nil_append, allCalm_append]
  exact ⟨h.calm_constructor, hchecks, allCalm_lines hassignments, allCalm_lines hlines⟩

theorem ValueClass.Readable.declares {d : ValueClass} (h : d.Readable) :
    Declares (tokensOf d.pieces) "class".toList d.name.toList
      ((d.members.map Prod.fst).flatMap
        (Member.tokens [.word "private".toList, .word "final".toList]) ++ tokensOf d.tail) := by
  have hannotations : ∀ s ∈ ["@EqualsAndHashCode"], Undeclaring s := by
    rw [List.forall_mem_singleton]
    exact .lit (by decide)
  have hmembers : ∀ m ∈ d.members.map Prod.fst, m.Readable := List.forall_mem_map.mpr h.members
  have himplements : Apart " implements " := .lit (by decide)
  rw [ValueClass.pieces_eq, ← textTokens_privateFinal, ← tokensOf_members hmembers,
    ← tokensOf_append]
  exact declares_header hannotations (.lit (by decide)) textTokens_publicClass rfl himplements
    (by decide) h.name h.interface h.name _

theorem ValueClass.Readable.readFields_body {d : ValueClass} (h : d.Readable) :
    readFields ((d.members.map Prod.fst).flatMap
        (Member.tokens [.word "private".toList, .word "final".toList]) ++ tokensOf d.tail) =
      some (d.members.map fun p => (p.1.type, p.1.name)) := by
  have hmembers : ∀ m ∈ d.members.map Prod.fst, m.Readable := List.forall_mem_map.mpr h.members
  rw [readFields_members (fun m hm _ => (hmembers m hm).readFields_final) h.calm_tail,
    List.map_map]
  rfl

/-! ### Enumerations -/

/-- What stands behind the constants. -/
def EnumClass.tail (d : EnumClass) : List Piece :=
  partDoc [.words "业务含义"] ++
  (lines
    ["    private final String businessMeaning;", "",
      "    " ++ d.name ++ "(String businessMeaning) \x7b",
      "        this.businessMeaning = businessMeaning;", "    \x7d"] ++
  (partDoc
    [.words "比较两个枚举值是否相等", .bare, .words "@param other 另一个枚举值", .words "@return 结果"] ++
  lines
    ["    @Override", "    public boolean sameValueAs(" ++ d.name ++ " other) \x7b",
      "        return other != null && this.name().equals(other.name());", "    \x7d", "\x7d"]))

theorem EnumClass.pieces_eq (d : EnumClass) :
    d.pieces = lines ("@Getter" :: ([] ++
      ["public enum " ++ d.name ++ " implements " ++ d.interface ++ "<" ++ d.name ++ "> \x7b"])) ++
      (constantPieces d.constants ++ d.tail) := by
  simp only [EnumClass.pieces, EnumClass.tail, List.append_assoc]
  rfl

theorem EnumClass.Readable.declares {d : EnumClass} (h : d.Readable) :
    Declares (tokensOf d.pieces) "enum".toList d.name.toList
      (tokensOf (constantPieces d.constants) ++ tokensOf d.tail) := by
  have himplements : Apart " implements " := .lit (by decide)
  rw [EnumClass.pieces_eq, ← tokensOf_append]
  exact declares_header (fun _ hs => absurd hs List.not_mem_nil) (.lit (by decide))
    textTokens_publicEnum rfl himplements (by decide) h.name h.interface h.name _

/-- The line of the only field. -/
theorem readFields_meaning (h : AllCalm ts) :
    readFields (textTokens "    private final String businessMeaning;" ++ ts) =
      some [({ name := "String" }, "businessMeaning")] := by
  have hfield : textTokens "    private final String businessMeaning;" =
      .word "private".toList :: ([.word "final".toList, .word "String".toList,
        .word "businessMeaning".toList, .symbol ';']) := by
    rw [toList_private, show "final".toList = ['f', 'i', 'n', 'a', 'l'] by decide,
      show "String".toList = ['S', 't', 'r', 'i', 'n', 'g'] by decide,
      show "businessMeaning".toList = ['b', 'u', 's', 'i', 'n', 'e', 's', 's', 'M', 'e', 'a', 'n',
        'i', 'n', 'g'] by decide]
    exact textTokens_lit.trans (by decide)
  have hcalm : AllCalm [.word "final".toList, .word "String".toList,
      .word "businessMeaning".toList, .symbol ';'] := by
    simp only [AllCalm, List.mem_cons, Token.word.injEq, String.toList_inj]
    decide
  have hread : fieldOf (skipFinal ([.word "final".toList, .word "String".toList,
      .word "businessMeaning".toList, .symbol ';'] ++ ts)) =
        some ({ name := "String" }, "businessMeaning") := by
    rw [List.cons_append, skipFinal, if_pos rfl]
    simp [fieldOf]
  rw [hfield, List.cons_append, readFields_private hcalm hread, readFields_calm h]
  rfl

theorem EnumClass.Readable.readFields_tail {d : EnumClass} (h : d.Readable) :
    readFields (tokensOf d.tail) = some [({ name := "String" }, "businessMeaning")] := by
  have hleads : Leads "    " := .lit (by decide)
  have htrails : Trails "(String businessMeaning) \x7b" := .lit (by decide)
  have hconstructor : ∀ s ∈ ["", "    " ++ d.name ++ "(String businessMeaning) \x7b",
      "        this.businessMeaning = businessMeaning;", "    \x7d"], Calm s := by
    simp only [List.forall_mem_cons]
    exact ⟨calm_empty, hleads.closed h.name.calm htrails, .lit (by decide), .lit (by decide),
      List.forall_mem_nil _⟩
  have hcomparing : ∀ s ∈ ["    @Override",
      "    public boolean sameValueAs(" ++ d.name ++ " other) \x7b",
      "        return other != null && this.name().equals(other.name());", "    \x7d", "\x7d"],
      Calm s := by
    simp only [List.forall_mem_cons]
    exact ⟨.lit (by decide), calm_sameValueAs h.name, .lit (by decide), .lit (by decide),
      .lit (by decide), List.forall_mem_nil _⟩
  rw [EnumClass.tail, lines, List.map_cons, ← lines]
  simp only [tokensOf_append, tokensOf_cons, tokensOf_partDoc, tokens_line, List.nil_append,
    List.append_assoc]
  exact readFields_meaning
    (allCalm_append.mpr ⟨allCalm_lines hconstructor, allCalm_lines hcomparing⟩)

/-- The tokens of a constant, given the symbol behind it. -/
def constantTokens (end_ : Char) (constant : String × String) : List Token :=
  [.word constant.1.toList, .symbol '(', .literal (literalChars constant.2.toList), .symbol ')',
    .symbol end_]

theorem tokensOf_constantPieces {constant : String × String} {constants : List (String × String)}
    (h : IsName constant.1) :
    tokensOf (constantPieces (constant :: constants)) =
      constantTokens (if constants.isEmpty then ';' else ',') constant ++
        tokensOf (constantPieces constants) := by
  obtain ⟨name, meaning⟩ := constant
  have hindent : textTokens "    " = [] := textTokens_lit.trans (by decide)
  have hopen : textTokens "(" = [.symbol '('] := textTokens_lit.trans (by decide)
  have hend : textTokens (if constants.isEmpty then ");" else "),") =
      [.symbol ')', .symbol (if constants.isEmpty then ';' else ',')] := by
    split
    · exact textTokens_lit.trans (by decide)
    · exact textTokens_lit.trans (by decide)
  have hname : (Piece.code ("    " ++ name ++ "(")).tokens = [.word name.toList, .symbol '('] := by
    rw [Piece.tokens, textTokens_between (.lit (by decide)) (.lit (by decide)), h.textTokens,
      hindent, hopen]
    rfl
  simp only [constantPieces, tokensOf_append, tokensOf_cons, tokensOf_nil, tokensOf_partDoc,
    tokens_line, hname, hend]
  rfl

theorem readConstants_cons {constant : String × String} (c : Char) :
    readConstants (constantTokens c constant ++ r) =
      if c = ';' then some [constant]
      else if c = ',' then (readConstants r).map (constant :: ·)
      else none := by
  obtain ⟨name, meaning⟩ := constant
  simp only [constantTokens, List.cons_append, List.nil_append, readConstants,
    unescape_literalChars, Option.bind_some, String.ofList_toList]

/-- Constants are read one by one, up to the one with the semicolon. -/
theorem readConstants_pieces {constants : List (String × String)}
    (h : ∀ c ∈ constants, IsName c.1) (hne : constants ≠ []) :
    readConstants (tokensOf (constantPieces constants) ++ r) = some constants := by
  induction constants with
  | nil => exact absurd rfl hne
  | cons constant constants ih =>
    obtain ⟨hc, hconstants⟩ := List.forall_mem_cons.mp h
    rw [tokensOf_constantPieces hc, List.append_assoc, readConstants_cons]
    cases constants with
    | nil => rfl
    | cons next constants =>
      rw [ih hconstants (List.cons_ne_nil _ _)]
      rfl

theorem calm_constantPieces {constants : List (String × String)}
    (h : ∀ c ∈ constants, IsName c.1) : AllCalm (tokensOf (constantPieces constants)) := by
  induction constants with
  | nil => exact allCalm_nil
  | cons constant constants ih =>
    obtain ⟨hc, hconstants⟩ := List.forall_mem_cons.mp h
    have hname := (hc.word_ne private_mem).symm
    rw [tokensOf_constantPieces hc, allCalm_append]
    exact ⟨by simpa [AllCalm, constantTokens] using hname, ih hconstants⟩

theorem EnumClass.Readable.readFields_body {d : EnumClass} (h : d.Readable) :
    readFields (tokensOf (constantPieces d.constants) ++ tokensOf d.tail) =
      some [({ name := "String" }, "businessMeaning")] := by
  rw [readFields_append (calm_constantPieces h.constants), h.readFields_tail]

/-! ## Declarations and files -/

/-- A readable declaration is read back from the tokens of its pieces. -/
theorem Declaration.Readable.readTokens {d : Declaration} (h : d.Readable)
    {package imports : List Token} (hp : .symbol ';' ∉ package)
    (hi : ∀ r, skipImports false (imports ++ r) = skipImports false r) :
    Java.readTokens
        (.word "package".toList :: (package ++ .symbol ';' :: (imports ++ tokensOf d.pieces))) =
      some (d.outline (String.ofList (package.flatMap Token.chars))) := by
  have hclass : "class".toList ≠ "enum".toList := by
    rw [Ne, String.toList_inj]
    decide
  cases d with
  | entity d =>
    have hd : d.Readable := h
    rw [Declaration.pieces, hd.declares.readTokens hp hi, if_neg hclass, hd.readFields_body,
      String.ofList_toList]
    rfl
  | value d =>
    have hd : d.Readable := h
    rw [Declaration.pieces, hd.declares.readTokens hp hi, if_neg hclass, hd.readFields_body,
      String.ofList_toList]
    rfl
  | enumeration d =>
    have hd : d.Readable := h
    rw [Declaration.pieces, hd.declares.readTokens hp hi, if_pos rfl, hd.readFields_body,
      readConstants_pieces hd.constants hd.constants_ne_nil, String.ofList_toList]
    rfl

theorem File.tokensOf_pieces (f : File) :
    tokensOf f.pieces = .word "package".toList :: (textTokens f.package ++ .symbol ';' ::
      (tokensOf (lines (f.imports.map fun name => "import " ++ name ++ ";")) ++
        tokensOf f.declaration.pieces)) := by
  have hpackage : textTokens "package " = [.word "package".toList] := by
    rw [show "package".toList = ['p', 'a', 'c', 'k', 'a', 'g', 'e'] by decide]
    exact textTokens_lit.trans (by decide)
  have hblank : textTokens "" = [] := textTokens_lit.trans rfl
  have hbanner : tokensOf (f.banner.toList.map .lineComment) = [] := by
    cases f.banner <;> rfl
  have hline : textTokens ("package " ++ f.package ++ ";") =
      .word "package".toList :: (textTokens f.package ++ [.symbol ';']) := by
    rw [textTokens_between (.lit (by decide)) (.lit (by decide)), hpackage, textTokens_semicolon]
    rfl
  have hhead : tokensOf (lines ["package " ++ f.package ++ ";", ""]) =
      .word "package".toList :: (textTokens f.package ++ [.symbol ';']) := by
    rw [tokensOf_lines, List.flatMap_cons, List.flatMap_singleton, hline, hblank, List.append_nil]
  have hdoc : tokensOf [line "", .doc "" [.words (javadoc f.doc)]] = [] := by
    rw [tokensOf_cons, tokensOf_cons, tokens_line, Piece.tokens, hblank]
    rfl
  simp only [File.pieces, tokensOf_append, hbanner, hhead, hdoc]
  simp

/-! ## Pieces that are kept apart -/

def AllApart (ps : List Piece) : Prop := ∀ p ∈ ps, p.Apart

variable {ps qs : List Piece}

theorem allApart_append : AllApart (ps ++ qs) ↔ AllApart ps ∧ AllApart qs := List.forall_mem_append

theorem apart_line (s : String) : (line s).Apart :=
  EndsApart.append (.lit (by decide)) (by decide) s

theorem allApart_lines (texts : List String) : AllApart (lines texts) :=
  List.forall_mem_map.mpr fun s _ => apart_line s

theorem allApart_partDoc (all : List DocLine) : AllApart (partDoc all) :=
  List.forall_mem_cons.mpr ⟨apart_line "", List.forall_mem_singleton.mpr trivial⟩

theorem allApart_flatMap {α : Type} {all : List α} {g : α → List Piece}
    (h : ∀ a ∈ all, AllApart (g a)) : AllApart (all.flatMap g) :=
  List.forall_mem_flatMap.mpr h

theorem allApart_member (modifiers : String) (m : Member) : AllApart (m.pieces modifiers) :=
  allApart_append.mpr ⟨allApart_partDoc _, List.forall_mem_singleton.mpr (apart_line _)⟩

theorem EntityClass.allApart_pieces (d : EntityClass) : AllApart d.pieces := by
  simp only [EntityClass.pieces, allApart_append]
  exact ⟨⟨⟨⟨⟨allApart_lines _, allApart_flatMap fun m _ => allApart_member _ m⟩,
    allApart_partDoc _⟩, allApart_lines _⟩, allApart_flatMap fun m _ => allApart_lines _⟩,
    allApart_lines _⟩

theorem ValueClass.allApart_checkPieces (d : ValueClass) (m : Member) :
    AllApart (d.checkPieces m) := by
  have hcomma : EndsApart ", " := .lit (by decide)
  simp only [ValueClass.checkPieces, AllApart, List.forall_mem_cons]
  exact ⟨apart_line _, hcomma.append (by decide) _, trivial, apart_line _, apart_line _,
    List.forall_mem_nil _⟩

theorem ValueClass.allApart_pieces (d : ValueClass) : AllApart d.pieces := by
  simp only [ValueClass.pieces, allApart_append]
  exact ⟨⟨⟨⟨⟨⟨⟨⟨allApart_lines _, allApart_flatMap fun m _ => allApart_member _ m⟩,
    allApart_partDoc _⟩, List.forall_mem_singleton.mpr (apart_line _)⟩,
    allApart_flatMap fun m _ => d.allApart_checkPieces m⟩, allApart_lines _⟩, allApart_lines _⟩,
    allApart_partDoc _⟩, allApart_lines _⟩

theorem allApart_constantPieces (constants : List (String × String)) :
    AllApart (constantPieces constants) := by
  have hopen : EndsApart "(" := .lit (by decide)
  induction constants with
  | nil => exact fun _ hp => absurd hp List.not_mem_nil
  | cons constant constants ih =>
    simp only [constantPieces, allApart_append]
    refine ⟨⟨allApart_partDoc _, ?_⟩, ih⟩
    simp only [AllApart, List.forall_mem_cons]
    exact ⟨hopen.append (by decide) _, trivial, apart_line _, List.forall_mem_nil _⟩

theorem EnumClass.allApart_pieces (d : EnumClass) : AllApart d.pieces := by
  simp only [EnumClass.pieces, allApart_append]
  exact ⟨⟨⟨⟨⟨allApart_lines _, allApart_constantPieces _⟩, allApart_partDoc _⟩, allApart_lines _⟩,
    allApart_partDoc _⟩, allApart_lines _⟩

theorem Declaration.allApart_pieces (d : Declaration) : AllApart d.pieces := by
  cases d with
  | entity d => exact d.allApart_pieces
  | value d => exact d.allApart_pieces
  | enumeration d => exact d.allApart_pieces

theorem File.allApart_pieces (f : File) : AllApart f.pieces := by
  have hbanner : AllApart (f.banner.toList.map .lineComment) :=
    List.forall_mem_map.mpr fun _ _ => trivial
  simp only [File.pieces, allApart_append]
  exact ⟨⟨⟨⟨hbanner, allApart_lines _⟩, allApart_lines _⟩,
    List.forall_mem_cons.mpr ⟨apart_line _, List.forall_mem_singleton.mpr trivial⟩⟩,
    f.declaration.allApart_pieces⟩

/-- What is read from the text of a plain file is read from the tokens of its parts. -/
theorem File.Plain.outline_print {f : File} (hp : f.Plain) :
    Java.outline f.print = readTokens (.word "package".toList :: (textTokens f.package ++
      .symbol ';' :: (tokensOf (lines (f.imports.map fun name => "import " ++ name ++ ";")) ++
        tokensOf f.declaration.pieces))) := by
  rw [Java.outline, hp.lexemes_print, Option.bind_some, tokens_flatMap f.allApart_pieces,
    ← tokensOf, f.tokensOf_pieces]

/-- A readable file is read back from its text. -/
theorem File.Readable.outline_print {f : File} (hp : f.Plain) (h : f.Readable) :
    Java.outline f.print = some f.outline := by
  have hsemicolon : .symbol ';' ∉ textTokens f.package :=
    fun hm => (h.package _ (mem_of_symbol_mem hm)).2 rfl
  have hpackage : (textTokens f.package).flatMap Token.chars = f.package.toList := by
    rw [flatMap_chars_textTokens, List.filter_eq_self]
    intro c hc
    rw [(h.package c hc).1]
    rfl
  rw [hp.outline_print,
    h.declaration.readTokens hsemicolon fun r => skipImports_lines h.imports, hpackage,
    String.ofList_toList]
  rfl

/-- The package that is read from tokens stands before the first semicolon. -/
theorem package_of_readTokens {o : Outline}
    (h : readTokens (.word "package".toList :: ts) = some o) :
    o.package = String.ofList ((ts.takeWhile (· ≠ .symbol ';')).flatMap Token.chars) := by
  rw [readTokens, if_pos rfl] at h
  dsimp only at h
  unfold readType at h
  split at h
  · obtain ⟨constants, -, h⟩ := Option.bind_eq_some_iff.mp h
    obtain ⟨fields, -, rfl⟩ := Option.map_eq_some_iff.mp h
    rfl
  · cases h

end DomainCodegen.Java
