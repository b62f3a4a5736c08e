import DomainCodegen.Proofs.Java.ReadBack
import DomainCodegen.Proofs.Name

/-!
# Type names in code

Which words of code name types is read from the tokens around them, one token at a time. A word is a
type behind `@`, `new`, `extends` and the like, before a type argument and before a name that is
declared; a word before a dot is one unless it names something that is declared in the same code.
Readable declarations use exactly the names that their parts list (`Declaration.Readable.reads`), so
that the type names in the body of a file are read from its text (`File.typeNames_body`).
-/

namespace DomainCodegen.Java

/-! ## Reading -/

/-- What the tokens before a place say about a word that stands there. -/
inductive Context where
  | free
  /-- Behind a dot, where a member stands. -/
  | selected
  /-- Where only a type can stand. -/
  | type
  /-- Behind a type, where a name can be declared. -/
  | typed
  /-- Behind a word that the next token tells about. -/
  | name (s : String)
  deriving DecidableEq, Repr

/-- A name as a type, as what a member is selected from, or as what is declared. -/
inductive Use where
  | type (s : String)
  | root (s : String)
  | bound (s : String)
  deriving DecidableEq, Repr

/-- A word that Java does not keep for itself and that is no number. -/
def isNaming (s : String) : Bool :=
  !Name.reservedWords.contains s && !s.toList.head?.any Char.isDigit

/-- The words before types. -/
def typeWords : List String :=
  ["class", "enum", "extends", "implements", "instanceof", "interface", "new", "throws"]

/-- What becomes known of names at a token. -/
def Context.uses : Context → Token → List Use
  | .type, .word w => if isNaming (String.ofList w) then [.type (String.ofList w)] else []
  | .typed, .word w => if isNaming (String.ofList w) then [.bound (String.ofList w)] else []
  | .name s, .word w =>
    if isNaming (String.ofList w) then [.type s, .bound (String.ofList w)] else []
  | .name s, .symbol c => if c = '<' then [.type s] else if c = '.' then [.root s] else []
  | _, _ => []

def Context.next : Context → Token → Context
  | context, .word w =>
    if isNaming (String.ofList w) then
      match context with
      | .free => .name (String.ofList w)
      | .type => .typed
      | _ => .free
    else if typeWords.contains (String.ofList w) then .type
    else .free
  | _, .symbol c =>
    if c = '.' then .selected
    else if c = '@' ∨ c = '<' then .type
    else if c = '>' then .typed
    else .free
  | _, .literal _ => .free

/-- The uses of names in tokens, and the context behind the tokens. -/
def Context.read : Context → List Token → List Use × Context
  | context, [] => ([], context)
  | context, t :: r =>
    (context.uses t ++ ((context.next t).read r).1, ((context.next t).read r).2)

/-- The types among the uses of names. A name that is declared hides the type of that name. -/
def typesIn (uses : List Use) : List String :=
  uses.filterMap fun
    | .type s => some s
    | .root s => if .bound s ∈ uses then none else some s
    | .bound _ => none

/-- The simple names of types that a text without package and imports uses. -/
def typeNames (text : String) : Option (List String) :=
  (lexemes text).map fun all => typesIn (Context.free.read (tokens all)).1

example : typeNames "@A(B.C) D<E> x = new F(x.y, \"G.h\"); // I j;" =
    some ["A", "B", "D", "E", "F"] := by decide

/-- What stands in a file before its body: its package, its imports and its own Javadoc. -/
def File.preamble (f : File) : String :=
  printPieces (f.banner.toList.map .lineComment ++ lines ["package " ++ f.package ++ ";", ""] ++
    lines (f.imports.map fun name => "import " ++ name ++ ";") ++
    [line "", .doc "" [.words (javadoc f.doc)]])

def File.body (f : File) : String := printPieces f.declaration.pieces

theorem File.print_eq (f : File) : f.print = f.preamble ++ f.body := by
  rw [print, preamble, body, printPieces, printPieces, printPieces, ← String.join_append,
    ← List.map_append]
  rfl

variable {c d e : Context} {ts r : List Token} {us vs ws : List Use} {s t n : String} {m : Member}
  {ps qs : List Piece}

/-! ## Readings -/

/-- Tokens are read from one context into another. -/
def Reads (c : Context) (ts : List Token) (us : List Use) (d : Context) : Prop :=
  c.read ts = (us, d)

theorem reads_nil (c : Context) : Reads c (tokensOf []) [] c := rfl

theorem Reads.append (h : Reads c ts us d) (h' : Reads d r vs e) :
    Reads c (ts ++ r) (us ++ vs) e := by
  induction ts generalizing c us with
  | nil =>
    cases h
    exact h'
  | cons t ts ih =>
    cases h
    have hrest := ih rfl
    unfold Reads at hrest ⊢
    rw [List.cons_append, Context.read, hrest, ← List.append_assoc]

theorem Reads.flatMap {α : Type} {all : List α} {g : α → List Token} {f : α → List Use}
    (h : ∀ a ∈ all, Reads c (g a) (f a) c) : Reads c (all.flatMap g) (all.flatMap f) c := by
  induction all with
  | nil => exact reads_nil c
  | cons a all ih =>
    obtain ⟨ha, hall⟩ := List.forall_mem_cons.mp h
    exact ha.append (ih hall)

theorem Reads.lit {cs : List Char} (h : c.read (tokens (cs.map .code)) = (us, d)) :
    Reads c (textTokens (String.ofList cs)) us d := by
  rwa [Reads, textTokens_lit]

theorem Reads.flatMap_pieces {α : Type} {all : List α} {g : α → List Piece} {f : α → List Use}
    (h : ∀ a ∈ all, Reads c (tokensOf (g a)) (f a) c) :
    Reads c (tokensOf (all.flatMap g)) (all.flatMap f) c := by
  rw [tokensOf_flatMap]
  exact .flatMap h

theorem Reads.line (h : Reads c (textTokens s) us d) (h' : Reads d (tokensOf ps) vs e) :
    Reads c (tokensOf (Java.line s :: ps)) (us ++ vs) e := by
  rw [tokensOf_cons, tokens_line]
  exact h.append h'

theorem Reads.pieces (h : Reads c (tokensOf ps) us d) (h' : Reads d (tokensOf qs) vs e) :
    Reads c (tokensOf (ps ++ qs)) (us ++ vs) e := by
  rw [tokensOf_append]
  exact h.append h'

theorem Reads.doc {all : List DocLine} (h : Reads c (tokensOf ps) us d) :
    Reads c (tokensOf (partDoc all ++ ps)) us d := by
  rwa [tokensOf_append, tokensOf_partDoc, List.nil_append]

theorem Reads.uses_eq (h : Reads c ts us d) (heq : us = vs) : Reads c ts vs d := heq ▸ h

/-! ### Names -/

theorem isNaming_of_isName (h : IsName s) : isNaming s = true := by
  obtain ⟨hform, hfree⟩ := Bool.and_eq_true_iff.mp h.identifier
  have hlast : s.toList.getLast? ≠ some '\n' := Name.getLast?_ne_of_forall (by decide) h.parts
  rw [Name.hasIdentifierForm, Name.matched_eq_self hlast] at hform
  have hstart : s.toList.head?.any Char.isDigit = false := by
    cases hs : s.toList with
    | nil => rfl
    | cons x r =>
      rw [hs] at hform
      exact Name.isDigit_of_isIdentifierStart (Bool.and_eq_true_iff.mp hform).1
  rw [isNaming, hfree, hstart]
  rfl

/-- What a name is used as. -/
@[simp] def Context.usesOfName (s : String) : Context → List Use
  | type => [.type s]
  | typed => [.bound s]
  | name n => [.type n, .bound s]
  | _ => []

@[simp] def Context.afterName (s : String) : Context → Context
  | free => .name s
  | type => .typed
  | _ => .free

theorem reads_name (h : IsName s) (c : Context) :
    Reads c (textTokens s) (c.usesOfName s) (c.afterName s) := by
  rw [h.textTokens]
  cases c <;>
    simp [Reads, Context.read, Context.uses, Context.next, Context.usesOfName, Context.afterName,
      isNaming_of_isName h]

/-! ### Texts -/

/-- Code that a name may follow. -/
structure Opens (c : Context) (s : String) (us : List Use) (d : Context) : Prop where
  ends : EndsApart s
  reads : Reads c (textTokens s) us d

/-- Code that may follow a name. -/
structure Closes (c : Context) (s : String) (us : List Use) (d : Context) : Prop where
  starts : StartsApart s
  reads : Reads c (textTokens s) us d

/-- Code that may stand between names. -/
structure Parts (c : Context) (s : String) (us : List Use) (d : Context) : Prop
  extends Opens c s us d, Closes c s us d

theorem Opens.lit {cs : List Char} (h : cs.getLast?.any isWordPart = false)
    (hr : c.read (tokens (cs.map .code)) = (us, d)) : Opens c (String.ofList cs) us d :=
  ⟨.lit h, .lit hr⟩

theorem Closes.lit {x : Char} {r : List Char} (h : isWordPart x = false)
    (hr : c.read (tokens ((x :: r).map .code)) = (us, d)) :
    Closes c (String.ofList (x :: r)) us d :=
  ⟨.lit h, .lit hr⟩

theorem Parts.lit {x : Char} {r : List Char}
    (h : isWordPart x = false ∧ (x :: r).getLast?.any isWordPart = false)
    (hr : c.read (tokens ((x :: r).map .code)) = (us, d)) :
    Parts c (String.ofList (x :: r)) us d where
  toOpens := .lit h.2 hr
  starts := .lit h.1

theorem Closes.ne_empty (h : Closes c s us d) : s ≠ "" := by
  rintro rfl
  obtain ⟨x, r, hx, -⟩ := h.starts
  cases hx

variable {c₁ c₂ c₃ : Context}

theorem Opens.closed (hs : Opens c s us c₁) (hn : Reads c₁ (textTokens n) vs c₂)
    (ht : Closes c₂ t ws c₃) : Reads c (textTokens (s ++ n ++ t)) (us ++ vs ++ ws) c₃ := by
  rw [textTokens_between hs.ends ht.starts]
  exact (hs.reads.append hn).append ht.reads

theorem Opens.around (hs : Opens c s us c₁) (hn : Reads c₁ (textTokens n) vs c₂)
    (ht : Parts c₂ t ws c₃) : Opens c (s ++ n ++ t) (us ++ vs ++ ws) c₃ where
  ends := ht.ends.append ht.ne_empty _
  reads := hs.closed hn ht.toCloses

theorem Parts.intercalate {α : Type} {all : List α} {g : α → String} {f : α → List Use}
    (hs : Parts c s [] c) (h : ∀ a ∈ all, Reads c (textTokens (g a)) (f a) c) :
    Reads c (textTokens (s.intercalate (all.map g))) (all.flatMap f) c := by
  induction all with
  | nil => exact (.lit rfl : Reads c (textTokens (String.ofList [])) [] c)
  | cons a all ih =>
    obtain ⟨ha, hall⟩ := List.forall_mem_cons.mp h
    cases all with
    | nil => simpa using ha
    | cons b all =>
      have hends : EndsApart (g a ++ s) := hs.ends.append hs.ne_empty _
      rw [List.map_cons, List.map_cons, String.intercalate_cons_cons,
        textTokens_append_left hends, textTokens_append_right hs.starts]
      simpa using (ha.append hs.toCloses.reads).append (ih hall)

/-- A member that is selected from a class. -/
theorem reads_selection (h : IsName n) (hs : Reads .selected (textTokens s) [] .free) :
    Reads .free (textTokens (n ++ "." ++ s)) [.root n] .free := by
  have hdot : Parts (.name n) "." [.root n] .selected := .lit (by decide) rfl
  rw [textTokens_append_left (hdot.ends.append hdot.ne_empty _),
    textTokens_append_right hdot.starts]
  exact ((reads_name h .free).append hdot.toCloses.reads).append hs

/-! ## Declarations -/

/-- What is used in code that stands for itself. -/
def usesIn (s : String) : List Use := (Context.free.read (textTokens s)).1

/-- Code behind which no name is open. -/
def Settled (s : String) : Prop := (Context.free.read (textTokens s)).2 = .free

theorem Settled.reads (h : Settled s) : Reads .free (textTokens s) (usesIn s) .free :=
  Prod.ext rfl h

theorem Reads.usesIn_eq (h : Reads .free (textTokens s) us .free) : usesIn s = us :=
  congrArg Prod.fst h

theorem Reads.settled (h : Reads .free (textTokens s) us .free) : Settled s := congrArg Prod.snd h

def TypeUse.uses (type : TypeUse) : List Use :=
  if type.list then [.type "List", .type type.name] else [.type type.name]

def Member.uses (m : Member) : List Use := m.type.uses ++ [.bound m.name]

/-- What the assignment of an argument uses. -/
def assignmentUses (m : Member) : List Use := if m.type.list then [.root "List"] else []

def comparisonUses : Member × Comparison → List Use
  | (_, .equality) => [.root "Objects", .root "other"]
  | (_, .order) => [.root "other"]

def EntityClass.uses (d : EntityClass) : List Use :=
  [.type "Getter", .type "SuperBuilder", .type "Setter", .root "AccessLevel",
    .type "EqualsAndHashCode", .type d.name, .type d.base, .type d.idClass] ++
  d.members.flatMap Member.uses ++
  .type "Override" :: .type d.serialClass :: usesIn d.serialExpression ++
  (d.members.filter fun m => m.type.list).flatMap fun _ => [.type "ArrayList"]

def ValueClass.uses (d : ValueClass) : List Use :=
  let members := d.members.map Prod.fst
  [.type "Getter", .type "EqualsAndHashCode", .type d.name, .type d.interface, .type d.name] ++
  members.flatMap Member.uses ++ members.flatMap Member.uses ++
  members.flatMap (fun _ => usesIn d.emptyCheck ++ .type d.exception :: usesIn d.resultCode) ++
  members.flatMap assignmentUses ++
  .type "Override" :: .type d.name :: .bound "other" :: d.members.flatMap comparisonUses

def EnumClass.uses (d : EnumClass) : List Use :=
  [.type "Getter", .type d.name, .type d.interface, .type d.name, .type "String",
    .bound "businessMeaning", .type "String", .bound "businessMeaning", .type "Override",
    .type d.name, .bound "other", .root "other"]

def Declaration.uses : Declaration → List Use
  | entity d => d.uses
  | value d => d.uses
  | enumeration d => d.uses

/-- Declarations whose fixed code is read on its own. -/
def Declaration.Settled : Declaration → Prop
  | entity d => Java.Settled d.serialExpression
  | value d => Java.Settled d.emptyCheck ∧ IsName d.exception ∧ Java.Settled d.resultCode
  | enumeration _ => True

/-! ### Members and headers -/

theorem Member.Readable.reads (h : m.Readable) :
    Reads .free (m.type.tokens ++ [.word m.name.toList]) m.uses .free := by
  have hlist : isNaming "List" = true := by decide
  have htype := isNaming_of_isName h.type
  have hname := isNaming_of_isName h.name
  unfold TypeUse.tokens Member.uses TypeUse.uses
  split <;> simp [Reads, Context.read, Context.uses, Context.next, hlist, htype, hname]

theorem Member.Readable.reads_argument (h : m.Readable) :
    Reads .free (textTokens (m.type.text ++ " " ++ m.name)) m.uses .free := by
  have hblank : textTokens " " = [] := textTokens_lit.trans (by decide)
  have hends : EndsApart (m.type.text ++ " ") := (EndsApart.lit (by decide)).append (by decide) _
  rw [textTokens_append_left hends, textTokens_append_right (.lit (by decide)), hblank,
    List.append_nil, textTokens_type h.type, h.name.textTokens]
  exact h.reads

theorem Member.Readable.reads_pieces (h : m.Readable) {modifiers : String}
    (hm : Reads .free (textTokens modifiers) [] .free) :
    Reads .free (tokensOf (m.pieces modifiers)) m.uses .free := by
  have hend : Reads .free [.symbol ';'] [] .free := rfl
  have hsplit : m.tokens (textTokens modifiers) =
      textTokens modifiers ++ (m.type.tokens ++ [.word m.name.toList] ++ [.symbol ';']) := by
    simp [Member.tokens]
  rw [h.tokensOf_pieces, hsplit]
  simpa using hm.append (h.reads.append hend)

theorem reads_members {members : List Member} (h : ∀ m ∈ members, m.Readable) {modifiers : String}
    (hm : Reads .free (textTokens modifiers) [] .free) :
    Reads .free (tokensOf (members.flatMap (Member.pieces modifiers)))
      (members.flatMap Member.uses) .free :=
  .flatMap_pieces fun m hmem => (h m hmem).reads_pieces hm

theorem reads_header {b i : String} (hn : IsName n) (hb : IsName b) (hi : IsName i)
    (hs : Opens c s [] .type) (ht : Parts .typed t [] .type) :
    Reads c (textTokens (s ++ n ++ t ++ b ++ "<" ++ i ++ "> \x7b"))
      [.type n, .type b, .type i] .free := by
  have hless : Parts .typed "<" [] .type := .lit (by decide) rfl
  have hopen : Closes .typed "> \x7b" [] .free := .lit (by decide) rfl
  exact ((hs.around (reads_name hn .type) ht).around (reads_name hb .type) hless).closed
    (reads_name hi .type) hopen

theorem reads_sameValueAs (h : IsName n) :
    Reads .typed (textTokens ("    public boolean sameValueAs(" ++ n ++ " other) \x7b"))
      [.type n, .bound "other"] .free := by
  have hpublic : Opens .typed "    public boolean sameValueAs(" [] .free := .lit (by decide) rfl
  have hother : Closes (.name n) " other) \x7b" [.type n, .bound "other"] .free :=
    .lit (by decide) rfl
  exact hpublic.closed (reads_name h .free) hother

/-! ### Entities -/

theorem reads_fillList (h : IsName m.name) :
    Reads .free (tokensOf (fillList m)) [.type "ArrayList"] .free := by
  have hthis : Opens .free "        if (this." [] .selected := .lit (by decide) rfl
  have hnull : Closes .free " == null) \x7b" [] .free := .lit (by decide) rfl
  have hthis' : Opens .free "            this." [] .selected := .lit (by decide) rfl
  have hnew : Closes .free " = new ArrayList<>();" [.type "ArrayList"] .free := .lit (by decide) rfl
  have hname := reads_name h .selected
  exact .line (hthis.closed hname hnull) (.line (hthis'.closed hname hnew)
    (.line (.lit rfl) (reads_nil _)))

theorem EntityClass.Readable.reads_tail {d : EntityClass} (h : d.Readable)
    (hs : Settled d.serialExpression) :
    Reads .free (tokensOf d.tail)
      (.type "Override" :: .type d.serialClass :: usesIn d.serialExpression ++
        (d.members.filter fun m => m.type.list).flatMap fun _ => [.type "ArrayList"]) .free := by
  have hthis : Opens .free "        this." [] .selected := .lit (by decide) rfl
  have hnew : Parts .free " = new " [] .type := .lit (by decide) rfl
  have hopen : Parts .typed "(" [] .free := .lit (by decide) rfl
  have hclose : Closes .free ");" [] .free := .lit (by decide) rfl
  have hassign := ((hthis.around (reads_name h.serialField .selected) hnew).around
    (reads_name h.serialClass .type) hopen).closed hs.reads hclose
  have hlines : Reads .free (tokensOf (lines ["    @Override", "    public void toNew() \x7b",
      "        super.toNew();",
      "        this." ++ d.serialField ++ " = new " ++ d.serialClass ++ "(" ++
        d.serialExpression ++ ");"]))
      (.type "Override" :: .type d.serialClass :: usesIn d.serialExpression) .free := by
    have hoverride : Reads .free (textTokens "    @Override") [.type "Override"] .typed := .lit rfl
    have hmethod : Reads .typed (textTokens "    public void toNew() \x7b") [] .free := .lit rfl
    have hsuper : Reads .free (textTokens "        super.toNew();") [] .free := .lit rfl
    exact (hoverride.line (hmethod.line (hsuper.line (hassign.line (reads_nil _))))).uses_eq
      (by simp)
  have hlists : Reads .free
      (tokensOf ((d.members.filter fun m => m.type.list).flatMap fillList))
      ((d.members.filter fun m => m.type.list).flatMap fun _ => [.type "ArrayList"]) .free :=
    .flatMap_pieces fun m hm => reads_fillList (h.members m (List.mem_of_mem_filter hm)).name
  have hend : Reads .free (tokensOf (lines ["    \x7d", "\x7d"])) [] .free :=
    .line (.lit rfl) (.line (.lit rfl) (reads_nil _))
  exact (Reads.doc (hlines.pieces (hlists.pieces hend))).uses_eq (by simp)

theorem EntityClass.Readable.reads {d : EntityClass} (h : d.Readable)
    (hs : Settled d.serialExpression) : Reads .free (tokensOf d.pieces) d.uses .free := by
  have hextends : Parts .typed " extends " [] .type := .lit (by decide) rfl
  have hgetter : Reads .free (textTokens "@Getter") [.type "Getter"] .typed := .lit rfl
  have hbuilder : Reads .typed (textTokens "@SuperBuilder") [.type "SuperBuilder"] .typed :=
    .lit rfl
  have hsetter : Reads .typed (textTokens "@Setter(AccessLevel.PRIVATE)")
      [.type "Setter", .root "AccessLevel"] .free := .lit rfl
  have hequals : Reads .free (textTokens "@EqualsAndHashCode(callSuper = true)")
      [.type "EqualsAndHashCode"] .free := .lit rfl
  have hheader := reads_header h.name h.base h.idClass (c := .free) (s := "public class ")
    (.lit (by decide) rfl) hextends
  have hprivate : Reads .free (textTokens "private") [] .free := .lit rfl
  have hmembers := reads_members h.members hprivate
  rw [d.pieces_eq]
  exact (hgetter.line (hbuilder.line (hsetter.line (hequals.line (hheader.line
    (hmembers.pieces (h.reads_tail hs))))))).uses_eq (by simp [EntityClass.uses])

/-! ### Value objects -/

theorem Member.Readable.reads_assignment (h : m.Readable) :
    Reads .free (textTokens (assignment m)) (assignmentUses m) .free := by
  have hthis : Opens .free "        this." [] .selected := .lit (by decide) rfl
  have hequals : Parts .free " = " [] .free := .lit (by decide) rfl
  have hassign := hthis.around (reads_name h.name .selected) hequals
  unfold assignment assignmentUses
  split
  · have hcopy : Opens .free "List.copyOf(" [.root "List"] .free := .lit (by decide) rfl
    have hclose : Closes (.name m.name) ")" [] .free := .lit (by decide) rfl
    exact hassign.closed (hcopy.closed (reads_name h.name .free) hclose)
      (.lit (by decide) rfl : Closes .free ";" [] .free)
  · exact hassign.closed (reads_name h.name .free)
      (.lit (by decide) rfl : Closes (.name m.name) ";" [] .free)

theorem Member.Readable.reads_comparison (h : m.Readable) (x : Comparison) :
    Reads .free (textTokens (comparisonText (m, x))) (comparisonUses (m, x)) .free := by
  have hname := reads_name h.name .selected
  cases x with
  | equality =>
    have hequals : Opens .free "Objects.equals(this." [.root "Objects"] .selected :=
      .lit (by decide) rfl
    have hother : Parts .free ", other." [.root "other"] .selected := .lit (by decide) rfl
    have hclose : Closes .free ")" [] .free := .lit (by decide) rfl
    exact (hequals.around hname hother).closed hname hclose
  | order =>
    have hthis : Opens .free "this." [] .selected := .lit (by decide) rfl
    have hother : Parts .free ".compareTo(other." [.root "other"] .selected := .lit (by decide) rfl
    have hclose : Closes .free ") == 0" [] .free := .lit (by decide) rfl
    exact (hthis.around hname hother).closed hname hclose

section ValueClass

variable {d : ValueClass}

theorem ValueClass.Readable.reads_constructor (h : d.Readable) :
    Reads .free (textTokens ("    public " ++ d.name ++ "(" ++ ", ".intercalate
      ((d.members.map Prod.fst).map fun m => m.type.text ++ " " ++ m.name) ++ ") \x7b"))
      ((d.members.map Prod.fst).flatMap Member.uses) .free := by
  have hpublic : Opens .free "    public " [] .free := .lit (by decide) rfl
  have hopen : Parts (.name d.name) "(" [] .free := .lit (by decide) rfl
  have hcomma : Parts .free ", " [] .free := .lit (by decide) rfl
  have hclose : Closes .free ") \x7b" [] .free := .lit (by decide) rfl
  have harguments : Reads .free (textTokens (", ".intercalate
      ((d.members.map Prod.fst).map fun m => m.type.text ++ " " ++ m.name)))
      ((d.members.map Prod.fst).flatMap Member.uses) .free := by
    refine hcomma.intercalate fun m hm => ?_
    obtain ⟨p, hp, rfl⟩ := List.mem_map.mp hm
    exact (h.members p hp).reads_argument
  simpa using (hpublic.around (reads_name h.name .free) hopen).closed harguments hclose

theorem ValueClass.reads_check (hs : (Declaration.value d).Settled) (hm : m.Readable) :
    Reads .free (tokensOf (d.checkPieces m))
      (usesIn d.emptyCheck ++ .type d.exception :: usesIn d.resultCode) .free := by
  obtain ⟨hcheck, hexception, hcode⟩ := hs
  have hif : Opens .free "        if (" [] .free := .lit (by decide) rfl
  have hopen : Parts .free "(" [] .free := .lit (by decide) rfl
  have hclose : Closes (.name m.name) ")) \x7b" [] .free := .lit (by decide) rfl
  have hthrow : Opens .free "            throw new " [] .type := .lit (by decide) rfl
  have hcall : Parts .typed "(" [] .free := .lit (by decide) rfl
  have hcomma : Closes .free ", " [] .free := .lit (by decide) rfl
  have hasking := (hif.around hcheck.reads hopen).closed (reads_name hm.name .free) hclose
  have hrefusing := (hthrow.around (reads_name hexception .type) hcall).closed hcode.reads hcomma
  have hmessage : Reads .free [.literal (literalChars (refusalText m).toList)] [] .free := rfl
  have hend : Reads .free (textTokens ");") [] .free := .lit rfl
  have hbrace : Reads .free (textTokens "        \x7d") [] .free := .lit rfl
  have hall := ((hasking.append hrefusing).append hmessage).append (hend.append hbrace)
  simp only [ValueClass.checkPieces, tokensOf_cons, tokensOf_nil, tokens_line]
  simpa [Piece.tokens] using hall

theorem ValueClass.Readable.reads_comparing (h : d.Readable) :
    Reads .free (textTokens ("        return " ++
      "\n                && ".intercalate (d.members.map comparisonText) ++ ";"))
      (d.members.flatMap comparisonUses) .free := by
  have hreturn : Opens .free "        return " [] .free := .lit (by decide) rfl
  have hand : Parts .free "\n                && " [] .free := .lit (by decide) rfl
  have hend : Closes .free ";" [] .free := .lit (by decide) rfl
  have hall := hand.intercalate fun p hp => (h.members p hp).reads_comparison p.2
  simpa using hreturn.closed hall hend

theorem ValueClass.Readable.reads_tail (h : d.Readable) (hs : (Declaration.value d).Settled) :
    Reads .free (tokensOf d.tail)
      ((d.members.map Prod.fst).flatMap Member.uses ++
        (d.members.map Prod.fst).flatMap (fun _ =>
          usesIn d.emptyCheck ++ .type d.exception :: usesIn d.resultCode) ++
        (d.members.map Prod.fst).flatMap assignmentUses ++
        .type "Override" :: .type d.name :: .bound "other" :: d.members.flatMap comparisonUses)
      .free := by
  have hmembers : ∀ m ∈ d.members.map Prod.fst, m.Readable := List.forall_mem_map.mpr h.members
  have hchecks := Reads.flatMap_pieces fun m hm => d.reads_check hs (hmembers m hm)
  have hassignments : Reads .free
      (tokensOf (lines ((d.members.map Prod.fst).map assignment ++ ["    \x7d"])))
      ((d.members.map Prod.fst).flatMap assignmentUses) .free := by
    have hclose : Reads .free (textTokens "    \x7d") [] .free := .lit rfl
    rw [tokensOf_lines, List.flatMap_append, List.flatMap_singleton, List.flatMap_map]
    simpa using (Reads.flatMap fun m hm => (hmembers m hm).reads_assignment).append hclose
  have hoverride : Reads .free (textTokens "    @Override") [.type "Override"] .typed := .lit rfl
  have hnull : Reads .free (textTokens "        if (other == null) \x7b") [] .free := .lit rfl
  have hfalse : Reads .free (textTokens "            return false;") [] .free := .lit rfl
  have hbrace : Reads .free (textTokens "        \x7d") [] .free := .lit rfl
  have hend : Reads .free (tokensOf (lines ["    \x7d", "\x7d"])) [] .free :=
    .line (.lit rfl) (.line (.lit rfl) (reads_nil _))
  have hcomparing := hoverride.line ((reads_sameValueAs h.name).line (hnull.line (hfalse.line
    (hbrace.line (h.reads_comparing.line hend)))))
  exact (Reads.doc (h.reads_constructor.line (hchecks.pieces (hassignments.pieces
    (Reads.doc hcomparing))))).uses_eq (by simp)

theorem ValueClass.Readable.reads (h : d.Readable) (hs : (Declaration.value d).Settled) :
    Reads .free (tokensOf d.pieces) d.uses .free := by
  have himplements : Parts .typed " implements " [] .type := .lit (by decide) rfl
  have hgetter : Reads .free (textTokens "@Getter") [.type "Getter"] .typed := .lit rfl
  have hequals :
      Reads .typed (textTokens "@EqualsAndHashCode") [.type "EqualsAndHashCode"] .typed := .lit rfl
  have hheader := reads_header h.name h.interface h.name (c := .typed) (s := "public class ")
    (.lit (by decide) rfl) himplements
  have hprivate : Reads .free (textTokens "private final") [] .free := .lit rfl
  have hmembers := reads_members (List.forall_mem_map.mpr h.members) hprivate
  rw [d.pieces_eq]
  exact (hgetter.line (hequals.line (hheader.line (hmembers.pieces (h.reads_tail hs))))).uses_eq
    (by simp [ValueClass.uses])

end ValueClass

/-! ### Enumerations -/

theorem reads_constantPieces {constants : List (String × String)}
    (h : ∀ c ∈ constants, IsName c.1) :
    Reads .free (tokensOf (constantPieces constants)) [] .free := by
  induction constants with
  | nil => exact reads_nil _
  | cons constant constants ih =>
    obtain ⟨hc, hconstants⟩ := List.forall_mem_cons.mp h
    have hconstant : Reads .free
        (constantTokens (if constants.isEmpty then ';' else ',') constant) [] .free := by
      have hname := isNaming_of_isName hc
      split <;> simp [Reads, constantTokens, Context.read, Context.uses, Context.next, hname]
    rw [tokensOf_constantPieces hc]
    exact hconstant.append (ih hconstants)

theorem EnumClass.Readable.reads {d : EnumClass} (h : d.Readable) :
    Reads .free (tokensOf d.pieces) d.uses .free := by
  have himplements : Parts .typed " implements " [] .type := .lit (by decide) rfl
  have hgetter : Reads .free (textTokens "@Getter") [.type "Getter"] .typed := .lit rfl
  have hheader := reads_header h.name h.interface h.name (c := .typed) (s := "public enum ")
    (.lit (by decide) rfl) himplements
  have hfield : Reads .free (textTokens "    private final String businessMeaning;")
      [.type "String", .bound "businessMeaning"] .free := .lit rfl
  have hblank : Reads .free (textTokens "") [] .free := .lit rfl
  have hindent : Opens .free "    " [] .free := .lit (by decide) rfl
  have hargument : Closes (.name d.name) "(String businessMeaning) \x7b"
      [.type "String", .bound "businessMeaning"] .free := .lit (by decide) rfl
  have hassign : Reads .free (textTokens "        this.businessMeaning = businessMeaning;") []
      .free := .lit rfl
  have hbrace : Reads .free (textTokens "    \x7d") [] .free := .lit rfl
  have hoverride : Reads .free (textTokens "    @Override") [.type "Override"] .typed := .lit rfl
  have hcompare : Reads .free
      (textTokens "        return other != null && this.name().equals(other.name());")
      [.root "other"] .free := .lit rfl
  have hend : Reads .free (textTokens "\x7d") [] .free := .lit rfl
  have hsame := reads_sameValueAs h.name
  have hconstructor := hindent.closed (reads_name h.name .free) hargument
  have hcomparing := hoverride.line (hsame.line (hcompare.line (hbrace.line
    (hend.line (reads_nil _)))))
  have hmeaning := hfield.line (hblank.line (hconstructor.line (hassign.line (hbrace.line
    (reads_nil _)))))
  rw [d.pieces_eq]
  exact (hgetter.line (hheader.line ((reads_constantPieces h.constants).pieces
    (Reads.doc (hmeaning.pieces (Reads.doc hcomparing)))))).uses_eq (by simp [EnumClass.uses])

/-! ### Texts of declarations -/

/-- A readable declaration uses what it lists. -/
theorem Declaration.Readable.reads {d : Declaration} (h : d.Readable) (hs : d.Settled) :
    Reads .free (tokensOf d.pieces) d.uses .free := by
  cases d with
  | entity d => exact EntityClass.Readable.reads h hs
  | value d => exact ValueClass.Readable.reads h hs
  | enumeration d => exact EnumClass.Readable.reads h

theorem File.typeNames_body {f : File} (hp : f.declaration.Plain) (h : f.declaration.Readable)
    (hs : f.declaration.Settled) : typeNames f.body = some (typesIn f.declaration.uses) := by
  rw [typeNames, body, lexemes_printPieces hp.sound, Option.map_some,
    tokens_flatMap f.declaration.allApart_pieces, ← tokensOf, h.reads hs]

theorem mem_typesIn : n ∈ typesIn us ↔ .type n ∈ us ∨ .root n ∈ us ∧ .bound n ∉ us := by
  rw [typesIn, List.mem_filterMap]
  constructor
  · rintro ⟨use, hmem, heq⟩
    cases use with
    | type s =>
      cases heq
      exact .inl hmem
    | root s =>
      dsimp only at heq
      split at heq
      · cases heq
      · next hbound =>
        cases heq
        exact .inr ⟨hmem, hbound⟩
    | bound s => cases heq
  · rintro (hmem | ⟨hmem, hbound⟩)
    · exact ⟨_, hmem, rfl⟩
    · exact ⟨_, hmem, if_neg hbound⟩

/-- What a property of type names asks of a use. -/
def Use.Meets (P : String → Prop) (us : List Use) : Use → Prop
  | type s => P s
  | root s => .bound s ∈ us ∨ P s
  | bound _ => True

theorem forall_mem_typesIn {P : String → Prop}
    (h : ∀ all, us ⊆ all → ∀ use ∈ us, use.Meets P all) : ∀ s ∈ typesIn us, P s := by
  intro s hs
  have hmeets := h us (List.Subset.refl us)
  rcases mem_typesIn.mp hs with hmem | ⟨hmem, hbound⟩
  · exact hmeets _ hmem
  · exact (hmeets _ hmem).resolve_left hbound

end DomainCodegen.Java
