import DomainCodegen.Proofs.Java.Tokens

/-!
# Outlines

What a Java file declares can be read from its tokens: its package, the name of its type, the
private fields with their types, and the constants of an enumeration with their arguments. The
argument of a constant is read as the text that it was printed from (`unescape_literalChars`), and
code that is calm has nothing to add, since nothing in it is private.
-/

namespace DomainCodegen.Java

/-! ## Reading -/

structure Outline where
  package : String
  name : String
  fields : List (TypeUse × String)
  constants : List (String × String)
  deriving DecidableEq, Repr

/-- The character that an escape sequence stands for. -/
def escapeValue : Char → Option Char
  | 'b' => some '\x08'
  | 't' => some '\t'
  | 'n' => some '\n'
  | 'f' => some '\x0c'
  | 'r' => some '\r'
  | 's' => some ' '
  | '"' => some '"'
  | '\x27' => some '\x27'
  | '\\' => some '\\'
  | _ => none

/-- The text that stands between the quotes of a literal. -/
def unescape : List Char → Option (List Char)
  | [] => some []
  | '\\' :: c :: r => (escapeValue c).bind fun d => (unescape r).map (d :: ·)
  | '\\' :: [] => none
  | c :: r => (unescape r).map (c :: ·)

/-- The tokens behind the first symbol of a kind. -/
def dropThrough (c : Char) (ts : List Token) : List Token := (ts.dropWhile (· ≠ .symbol c)).drop 1

/-- The tokens behind the imports; the flag says whether an import is open. -/
def skipImports : Bool → List Token → List Token
  | _, [] => []
  | true, t :: r => skipImports (t ≠ .symbol ';') r
  | false, t :: r => if t = .word "import".toList then skipImports true r else t :: r

def isDeclaring (t : Token) : Bool := t = .word "class".toList || t = .word "enum".toList

def skipFinal : List Token → List Token
  | [] => []
  | t :: r => if t = .word "final".toList then r else t :: r

/-- A type, or a list of a type, with the name of a field and a semicolon. -/
def fieldOf : List Token → Option (TypeUse × String)
  | .word type :: .word name :: .symbol ';' :: _ =>
    some ({ name := String.ofList type }, String.ofList name)
  | .word list :: .symbol '<' :: .word type :: .symbol '>' :: .word name :: .symbol ';' :: _ =>
    if list = "List".toList then
      some ({ name := String.ofList type, list := true }, String.ofList name)
    else none
  | _ => none

/-- The private fields among tokens. It is an error if something else is private. -/
def readFields : List Token → Option (List (TypeUse × String))
  | [] => some []
  | t :: r =>
    if t = .word "private".toList then
      (fieldOf (skipFinal r)).bind fun field => (readFields r).map (field :: ·)
    else readFields r

/-- The constants at the start of the body of an enumeration, up to a semicolon. -/
def readConstants : List Token → Option (List (String × String))
  | .word name :: .symbol '(' :: .literal body :: .symbol ')' :: .symbol c :: r =>
    (unescape body).bind fun value =>
      let constant := (String.ofList name, String.ofList value)
      if c = ';' then some [constant]
      else if c = ',' then (readConstants r).map (constant :: ·)
      else none
  | _ => none

/-- The type that is declared first, in a package. -/
def readType (package : String) : List Token → Option Outline
  | .word keyword :: .word name :: r =>
    let body := dropThrough '\x7b' r
    let constants := if keyword = "enum".toList then readConstants body else some []
    constants.bind fun constants => (readFields body).map fun fields =>
      { package, name := String.ofList name, fields, constants }
  | _ => none

def readTokens : List Token → Option Outline
  | [] => none
  | t :: r =>
    if t = .word "package".toList then
      let package := (r.takeWhile (· ≠ .symbol ';')).flatMap Token.chars
      readType (String.ofList package)
        ((skipImports false (dropThrough ';' r)).dropWhile fun t => !isDeclaring t)
    else none

/-- What a text declares. -/
def outline (text : String) : Option Outline :=
  (lexemes text).bind fun all => readTokens (tokens all)

/-- What a declaration declares. -/
def Declaration.outline (package : String) : Declaration → Outline
  | entity d => ⟨package, d.name, d.members.map fun m => (m.type, m.name), []⟩
  | value d => ⟨package, d.name, d.members.map fun p => (p.1.type, p.1.name), []⟩
  | enumeration d => ⟨package, d.name, [({ name := "String" }, "businessMeaning")], d.constants⟩

def File.outline (f : File) : Outline := f.declaration.outline f.package

/-! ## Literals -/

theorem unescape_cons {c : Char} {r : List Char} (h : c ≠ '\\') :
    unescape (c :: r) = (unescape r).map (c :: ·) := by
  rw [unescape]
  · exact fun d rest hc => absurd hc h
  · exact fun hc => absurd hc h

theorem unescape_literalChar (c : Char) (r : List Char) :
    unescape (literalChar c ++ r) = (unescape r).map (c :: ·) := by
  unfold literalChar
  split_ifs with hescape hfeed hreturn
  · rcases hescape with rfl | rfl <;> rfl
  · rw [hfeed]
    rfl
  · rw [hreturn]
    rfl
  · exact unescape_cons (not_or.mp hescape).1

/-- A literal has the value that it was printed from. -/
theorem unescape_literalChars (cs : List Char) : unescape (literalChars cs) = some cs := by
  induction cs with
  | nil => rfl
  | cons c cs ih =>
    rw [literalChars, List.flatMap_cons, unescape_literalChar, ← literalChars, ih]
    rfl

/-! ## Names -/

/-- A text that is one word of code and not a reserved one. -/
structure IsName (s : String) : Prop where
  identifier : Name.isIdentifier s = true
  parts : ∀ c ∈ s.toList, Name.isIdentifierPart c = true

variable {s t n w : String} {ts more : List Token} {ps qs : List Piece} {p : Piece} {m : Member}
  {f : File}

theorem IsName.ne_empty (h : IsName s) : s ≠ "" := by
  rintro rfl
  have := h.identifier
  revert this
  decide

theorem IsName.textTokens (h : IsName s) : textTokens s = [.word s.toList] :=
  textTokens_word (fun c hc => by rw [isWordPart, h.parts c hc, Bool.true_or]) h.ne_empty

theorem IsName.word_ne (h : IsName s) (hw : w ∈ Name.reservedWords) :
    Token.word s.toList ≠ .word w.toList := by
  refine Java.word_ne ?_
  rintro rfl
  have hfree := (Bool.and_eq_true_iff.mp h.identifier).2
  rw [List.contains_iff_mem.mpr hw] at hfree
  cases hfree

/-! ## Calm code -/

/-- Code in which nothing is private. -/
def Calm (s : String) : Prop := .word "private".toList ∉ textTokens s

theorem toList_private : "private".toList = ['p', 'r', 'i', 'v', 'a', 't', 'e'] := by decide

theorem Calm.lit {cs : List Char}
    (h : .word ['p', 'r', 'i', 'v', 'a', 't', 'e'] ∉ tokens (cs.map .code)) :
    Calm (String.ofList cs) := by
  rwa [Calm, textTokens_lit, toList_private]

theorem calm_empty : Calm "" := @Calm.lit [] (by decide)

theorem IsName.calm (h : IsName s) : Calm s := by
  rw [Calm, h.textTokens, List.mem_singleton]
  exact (h.word_ne (by simp [Name.reservedWords])).symm

/-- Calm code that a name may follow. -/
structure Leads (s : String) : Prop where
  ends : EndsApart s
  calm : Calm s

/-- Calm code that may follow a name. -/
structure Trails (s : String) : Prop where
  starts : StartsApart s
  calm : Calm s

/-- Calm code that keeps names apart on both sides. -/
structure Apart (s : String) : Prop extends Leads s, Trails s

theorem Leads.lit {cs : List Char}
    (h : cs.getLast?.any isWordPart = false ∧
      .word ['p', 'r', 'i', 'v', 'a', 't', 'e'] ∉ tokens (cs.map .code)) :
    Leads (String.ofList cs) :=
  ⟨.lit h.1, .lit h.2⟩

theorem Trails.lit {c : Char} {r : List Char}
    (h : isWordPart c = false ∧
      .word ['p', 'r', 'i', 'v', 'a', 't', 'e'] ∉ tokens ((c :: r).map .code)) :
    Trails (String.ofList (c :: r)) :=
  ⟨.lit h.1, .lit h.2⟩

theorem Apart.lit {c : Char} {r : List Char}
    (h : isWordPart c = false ∧ (c :: r).getLast?.any isWordPart = false ∧
      .word ['p', 'r', 'i', 'v', 'a', 't', 'e'] ∉ tokens ((c :: r).map .code)) :
    Apart (String.ofList (c :: r)) where
  toLeads := .lit h.2
  starts := .lit h.1

theorem Trails.ne_empty (h : Trails s) : s ≠ "" := by
  rintro rfl
  obtain ⟨c, r, hc, -⟩ := h.starts
  cases hc

theorem Leads.closed (hs : Leads s) (hn : Calm n) (ht : Trails t) : Calm (s ++ n ++ t) := by
  unfold Calm
  rw [textTokens_between hs.ends ht.starts, List.mem_append, List.mem_append, not_or, not_or]
  exact ⟨⟨hs.calm, hn⟩, ht.calm⟩

theorem Leads.around (hs : Leads s) (hn : Calm n) (ht : Apart t) : Leads (s ++ n ++ t) where
  ends := ht.ends.append ht.ne_empty _
  calm := hs.closed hn ht.toTrails

theorem Apart.joins (hs : Apart s) (ht : Calm t) (hn : Calm n) : Calm (t ++ s ++ n) := by
  have hends : EndsApart (t ++ s) := hs.ends.append hs.ne_empty t
  unfold Calm
  rw [textTokens_append_left hends, textTokens_append_right hs.starts, List.mem_append,
    List.mem_append, not_or, not_or]
  exact ⟨⟨ht, hs.toLeads.calm⟩, hn⟩

theorem Apart.intercalate {texts : List String} (hs : Apart s) (h : ∀ t ∈ texts, Calm t) :
    Calm (s.intercalate texts) := by
  induction texts with
  | nil => exact calm_empty
  | cons t texts ih =>
    obtain ⟨ht, htexts⟩ := List.forall_mem_cons.mp h
    cases texts with
    | nil => rwa [String.intercalate_singleton]
    | cons u texts =>
      rw [String.intercalate_cons_cons]
      exact hs.joins ht (ih htexts)

/-! ## The tokens of pieces -/

def tokensOf (ps : List Piece) : List Token := ps.flatMap Piece.tokens

theorem tokensOf_nil : tokensOf [] = [] := rfl

theorem tokensOf_cons : tokensOf (p :: ps) = p.tokens ++ tokensOf ps := List.flatMap_cons

theorem tokensOf_append : tokensOf (ps ++ qs) = tokensOf ps ++ tokensOf qs := List.flatMap_append

theorem tokensOf_flatMap {α : Type} (all : List α) (g : α → List Piece) :
    tokensOf (all.flatMap g) = all.flatMap fun a => tokensOf (g a) :=
  List.flatMap_assoc

theorem tokens_line : (line s).tokens = textTokens s := by
  have hbreak : textTokens "\n" = [] := textTokens_lit.trans (by decide)
  rw [line, Piece.tokens, textTokens_append_right (.lit (by decide)), hbreak, List.append_nil]

theorem tokensOf_lines (texts : List String) :
    tokensOf (lines texts) = texts.flatMap textTokens := by
  rw [tokensOf, lines, List.flatMap_map]
  exact List.flatMap_congr fun s _ => tokens_line

theorem tokensOf_partDoc (all : List DocLine) : tokensOf (partDoc all) = [] := by
  have hblank : textTokens "" = [] := textTokens_lit.trans rfl
  have hindent : textTokens "    " = [] := textTokens_lit.trans (by decide)
  rw [partDoc, tokensOf_cons, tokensOf_cons, tokens_line, hblank, Piece.tokens, hindent]
  rfl

/-- Tokens among which nothing is private. -/
def AllCalm (ts : List Token) : Prop := .word "private".toList ∉ ts

theorem allCalm_nil : AllCalm [] := List.not_mem_nil

theorem allCalm_append : AllCalm (ts ++ more) ↔ AllCalm ts ∧ AllCalm more := by
  rw [AllCalm, List.mem_append, not_or]
  rfl

theorem allCalm_lines {texts : List String} (h : ∀ s ∈ texts, Calm s) :
    AllCalm (tokensOf (lines texts)) := by
  rw [tokensOf_lines]
  intro hm
  obtain ⟨s, hs, hm⟩ := List.mem_flatMap.mp hm
  exact h s hs hm

theorem allCalm_flatMap {α : Type} {all : List α} {g : α → List Piece}
    (h : ∀ a ∈ all, AllCalm (tokensOf (g a))) : AllCalm (tokensOf (all.flatMap g)) := by
  rw [tokensOf_flatMap]
  intro hm
  obtain ⟨a, ha, hm⟩ := List.mem_flatMap.mp hm
  exact h a ha hm

end DomainCodegen.Java
