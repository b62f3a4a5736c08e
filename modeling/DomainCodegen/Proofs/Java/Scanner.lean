import DomainCodegen.Java.Source
import Mathlib.Data.List.Chain

/-!
# Scanning Java source

A scanner cuts a Java text into code, comments and string literals, one character at a time. Free
text cannot leave the place where a file holds it: a text that is brought onto a Javadoc line has no
comment end, and an escaped text has no quote that would close its literal. So a printed file whose
code is quiet is scanned into exactly the pieces that it was printed from (`lexemes_printPieces`).
-/

namespace DomainCodegen.Java

/-! ## The scanner -/

/-- What a text is made of: characters of code, comments, and literals with what stands between
their quotes. -/
inductive Lexeme where
  | code (c : Char)
  | comment
  | literal (body : List Char)
  deriving DecidableEq, Repr

/-- Where a scan stands in a text. -/
inductive Region where
  | code
  /-- Behind a slash, which may open a comment. -/
  | slash
  | lineComment
  /-- In a block comment, and whether the last character was a star that may close it. -/
  | blockComment (star : Bool)
  /-- In a literal, with its body so far, last character first. -/
  | literal (body : List Char)
  /-- Behind a backslash in a literal. -/
  | escape (body : List Char)
  deriving DecidableEq, Repr

def isLineBreak (c : Char) : Bool := c == '\n' || c == '\r'

/-- Scans a text from a region on. An open literal or block comment is an error, and so is a line
break in a literal. The break behind a line comment is code. -/
def scan : Region → List Char → Option (List Lexeme)
  | .code, [] => some []
  | .slash, [] => some [.code '/']
  | .lineComment, [] => some [.comment]
  | _, [] => none
  | .code, c :: r =>
    if c = '"' then scan (.literal []) r
    else if c = '/' then scan .slash r
    else (scan .code r).map (.code c :: ·)
  | .slash, c :: r =>
    if c = '/' then scan .lineComment r
    else if c = '*' then scan (.blockComment false) r
    else if c = '"' then (scan (.literal []) r).map (.code '/' :: ·)
    else (scan .code r).map (.code '/' :: .code c :: ·)
  | .lineComment, c :: r =>
    if isLineBreak c then (scan .code r).map (.comment :: .code c :: ·) else scan .lineComment r
  | .blockComment star, c :: r =>
    if star && c == '/' then (scan .code r).map (.comment :: ·)
    else scan (.blockComment (c == '*')) r
  | .literal body, c :: r =>
    if isLineBreak c then none
    else if c = '"' then (scan .code r).map (.literal body.reverse :: ·)
    else if c = '\\' then scan (.escape body) r
    else scan (.literal (c :: body)) r
  | .escape body, c :: r => if isLineBreak c then none else scan (.literal (c :: '\\' :: body)) r

/-- A text as lexemes. -/
def lexemes (text : String) : Option (List Lexeme) := scan .code text.toList

/-- What is left of a lexeme when comments and the contents of literals are deleted. -/
def Lexeme.residue : Lexeme → List Char
  | code c => [c]
  | comment => []
  | literal _ => ['"', '"']

/-- A text without its comments and the contents of its literals. -/
def skeleton (text : String) : Option (List Char) :=
  (lexemes text).map fun all => all.flatMap Lexeme.residue

/-- A comment opens behind its second character, and ends at the first star with a slash. -/
example : skeleton "a /*/ b */ c // \"d\n\"e\\\"//\";" = some "a  c \n\"\";".toList := by decide

example : skeleton "\"a\nb\"" = none := by decide

/-! ## Code -/

/-- Code that opens neither a literal nor a comment. -/
def Quiet (s : String) : Prop := ∀ c ∈ s.toList, c ≠ '"' ∧ c ≠ '/'

variable {s t : String} {cs r : List Char} {p : Piece} {ps qs : List Piece}

/-- A text that is written out is decided on its characters. -/
theorem Quiet.lit (h : (cs.all fun c => c ≠ '"' ∧ c ≠ '/') = true) : Quiet (String.ofList cs) := by
  rw [Quiet, String.toList_ofList]
  exact fun c hc => of_decide_eq_true (List.all_eq_true.mp h c hc)

@[simp] theorem quiet_append : Quiet (s ++ t) ↔ Quiet s ∧ Quiet t := by
  unfold Quiet
  rw [String.toList_append, List.forall_mem_append]

theorem quiet_intercalate {texts : List String} (hs : Quiet s) (h : ∀ t ∈ texts, Quiet t) :
    Quiet (s.intercalate texts) := by
  induction texts with
  | nil => exact nofun
  | cons t texts ih =>
    obtain ⟨ht, htexts⟩ := List.forall_mem_cons.mp h
    cases texts with
    | nil => rwa [String.intercalate_singleton]
    | cons u texts =>
      rw [String.intercalate_cons_cons, quiet_append, quiet_append]
      exact ⟨⟨ht, hs⟩, ih htexts⟩

theorem scan_code (h : ∀ c ∈ cs, c ≠ '"' ∧ c ≠ '/') :
    scan .code (cs ++ r) = (scan .code r).map (cs.map .code ++ ·) := by
  induction cs with
  | nil => simp
  | cons c cs ih =>
    obtain ⟨⟨hquote, hslash⟩, hcs⟩ := List.forall_mem_cons.mp h
    rw [List.cons_append, scan, if_neg hquote, if_neg hslash, ih hcs, Option.map_map]
    rfl

/-! ## Comments -/

/-- A text without line breaks. -/
def OneLine (s : String) : Prop := ∀ c ∈ s.toList, isLineBreak c = false

theorem OneLine.lit (h : (cs.any isLineBreak) = false) : OneLine (String.ofList cs) := by
  rw [OneLine, String.toList_ofList]
  exact fun c hc => Bool.eq_false_iff.mpr (List.any_eq_false.mp h c hc)

theorem scan_lineComment (h : ∀ c ∈ cs, isLineBreak c = false) :
    scan .lineComment (cs ++ '\n' :: r) =
      (scan .code r).map ([.comment, .code '\n'] ++ ·) := by
  induction cs with
  | nil => rfl
  | cons c cs ih =>
    obtain ⟨hc, hcs⟩ := List.forall_mem_cons.mp h
    rw [List.cons_append, scan, hc, if_neg Bool.false_ne_true, ih hcs]

/-- No star with a slash behind it, which would end a block comment. -/
def NoCommentEnd (cs : List Char) : Prop := cs.IsChain fun c d => ¬ (c = '*' ∧ d = '/')

instance (cs : List Char) : Decidable (NoCommentEnd cs) :=
  inferInstanceAs (Decidable (cs.IsChain _))

theorem noCommentEnd_of_forall (h : ∀ c ∈ cs, c ≠ '/') : NoCommentEnd cs := by
  induction cs with
  | nil => exact .nil
  | cons c cs ih =>
    obtain ⟨-, hcs⟩ := List.forall_mem_cons.mp h
    exact List.isChain_cons.mpr ⟨fun d hd hend => hcs d (List.mem_of_head? hd) hend.2, ih hcs⟩

theorem Quiet.noCommentEnd (h : Quiet s) : NoCommentEnd s.toList :=
  noCommentEnd_of_forall fun c hc => (h c hc).2

/-- Behind a blank a text cannot complete a comment end. -/
theorem noCommentEnd_append_blank :
    NoCommentEnd (cs ++ ' ' :: r) ↔ NoCommentEnd cs ∧ NoCommentEnd r := by
  unfold NoCommentEnd
  rw [List.isChain_append, List.isChain_cons]
  simp

theorem scan_commentLine {star : Bool} (h : NoCommentEnd cs)
    (hstar : star = true → cs.head? ≠ some '/') :
    scan (.blockComment star) (cs ++ '\n' :: r) = scan (.blockComment false) r := by
  induction cs generalizing star with
  | nil =>
    rw [List.nil_append, scan, show ('\n' == '/') = false from rfl, Bool.and_false,
      if_neg Bool.false_ne_true]
    rfl
  | cons c cs ih =>
    have hopen : (star && c == '/') = false := by
      cases star with
      | false => rfl
      | true => simpa using hstar rfl
    obtain ⟨hnext, hcs⟩ := List.isChain_cons.mp h
    rw [List.cons_append, scan, hopen, if_neg Bool.false_ne_true]
    exact ih hcs fun hc hd => hnext '/' hd ⟨eq_of_beq hc, rfl⟩

/-- A line of a block comment. -/
theorem scan_docLine (h : NoCommentEnd cs) :
    scan (.blockComment false) (cs ++ '\n' :: r) = scan (.blockComment false) r :=
  scan_commentLine h fun hstar => absurd hstar Bool.false_ne_true

theorem scan_commentEnd (h : ∀ c ∈ cs, c ≠ '/') {star : Bool} :
    scan (.blockComment star) (cs ++ '*' :: '/' :: r) = (scan .code r).map (.comment :: ·) := by
  induction cs generalizing star with
  | nil =>
    rw [List.nil_append, scan, show ('*' == '/') = false from rfl, Bool.and_false,
      if_neg Bool.false_ne_true]
    rfl
  | cons c cs ih =>
    obtain ⟨hc, hcs⟩ := List.forall_mem_cons.mp h
    rw [List.cons_append, scan, beq_eq_false_iff_ne.mpr hc, Bool.and_false,
      if_neg Bool.false_ne_true]
    exact ih hcs

/-- The first character stays, and no slash comes to stand behind a star. -/
theorem withoutCommentEnds_chain (cs : List Char) :
    (withoutCommentEnds cs).head? = cs.head? ∧ NoCommentEnd (withoutCommentEnds cs) := by
  fun_induction withoutCommentEnds cs with
  | case1 => exact ⟨rfl, .nil⟩
  | case2 r ih =>
    refine ⟨rfl, List.isChain_append.mpr ⟨by decide, ih.2, ?_⟩⟩
    rintro c hc d - ⟨rfl, -⟩
    cases hc
  | case3 c r hend ih =>
    refine ⟨rfl, List.isChain_cons.mpr ⟨?_, ih.2⟩⟩
    rintro d hd ⟨rfl, rfl⟩
    rw [ih.1, Option.mem_def, List.head?_eq_some_iff] at hd
    obtain ⟨rest, rfl⟩ := hd
    exact hend rest rfl rfl

theorem noCommentEnd_javadoc (s : String) : NoCommentEnd (javadoc s).toList := by
  rw [javadoc, String.toList_ofList]
  exact (withoutCommentEnds_chain _).2

/-! ## Literals -/

theorem scan_literalChar (body : List Char) (c : Char) :
    scan (.literal body) (literalChar c ++ r) =
      scan (.literal ((literalChar c).reverse ++ body)) r := by
  unfold literalChar
  split_ifs with hescape hfeed hreturn
  · rcases hescape with rfl | rfl <;> rfl
  · rfl
  · rfl
  · obtain ⟨hslash, hquote⟩ := not_or.mp hescape
    have hbreak : isLineBreak c = false := by simp [isLineBreak, hfeed, hreturn]
    show scan (.literal body) (c :: r) = _
    rw [scan, hbreak, if_neg Bool.false_ne_true, if_neg hquote, if_neg hslash]
    rfl

/-- An escaped text leaves its literal open. -/
theorem scan_literal (body cs : List Char) :
    scan (.literal body) (literalChars cs ++ '"' :: r) =
      (scan .code r).map (.literal (body.reverse ++ literalChars cs) :: ·) := by
  induction cs generalizing body with
  | nil =>
    rw [literalChars, List.flatMap_nil, List.append_nil]
    rfl
  | cons c cs ih =>
    rw [literalChars, List.flatMap_cons, List.append_assoc, scan_literalChar]
    exact (ih _).trans (by rw [List.reverse_append, List.reverse_reverse, List.append_assoc]; rfl)

/-! ## Pieces -/

/-- A line of Javadoc that does not end its comment. -/
def DocLine.Safe : DocLine → Prop
  | words text => NoCommentEnd text.toList
  | bare => True

theorem DocLine.Safe.lit (h : NoCommentEnd cs) : (DocLine.words (String.ofList cs)).Safe := by
  rwa [Safe, String.toList_ofList]

/-- A piece that is scanned as what it is: its code is quiet, and its comments do not end early. The
value of a literal is any text. -/
def Piece.Sound : Piece → Prop
  | code text => Quiet text
  | lineComment text => OneLine text
  | doc indent lines => Quiet indent ∧ ∀ line ∈ lines, line.Safe
  | literal _ => True

def Piece.lexemes : Piece → List Lexeme
  | code text => text.toList.map .code
  | lineComment _ => [.comment, .code '\n']
  | doc indent _ => indent.toList.map .code ++ [.comment, .code '\n']
  | literal value => [.literal (literalChars value.toList)]

theorem DocLine.Safe.toList_text {indent : String} {line : DocLine} (h : line.Safe)
    (hi : Quiet indent) : ∃ cs, NoCommentEnd cs ∧ (line.text indent).toList = cs ++ ['\n'] := by
  have hstar : NoCommentEnd (indent.toList ++ ' ' :: ['*']) :=
    noCommentEnd_append_blank.mpr ⟨hi.noCommentEnd, by decide⟩
  cases line with
  | bare => exact ⟨_, hstar, by simp [DocLine.text]⟩
  | words text => exact ⟨_, noCommentEnd_append_blank.mpr ⟨hstar, h⟩, by simp [DocLine.text]⟩

theorem scan_docLines {indent : String} {lines : List DocLine} (hi : Quiet indent)
    (h : ∀ line ∈ lines, line.Safe) :
    scan (.blockComment false) ((String.join (lines.map (DocLine.text indent))).toList ++ r) =
      scan (.blockComment false) r := by
  induction lines with
  | nil => rfl
  | cons line lines ih =>
    obtain ⟨hline, hlines⟩ := List.forall_mem_cons.mp h
    obtain ⟨cs, hcs, htext⟩ := hline.toList_text hi
    rw [List.map_cons, String.join_cons, String.toList_append, htext, List.append_assoc,
      List.append_assoc]
    exact (scan_docLine hcs).trans (ih hlines)

/-- A sound piece is scanned as what it is, whatever stands behind it. -/
theorem Piece.Sound.scan (h : p.Sound) :
    Java.scan .code (p.text.toList ++ r) = (Java.scan .code r).map (p.lexemes ++ ·) := by
  cases p with
  | code text => exact scan_code h
  | lineComment text =>
    have htext : (Piece.lineComment text).text.toList =
        '/' :: '/' :: (' ' :: text.toList ++ ['\n']) := by
      simp [Piece.text]
    have hall : ∀ c ∈ ' ' :: text.toList, isLineBreak c = false :=
      List.forall_mem_cons.mpr ⟨rfl, h⟩
    rw [htext, List.cons_append, List.cons_append, List.append_assoc]
    exact scan_lineComment hall
  | doc indent lines =>
    have htext : (Piece.doc indent lines).text.toList ++ r =
        indent.toList ++ "/*".toList ++ (['*'] ++ '\n' ::
          ((String.join (lines.map (DocLine.text indent))).toList ++
            ((indent ++ " ").toList ++ '*' :: '/' :: '\n' :: r))) := by
      simp [Piece.text]
    have hend : ∀ c ∈ (indent ++ " ").toList, c ≠ '/' :=
      fun c hc => (quiet_append.mpr ⟨h.1, .lit (by decide)⟩ c hc).2
    have hopen : ∀ cs, Java.scan .code ("/*".toList ++ cs) = Java.scan (.blockComment false) cs :=
      fun cs => rfl
    rw [htext, List.append_assoc, scan_code h.1, hopen, scan_docLine (by decide),
      scan_docLines h.1 h.2, scan_commentEnd hend, Option.map_map]
    show (((Java.scan .code r).map (.code '\n' :: ·)).map _) = _
    rw [Option.map_map, Piece.lexemes]
    simp only [List.append_assoc]
    rfl
  | literal value =>
    have htext : (Piece.literal value).text.toList =
        '"' :: (literalChars value.toList ++ ['"']) := by
      simp [Piece.text, literalBody]
    rw [htext, List.cons_append, List.append_assoc]
    exact scan_literal [] value.toList

/-- Sound pieces are scanned as what they are. -/
theorem lexemes_printPieces (h : ∀ p ∈ ps, p.Sound) :
    lexemes (printPieces ps) = some (ps.flatMap Piece.lexemes) := by
  unfold lexemes printPieces
  induction ps with
  | nil => rfl
  | cons p ps ih =>
    obtain ⟨hp, hps⟩ := List.forall_mem_cons.mp h
    rw [List.map_cons, String.join_cons, String.toList_append, hp.scan, ih hps]
    rfl

end DomainCodegen.Java
