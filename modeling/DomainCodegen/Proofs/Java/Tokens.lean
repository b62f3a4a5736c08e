import DomainCodegen.Name
import DomainCodegen.Proofs.Java.Plain

/-!
# Tokens

Code is cut into words, which are as long as possible, and single symbols; white space and comments
only keep words apart. Texts that meet at no word have the tokens of the one before the tokens of
the other (`textTokens_append_right`, `textTokens_append_left`), so that the tokens of a file are
those of its pieces (`tokens_flatMap`).
-/

namespace DomainCodegen.Java

inductive Token where
  | word (cs : List Char)
  | symbol (c : Char)
  | literal (body : List Char)
  deriving DecidableEq, Repr

def isSpace (c : Char) : Bool := c == ' ' || c == '\t' || c == '\n' || c == '\r' || c == '\x0c'

/-- A character that belongs to words. Outside ASCII code holds nothing but words. -/
def isWordPart (c : Char) : Bool := Name.isIdentifierPart c || decide (0x7f < c.toNat)

/-- The word that ends where something else starts, given its characters from the last one on. -/
def wordToken : List Char → List Token
  | [] => []
  | c :: r => [.word (c :: r).reverse]

/-- The tokens from a place on at which a word may stand open. -/
def tokensFrom (word : List Char) : List Lexeme → List Token
  | [] => wordToken word
  | .code c :: r =>
    if isWordPart c then tokensFrom (c :: word) r
    else if isSpace c then wordToken word ++ tokensFrom [] r
    else wordToken word ++ .symbol c :: tokensFrom [] r
  | .comment :: r => wordToken word ++ tokensFrom [] r
  | .literal body :: r => wordToken word ++ .literal body :: tokensFrom [] r

def tokens (all : List Lexeme) : List Token := tokensFrom [] all

/-- The characters of a token. -/
def Token.chars : Token → List Char
  | word cs => cs
  | symbol c => [c]
  | literal body => '"' :: body ++ ['"']

theorem word_ne {s t : String} (h : s ≠ t) : Token.word s.toList ≠ .word t.toList :=
  fun heq => h (String.toList_inj.mp (Token.word.inj heq))

theorem word_ne_symbol (cs : List Char) (c : Char) : Token.word cs ≠ .symbol c := by simp

variable {word cs : List Char} {all more : List Lexeme} {l : Lexeme} {s t n : String}
  {ps qs : List Piece} {p : Piece}

/-! ## Cuts -/

/-- A lexeme that no word goes on with. -/
def Lexeme.isApart : Lexeme → Bool
  | code c => !isWordPart c
  | _ => true

theorem tokensFrom_cons (h : l.isApart = true) :
    tokensFrom word (l :: all) = wordToken word ++ tokens (l :: all) := by
  cases l with
  | code c =>
    have hc : isWordPart c = false := by simpa [Lexeme.isApart] using h
    rw [tokens, tokensFrom, tokensFrom, hc, if_neg Bool.false_ne_true, if_neg Bool.false_ne_true]
    split <;> rfl
  | comment => rfl
  | literal body => rfl

theorem tokensFrom_append (h : ∀ l ∈ more.head?, l.isApart = true) :
    tokensFrom word (all ++ more) = tokensFrom word all ++ tokens more := by
  induction all generalizing word with
  | nil =>
    cases more with
    | nil => rw [List.nil_append, tokens, tokensFrom, tokensFrom, wordToken, List.append_nil]
    | cons l r => exact tokensFrom_cons (h l rfl)
  | cons l r ih =>
    rw [List.cons_append]
    cases l with
    | code c =>
      rw [tokensFrom, tokensFrom]
      split_ifs <;> simp [ih]
    | comment => rw [tokensFrom, tokensFrom, ih, List.append_assoc]
    | literal body => rw [tokensFrom, tokensFrom, ih, List.append_assoc, List.cons_append]

theorem tokens_append (h : ∀ l ∈ all.getLast?, l.isApart = true) :
    tokens (all ++ more) = tokens all ++ tokens more := by
  rcases List.eq_nil_or_concat all with rfl | ⟨init, l, rfl⟩
  · rfl
  · have hl : l.isApart = true := h l (by simp)
    have hlast : tokens (l :: more) = tokens [l] ++ tokens more := by
      cases l with
      | code c =>
        have hc : isWordPart c = false := by simpa [Lexeme.isApart] using hl
        simp only [tokens, tokensFrom, hc, Bool.false_eq_true, if_false]
        split <;> rfl
      | comment => rfl
      | literal body => rfl
    have hcut : ∀ r, tokens (init ++ l :: r) = tokens init ++ tokens (l :: r) := fun r =>
      tokensFrom_append (by simpa using hl)
    rw [List.concat_eq_append, List.append_assoc, List.singleton_append, hcut, hcut, hlast,
      List.append_assoc]

/-! ## Texts -/

/-- The tokens of code. -/
def textTokens (s : String) : List Token := tokens (s.toList.map .code)

theorem textTokens_lit : textTokens (String.ofList cs) = tokens (cs.map .code) := by
  rw [textTokens, String.toList_ofList]

/-- A text that cannot go on with a word. -/
def StartsApart (s : String) : Prop := ∃ c r, s.toList = c :: r ∧ isWordPart c = false

/-- A text whose last word, if it ends in one, would stop here. -/
def EndsApart (s : String) : Prop := ∀ c ∈ s.toList.getLast?, isWordPart c = false

theorem StartsApart.lit {c : Char} {r : List Char} (h : isWordPart c = false) :
    StartsApart (String.ofList (c :: r)) :=
  ⟨c, r, String.toList_ofList, h⟩

theorem EndsApart.lit (h : cs.getLast?.any isWordPart = false) : EndsApart (String.ofList cs) := by
  rw [EndsApart, String.toList_ofList]
  exact fun c hc => by simpa [Option.mem_def.mp hc] using h

theorem EndsApart.append (h : EndsApart t) (hne : t ≠ "") (s : String) : EndsApart (s ++ t) := by
  have hn : t.toList ≠ [] := by simpa using hne
  unfold EndsApart
  rwa [String.toList_append, List.getLast?_append_of_ne_nil _ hn]

theorem textTokens_append_right (h : StartsApart t) :
    textTokens (s ++ t) = textTokens s ++ textTokens t := by
  obtain ⟨c, r, ht, hc⟩ := h
  rw [textTokens, String.toList_append, List.map_append]
  refine tokensFrom_append ?_
  rw [ht]
  rintro l hl
  cases hl
  simpa [Lexeme.isApart] using hc

theorem textTokens_append_left (h : EndsApart s) :
    textTokens (s ++ t) = textTokens s ++ textTokens t := by
  rw [textTokens, String.toList_append, List.map_append]
  refine tokens_append fun l hl => ?_
  rw [List.getLast?_map, Option.mem_def, Option.map_eq_some_iff] at hl
  obtain ⟨c, hc, rfl⟩ := hl
  simpa [Lexeme.isApart] using h c hc

/-- A text that is kept apart from what stands around it. -/
theorem textTokens_between (hs : EndsApart s) (ht : StartsApart t) :
    textTokens (s ++ n ++ t) = textTokens s ++ textTokens n ++ textTokens t := by
  rw [textTokens_append_right ht, textTokens_append_left hs]

theorem tokensFrom_word (h : ∀ c ∈ cs, isWordPart c = true) :
    tokensFrom word (cs.map .code) = wordToken (cs.reverse ++ word) := by
  induction cs generalizing word with
  | nil => rfl
  | cons c cs ih =>
    obtain ⟨hc, hcs⟩ := List.forall_mem_cons.mp h
    rw [List.map_cons, tokensFrom, if_pos hc, ih hcs, List.reverse_cons, List.append_assoc]
    rfl

theorem wordToken_of_ne_nil (h : word ≠ []) : wordToken word = [.word word.reverse] := by
  cases word with
  | nil => exact absurd rfl h
  | cons c r => rfl

theorem textTokens_word (h : ∀ c ∈ s.toList, isWordPart c = true) (hne : s ≠ "") :
    textTokens s = [.word s.toList] := by
  have hn : s.toList.reverse ≠ [] := by simpa using hne
  rw [textTokens, tokens, tokensFrom_word h, List.append_nil, wordToken_of_ne_nil hn,
    List.reverse_reverse]

theorem isSpace_of_isWordPart {c : Char} (h : isWordPart c = true) : isSpace c = false := by
  refine Bool.eq_false_iff.mpr fun hs => ?_
  simp only [isSpace, Bool.or_eq_true, beq_iff_eq] at hs
  rcases hs with (((rfl | rfl) | rfl) | rfl) | rfl <;> revert h <;> decide

theorem flatMap_chars_wordToken (word : List Char) :
    (wordToken word).flatMap Token.chars = word.reverse := by
  cases word with
  | nil => rfl
  | cons c r => exact List.append_nil _

/-- The tokens of code hold its characters in their order, white space apart. -/
theorem flatMap_chars_tokensFrom (word cs : List Char) :
    (tokensFrom word (cs.map .code)).flatMap Token.chars =
      word.reverse ++ cs.filter fun c => !isSpace c := by
  induction cs generalizing word with
  | nil =>
    rw [List.map_nil, tokensFrom, flatMap_chars_wordToken, List.filter_nil, List.append_nil]
  | cons c cs ih =>
    rw [List.map_cons, tokensFrom]
    split_ifs with hword hspace
    · rw [ih, List.filter_cons_of_pos (by simp [isSpace_of_isWordPart hword]), List.reverse_cons,
        List.append_assoc]
      rfl
    · rw [List.flatMap_append, ih, flatMap_chars_wordToken,
        List.filter_cons_of_neg (by simp [hspace])]
      rfl
    · rw [List.flatMap_append, List.flatMap_cons, ih, flatMap_chars_wordToken,
        List.filter_cons_of_pos (by simp [hspace])]
      rfl

theorem flatMap_chars_textTokens (s : String) :
    (textTokens s).flatMap Token.chars = s.toList.filter fun c => !isSpace c :=
  flatMap_chars_tokensFrom [] s.toList

/-- A symbol among the tokens of code is a character of it. -/
theorem mem_of_symbol_mem {c : Char} (h : .symbol c ∈ textTokens s) : c ∈ s.toList := by
  have hc : c ∈ (textTokens s).flatMap Token.chars :=
    List.mem_flatMap.mpr ⟨_, h, List.mem_singleton_self c⟩
  rw [flatMap_chars_textTokens] at hc
  exact List.mem_of_mem_filter hc

/-! ## Pieces -/

def Piece.tokens : Piece → List Token
  | code text => textTokens text
  | lineComment _ => []
  | doc indent _ => textTokens indent
  | literal value => [.literal (literalChars value.toList)]

/-- A piece whose code ends where a word would end. -/
def Piece.Apart : Piece → Prop
  | code text => EndsApart text
  | _ => True

theorem Piece.Apart.tokens_append (h : p.Apart) :
    Java.tokens (p.lexemes ++ more) = p.tokens ++ Java.tokens more := by
  cases p with
  | code text =>
    refine Java.tokens_append fun l hl => ?_
    rw [Piece.lexemes, List.getLast?_map, Option.mem_def, Option.map_eq_some_iff] at hl
    obtain ⟨c, hc, rfl⟩ := hl
    simpa [Lexeme.isApart] using h c hc
  | lineComment text => rfl
  | doc indent lines =>
    rw [Piece.lexemes, List.append_assoc]
    refine (tokensFrom_append ?_).trans rfl
    rintro l hl
    cases hl
    rfl
  | literal value => rfl

/-- The tokens of a file are those of its pieces. -/
theorem tokens_flatMap (h : ∀ p ∈ ps, p.Apart) :
    tokens (ps.flatMap Piece.lexemes) = ps.flatMap Piece.tokens := by
  induction ps with
  | nil => rfl
  | cons p ps ih =>
    obtain ⟨hp, hps⟩ := List.forall_mem_cons.mp h
    rw [List.flatMap_cons, hp.tokens_append, ih hps, List.flatMap_cons]

end DomainCodegen.Java
