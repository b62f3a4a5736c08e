import DomainCodegen.Proofs.Java.Outline

/-!
# Readable files

A file is readable when its names are names and the rest of its code keeps them apart. This says how
the parts of such a file are read: its imports are skipped, its members are read one by one up to
calm code (`readFields_members`), and a type is read from its header and its body
(`Declares.readTokens`).
-/

namespace DomainCodegen.Java

/-! ## Readable declarations -/

structure Member.Readable (m : Member) : Prop where
  type : IsName m.type.name
  name : IsName m.name

structure EntityClass.Readable (d : EntityClass) : Prop where
  name : IsName d.name
  base : IsName d.base
  idClass : IsName d.idClass
  members : ∀ m ∈ d.members, m.Readable
  serialField : IsName d.serialField
  serialClass : IsName d.serialClass
  serialExpression : Calm d.serialExpression

structure ValueClass.Readable (d : ValueClass) : Prop where
  name : IsName d.name
  interface : IsName d.interface
  members : ∀ m ∈ d.members, m.1.Readable
  emptyCheck : Calm d.emptyCheck
  exception : Calm d.exception
  resultCode : Calm d.resultCode

structure EnumClass.Readable (d : EnumClass) : Prop where
  name : IsName d.name
  interface : IsName d.interface
  constants : ∀ c ∈ d.constants, IsName c.1
  constants_ne_nil : d.constants ≠ []

def Declaration.Readable : Declaration → Prop
  | entity d => d.Readable
  | value d => d.Readable
  | enumeration d => d.Readable

/-- A package is read up to the first semicolon and without white space. -/
structure File.Readable (f : File) : Prop where
  package : ∀ c ∈ f.package.toList, isSpace c = false ∧ c ≠ ';'
  imports : ∀ name ∈ f.imports, ';' ∉ name.toList
  declaration : f.declaration.Readable

variable {m : Member} {f : File} {s t : String} {ts more r : List Token}

/-! ## Members -/

theorem readFields_append (h : AllCalm ts) : readFields (ts ++ r) = readFields r := by
  induction ts with
  | nil => rfl
  | cons t ts ih =>
    obtain ⟨ht, hts⟩ := not_or.mp (mt List.mem_cons.mpr h)
    rw [List.cons_append, readFields, if_neg (Ne.symm ht), ih hts]

def TypeUse.tokens (type : TypeUse) : List Token :=
  if type.list then [.word "List".toList, .symbol '<', .word type.name.toList, .symbol '>']
  else [.word type.name.toList]

theorem textTokens_type (h : IsName m.type.name) : textTokens m.type.text = m.type.tokens := by
  unfold TypeUse.text TypeUse.tokens
  split
  · have hopen : textTokens "List<" = [.word "List".toList, .symbol '<'] := by
      rw [show "List".toList = ['L', 'i', 's', 't'] by decide]
      exact textTokens_lit.trans (by decide)
    have hclose : textTokens ">" = [.symbol '>'] := textTokens_lit.trans (by decide)
    rw [textTokens_between (.lit (by decide)) (.lit (by decide)), h.textTokens, hopen, hclose]
    rfl
  · exact h.textTokens

/-- The tokens of a member, given those of its modifiers. -/
def Member.tokens (modifiers : List Token) (m : Member) : List Token :=
  modifiers ++ (m.type.tokens ++ [.word m.name.toList, .symbol ';'])

theorem textTokens_semicolon : textTokens ";" = [.symbol ';'] := textTokens_lit.trans (by decide)

theorem Member.Readable.tokensOf_pieces (h : m.Readable) (modifiers : String) :
    tokensOf (m.pieces modifiers) = m.tokens (textTokens modifiers) := by
  have hindent : textTokens "    " = [] := textTokens_lit.trans (by decide)
  have hblank : textTokens " " = [] := textTokens_lit.trans (by decide)
  have hsplit : EndsApart ("    " ++ modifiers ++ " ") :=
    (EndsApart.lit (by decide)).append (by decide) _
  have hends : EndsApart ("    " ++ modifiers ++ " " ++ m.type.text ++ " ") :=
    (EndsApart.lit (by decide)).append (by decide) _
  rw [Member.pieces, tokensOf_append, tokensOf_partDoc, tokensOf_cons, tokens_line, tokensOf_nil,
    List.append_nil, List.nil_append, textTokens_between hends (.lit (by decide)),
    textTokens_between hsplit (.lit (by decide)),
    textTokens_between (.lit (by decide)) (.lit (by decide)), h.name.textTokens,
    textTokens_type h.type, hindent, hblank, textTokens_semicolon, Member.tokens]
  simp

theorem final_mem : "final" ∈ Name.reservedWords := by simp [Name.reservedWords]

theorem private_mem : "private" ∈ Name.reservedWords := by simp [Name.reservedWords]

/-- A type does not start with the word for what is final. -/
theorem skipFinal_type (h : IsName m.type.name) :
    skipFinal (m.type.tokens ++ r) = m.type.tokens ++ r := by
  have hlist : Token.word "List".toList ≠ .word "final".toList := word_ne (by decide)
  have hstart : ∀ t rest, t ≠ .word "final".toList → skipFinal (t :: rest) = t :: rest :=
    fun t rest ht => if_neg ht
  unfold TypeUse.tokens
  split
  · exact hstart _ _ hlist
  · exact hstart _ _ (h.word_ne final_mem)

theorem fieldOf_type (m : Member) :
    fieldOf (m.type.tokens ++ .word m.name.toList :: .symbol ';' :: r) = some (m.type, m.name) := by
  obtain ⟨⟨type, list⟩, name, doc, note⟩ := m
  cases list with
  | true => simp [TypeUse.tokens, fieldOf]
  | false => simp [TypeUse.tokens, fieldOf]

theorem allCalm_type (h : IsName m.type.name) : AllCalm m.type.tokens := by
  have hlist : Token.word "private".toList ≠ .word "List".toList := word_ne (by decide)
  have htype := (h.word_ne private_mem).symm
  unfold AllCalm TypeUse.tokens
  split
  · simp only [List.mem_cons, List.not_mem_nil, or_false, not_or]
    exact ⟨hlist, word_ne_symbol _ _, htype, word_ne_symbol _ _⟩
  · rwa [List.mem_singleton]

theorem Member.Readable.allCalm (h : m.Readable) :
    AllCalm (m.type.tokens ++ [.word m.name.toList, .symbol ';']) := by
  have hname := (h.name.word_ne private_mem).symm
  refine allCalm_append.mpr ⟨allCalm_type h.type, ?_⟩
  simp only [AllCalm, List.mem_cons, List.not_mem_nil, or_false, not_or]
  exact ⟨hname, word_ne_symbol _ _⟩

theorem readFields_private {ts : List Token} {field : TypeUse × String} (h : AllCalm ts)
    (hf : fieldOf (skipFinal (ts ++ r)) = some field) :
    readFields (.word "private".toList :: (ts ++ r)) = (readFields r).map (field :: ·) := by
  rw [readFields, if_pos rfl, hf, readFields_append h]
  rfl

theorem Member.Readable.readFields (h : m.Readable) :
    readFields (m.tokens [.word "private".toList] ++ r) =
      (Java.readFields r).map ((m.type, m.name) :: ·) := by
  have hread : fieldOf (skipFinal (m.type.tokens ++ [.word m.name.toList, .symbol ';'] ++ r)) =
      some (m.type, m.name) := by
    rw [List.append_assoc, skipFinal_type h.type]
    exact fieldOf_type m
  exact readFields_private h.allCalm hread

theorem Member.Readable.readFields_final (h : m.Readable) :
    Java.readFields (m.tokens [.word "private".toList, .word "final".toList] ++ r) =
      (Java.readFields r).map ((m.type, m.name) :: ·) := by
  have hfinal : Token.word "private".toList ≠ .word "final".toList := word_ne (by decide)
  have hcalm : AllCalm (.word "final".toList ::
      (m.type.tokens ++ [.word m.name.toList, .symbol ';'])) :=
    fun hm => (List.mem_cons.mp hm).elim hfinal h.allCalm
  have hread : fieldOf (skipFinal
      (.word "final".toList :: (m.type.tokens ++ [.word m.name.toList, .symbol ';']) ++ r)) =
        some (m.type, m.name) := by
    rw [List.cons_append, List.append_assoc, skipFinal, if_pos rfl]
    exact fieldOf_type m
  exact readFields_private hcalm hread

theorem readFields_calm (h : AllCalm ts) : readFields ts = some [] := by
  have hall := readFields_append (r := []) h
  rwa [List.append_nil] at hall

/-- Members are read one by one, up to calm code. -/
theorem readFields_members {members : List Member} {g : Member → List Token}
    (h : ∀ m ∈ members, ∀ r, readFields (g m ++ r) = (readFields r).map ((m.type, m.name) :: ·))
    (hts : AllCalm ts) :
    readFields (members.flatMap g ++ ts) = some (members.map fun m => (m.type, m.name)) := by
  induction members with
  | nil => exact readFields_calm hts
  | cons m members ih =>
    obtain ⟨hm, hmembers⟩ := List.forall_mem_cons.mp h
    rw [List.flatMap_cons, List.append_assoc, hm, ih hmembers]
    rfl

/-! ## Headers -/

theorem textTokens_header {n b i : String} (hn : IsName n) (hb : IsName b) (hi : IsName i)
    (hs : EndsApart s) (ht : Apart t) :
    textTokens (s ++ n ++ t ++ b ++ "<" ++ i ++ "> \x7b") =
      textTokens s ++ .word n.toList :: (textTokens t ++
        [.word b.toList, .symbol '<', .word i.toList, .symbol '>', .symbol '\x7b']) := by
  have hopen : textTokens "<" = [.symbol '<'] := textTokens_lit.trans (by decide)
  have hclose : textTokens "> \x7b" = [.symbol '>', .symbol '\x7b'] :=
    textTokens_lit.trans (by decide)
  have hbase : EndsApart (s ++ n ++ t) := ht.ends.append ht.ne_empty _
  have hless : EndsApart (s ++ n ++ t ++ b ++ "<") :=
    (EndsApart.lit (by decide)).append (by decide) _
  rw [textTokens_between hless (.lit (by decide)), textTokens_between hbase (.lit (by decide)),
    textTokens_between hs ht.starts, hn.textTokens, hb.textTokens, hi.textTokens, hopen, hclose]
  simp

theorem takeWhile_append {c : Char} (h : .symbol c ∉ ts) :
    (ts ++ .symbol c :: r).takeWhile (· ≠ .symbol c) = ts := by
  have hts : ∀ t ∈ ts, (decide (t ≠ .symbol c)) = true :=
    fun t ht => decide_eq_true fun heq => h (heq ▸ ht)
  rw [List.takeWhile_append_of_pos hts, List.takeWhile_cons_of_neg (by simp), List.append_nil]

theorem dropThrough_append {c : Char} (h : .symbol c ∉ ts) :
    dropThrough c (ts ++ .symbol c :: r) = r := by
  have hts : ∀ t ∈ ts, (decide (t ≠ .symbol c)) = true :=
    fun t ht => decide_eq_true fun heq => h (heq ▸ ht)
  rw [dropThrough, List.dropWhile_append_of_pos hts, List.dropWhile_cons_of_neg (by simp)]
  rfl

theorem skipImports_open (h : .symbol ';' ∉ ts) :
    skipImports true (ts ++ .symbol ';' :: r) = skipImports false r := by
  induction ts with
  | nil => rw [List.nil_append, skipImports, decide_eq_false (not_not.mpr rfl)]
  | cons t ts ih =>
    obtain ⟨ht, hts⟩ := not_or.mp (mt List.mem_cons.mpr h)
    rw [List.cons_append, skipImports, decide_eq_true (Ne.symm ht), ih hts]

theorem tokens_import (name : String) :
    textTokens ("import " ++ name ++ ";") =
      .word "import".toList :: (textTokens name ++ [.symbol ';']) := by
  have himport : textTokens "import " = [.word "import".toList] := by
    rw [show "import".toList = ['i', 'm', 'p', 'o', 'r', 't'] by decide]
    exact textTokens_lit.trans (by decide)
  rw [textTokens_between (.lit (by decide)) (.lit (by decide)), himport, textTokens_semicolon]
  rfl

theorem skipImports_lines {imports : List String} (h : ∀ name ∈ imports, ';' ∉ name.toList) :
    skipImports false
        (tokensOf (lines (imports.map fun name => "import " ++ name ++ ";")) ++ r) =
      skipImports false r := by
  rw [tokensOf_lines, List.flatMap_map]
  induction imports with
  | nil => rfl
  | cons name imports ih =>
    obtain ⟨hname, himports⟩ := List.forall_mem_cons.mp h
    rw [List.flatMap_cons, tokens_import, List.cons_append, List.cons_append, skipImports,
      if_pos rfl, List.append_assoc, List.append_assoc]
    exact (skipImports_open fun hm => hname (mem_of_symbol_mem hm)).trans (ih himports)

/-- Code that declares no type. -/
def Undeclaring (s : String) : Prop := ∀ t ∈ textTokens s, isDeclaring t = false

theorem Undeclaring.lit {cs : List Char}
    (h : ∀ t ∈ tokens (cs.map .code),
      t ≠ .word ['c', 'l', 'a', 's', 's'] ∧ t ≠ .word ['e', 'n', 'u', 'm']) :
    Undeclaring (String.ofList cs) := by
  unfold Undeclaring isDeclaring
  rw [textTokens_lit, show "class".toList = ['c', 'l', 'a', 's', 's'] by decide,
    show "enum".toList = ['e', 'n', 'u', 'm'] by decide]
  intro t ht
  simp [h t ht]

/-- What a type is read from: annotations, a header and a body. -/
structure Declares (ts : List Token) (keyword name : List Char) (body : List Token) : Prop where
  tokens : ∃ (texts : List String) (head : List Token),
    ts = textTokens "@Getter" ++ (texts.flatMap textTokens ++ (.word "public".toList ::
      .word keyword :: .word name :: (head ++ .symbol '\x7b' :: body))) ∧
    (∀ s ∈ texts, Undeclaring s) ∧ .symbol '\x7b' ∉ head
  keyword : isDeclaring (.word keyword) = true

theorem tokens_getter :
    textTokens "@Getter" = [.symbol '@', .word ['G', 'e', 't', 't', 'e', 'r']] :=
  textTokens_lit.trans (by decide)

theorem skipImports_getter :
    skipImports false (textTokens "@Getter" ++ r) = textTokens "@Getter" ++ r := by
  rw [tokens_getter, List.cons_append, skipImports, if_neg nofun]

variable {keyword name : List Char} {body : List Token}

theorem Declares.dropWhile (h : Declares ts keyword name body) :
    ∃ head, (skipImports false ts).dropWhile (fun t => !isDeclaring t) =
        .word keyword :: .word name :: (head ++ .symbol '\x7b' :: body) ∧
      .symbol '\x7b' ∉ head := by
  obtain ⟨texts, head, rfl, htexts, hhead⟩ := h.tokens
  have hpublic : isDeclaring (.word "public".toList) = false := by
    simp [isDeclaring]
  have hbefore : ∀ t ∈ textTokens "@Getter" ++ (texts.flatMap textTokens ++
      [.word "public".toList]), (!isDeclaring t) = true := by
    intro t ht
    rw [Bool.not_eq_true']
    rcases List.mem_append.mp ht with ht | ht
    · exact Undeclaring.lit (by decide) t ht
    rcases List.mem_append.mp ht with ht | ht
    · obtain ⟨s, hs, ht⟩ := List.mem_flatMap.mp ht
      exact htexts s hs t ht
    · rwa [List.mem_singleton.mp ht]
  have hsplit : textTokens "@Getter" ++ (texts.flatMap textTokens ++ (.word "public".toList ::
      .word keyword :: .word name :: (head ++ .symbol '\x7b' :: body))) =
        textTokens "@Getter" ++ (texts.flatMap textTokens ++ [.word "public".toList]) ++
          .word keyword :: .word name :: (head ++ .symbol '\x7b' :: body) := by simp
  refine ⟨head, ?_, hhead⟩
  rw [skipImports_getter, hsplit, List.dropWhile_append_of_pos hbefore,
    List.dropWhile_cons_of_neg (by simp [h.keyword])]

/-- A package, its imports and a type are read back. -/
theorem Declares.readTokens {package imports : List Token} (h : Declares ts keyword name body)
    (hp : .symbol ';' ∉ package)
    (hi : ∀ r, skipImports false (imports ++ r) = skipImports false r) :
    readTokens (.word "package".toList :: (package ++ .symbol ';' :: (imports ++ ts))) =
      (if keyword = "enum".toList then readConstants body else some []).bind fun constants =>
        (readFields body).map fun fields =>
          ⟨String.ofList (package.flatMap Token.chars), String.ofList name, fields, constants⟩ := by
  obtain ⟨head, hdrop, hhead⟩ := h.dropWhile
  rw [Java.readTokens, if_pos rfl, takeWhile_append hp, dropThrough_append hp, hi, hdrop, readType,
    dropThrough_append hhead]

end DomainCodegen.Java
