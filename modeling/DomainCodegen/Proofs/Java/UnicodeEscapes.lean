import DomainCodegen.Json.Reader
import DomainCodegen.Proofs.Java.Scanner
import DomainCodegen.Proofs.Text.Blank

/-!
# Unicode escapes

A compiler translates the Unicode escapes of a Java file before it looks for comments, and an escape
without four digits is an error. A Javadoc line keeps the escapes of its text as they are. So it is
confined to its comment exactly if the escapes of the text are harmless, that is if none of them is
malformed, stands for a line break or takes part in the end of a comment
(`javadoc_confined_iff_harmless`).
-/

namespace DomainCodegen.Java

open Json (hexValue?)
open Text (wordsBehind wordsBehind_of_blank wordsBehind_of_not_blank wordsBehind_wordsBehind
  blankWords_cons not_blank_of_mem_blankWords)

/-! ## The translation -/

/-- What a compiler reads: a character of the text, or the UTF-16 unit that an escape stands for. -/
inductive Symbol where
  | plain (c : Char)
  | escaped (unit : Nat)
  deriving DecidableEq, Repr

namespace Symbol

def code : Symbol → Nat
  | plain c => c.toNat
  | escaped unit => unit

def isEscaped : Symbol → Bool
  | plain _ => false
  | escaped _ => true

def isBreak (s : Symbol) : Bool := s.code == '\n'.toNat || s.code == '\r'.toNat

end Symbol

/-- Where a translation stands in a text. -/
inductive Reading where
  | plain
  /-- Behind a backslash that can start an escape: the backslashes before it are in pairs. -/
  | backslash
  /-- Behind such a backslash and at least one `u`. -/
  | marks
  /-- Among the digits of an escape, with the number that they make up so far. After the next digit
  `more` of them are missing. -/
  | digits (more value : Nat)

/-- Translates a text from a reading on, unless an escape in it is malformed. -/
def translate : Reading → List Char → Option (List Symbol)
  | .plain, [] => some []
  | .backslash, [] => some [.plain '\\']
  | _, [] => none
  | .plain, c :: r =>
    if c = '\\' then translate .backslash r else (translate .plain r).map (.plain c :: ·)
  | .backslash, c :: r =>
    if c = 'u' then translate .marks r
    else (translate .plain r).map (.plain '\\' :: .plain c :: ·)
  | .marks, c :: r =>
    if c = 'u' then translate .marks r
    else (hexValue? c).bind fun d => translate (.digits 2 d) r
  | .digits 0 value, c :: r =>
    (hexValue? c).bind fun d => (translate .plain r).map (.escaped (16 * value + d) :: ·)
  | .digits (more + 1) value, c :: r =>
    (hexValue? c).bind fun d => translate (.digits more (16 * value + d)) r

/-- A text as the compiler reads it. -/
def translation (cs : List Char) : Option (List Symbol) := translate .plain cs

/-- A backslash behind another one starts no escape. -/
example : translation "\\\\u002a".toList = some ("\\\\u002a".toList.map .plain) := by decide

example : translation "\\\\\\uu002a".toList = some [.plain '\\', .plain '\\', .escaped 42] := by
  decide

/-- Two symbols that end a comment. -/
def EndsComment (a b : Symbol) : Prop := a.code = '*'.toNat ∧ b.code = '/'.toNat

instance : DecidableRel EndsComment := fun _ _ => inferInstanceAs (Decidable (_ ∧ _))

/-- What the compiler reads is there, ends no comment and has no line break. -/
def Confined (cs : List Char) : Prop :=
  ∃ symbols ∈ translation cs, (symbols.IsChain fun a b => ¬ EndsComment a b) ∧
    ∀ s ∈ symbols, s.isBreak = false

instance (cs : List Char) : Decidable (Confined cs) :=
  inferInstanceAs (Decidable (∃ symbols ∈ translation cs, _))

/-- Two symbols that end a comment and do not both stand in the text. -/
def EndsHidden (a b : Symbol) : Prop := (a.isEscaped || b.isEscaped) = true ∧ EndsComment a b

instance : DecidableRel EndsHidden := fun _ _ => inferInstanceAs (Decidable (_ ∧ _))

/-- No escape is malformed, is a line break, or takes part in the end of a comment. -/
def Harmless (cs : List Char) : Prop :=
  ∃ symbols ∈ translation cs, (symbols.IsChain fun a b => ¬ EndsHidden a b) ∧
    ∀ s ∈ symbols, s.isEscaped = true → s.isBreak = false

instance (cs : List Char) : Decidable (Harmless cs) :=
  inferInstanceAs (Decidable (∃ symbols ∈ translation cs, _))

variable {cs rest x y : List Char} {b : Char}

/-! ## Characters between escapes -/

/-- A character at which an escape that is not complete is malformed. -/
structure Stops (b : Char) : Prop where
  ne_backslash : b ≠ '\\'
  ne_mark : b ≠ 'u'
  no_digit : hexValue? b = none

theorem translate_stop (hb : Stops b) (q : Reading) (x y : List Char) :
    translate q (x ++ b :: y) =
      (translate q x).bind fun s => (translate .plain y).map (s ++ .plain b :: ·) := by
  induction x generalizing q with
  | nil =>
    cases q with
    | plain => simp [translate, hb.ne_backslash]
    | backslash => simp [translate, hb.ne_mark]
    | marks => simp [translate, hb.ne_mark, hb.no_digit]
    | digits more value => cases more <;> simp [translate, hb.no_digit]
  | cons c x ih =>
    have hmap : ∀ front : List Symbol,
        (translate .plain (x ++ b :: y)).map (front ++ ·) =
          ((translate .plain x).map (front ++ ·)).bind fun s =>
            (translate .plain y).map (s ++ .plain b :: ·) := by
      intro front
      rw [ih .plain]
      cases translate .plain x <;> cases translate .plain y <;> simp
    cases q with
    | plain =>
      simp only [List.cons_append, translate]
      split
      · exact ih .backslash
      · exact hmap [.plain c]
    | backslash =>
      simp only [List.cons_append, translate]
      split
      · exact ih .marks
      · exact hmap [.plain '\\', .plain c]
    | marks =>
      simp only [List.cons_append, translate]
      split
      · exact ih .marks
      · cases hexValue? c with
        | none => rfl
        | some d => exact ih (.digits 2 d)
    | digits more value =>
      cases more with
      | zero =>
        simp only [List.cons_append, translate]
        cases hexValue? c with
        | none => rfl
        | some d => exact hmap [.escaped (16 * value + d)]
      | succ more =>
        simp only [List.cons_append, translate]
        cases hexValue? c with
        | none => rfl
        | some d => exact ih (.digits more (16 * value + d))

theorem translate_plain (h : '\\' ∉ cs) (y : List Char) :
    translate .plain (cs ++ y) = (translate .plain y).map (cs.map .plain ++ ·) := by
  induction cs with
  | nil => simp
  | cons c cs ih =>
    obtain ⟨hc, hcs⟩ := not_or.mp (mt List.mem_cons.mpr h)
    rw [List.cons_append, translate, if_neg (Ne.symm hc), ih hcs, Option.map_map]
    rfl

/-! ## Dividers -/

theorem not_endsHidden_plain {c d : Char} : ¬ EndsHidden (.plain c) (.plain d) :=
  fun h => Bool.false_ne_true h.1

theorem not_endsHidden_of_ne_slash {a : Symbol} {c : Char} (h : c ≠ '/') :
    ¬ EndsHidden a (.plain c) := fun hend => h (Char.toNat_inj.mp hend.2.2)

theorem not_endsHidden_of_ne_star {a : Symbol} {c : Char} (h : c ≠ '*') :
    ¬ EndsHidden (.plain c) a := fun hend => h (Char.toNat_inj.mp hend.2.1)

/-- A stretch of text that keeps apart what stands on its two sides. -/
structure Divider (b : Char) (rest : List Char) : Prop where
  stops : Stops b
  ne_slash : b ≠ '/'
  backslash_notMem : '\\' ∉ rest
  getLast_ne_star : (b :: rest).getLast? ≠ some '*'

theorem Divider.translation_eq (h : Divider b rest) (x y : List Char) :
    translation (x ++ b :: (rest ++ y)) = (translation x).bind fun s =>
      (translation y).map fun t => s ++ ((b :: rest).map Symbol.plain ++ t) := by
  unfold translation
  rw [translate_stop h.stops]
  congr
  funext s
  rw [translate_plain h.backslash_notMem, Option.map_map]
  rfl

theorem Divider.isChain_iff (h : Divider b rest) (s t : List Symbol) :
    ((s ++ ((b :: rest).map Symbol.plain ++ t)).IsChain fun a b => ¬ EndsHidden a b) ↔
      (s.IsChain fun a b => ¬ EndsHidden a b) ∧ t.IsChain fun a b => ¬ EndsHidden a b := by
  have hmid : ((b :: rest).map Symbol.plain).IsChain fun a b => ¬ EndsHidden a b := by
    rw [List.isChain_map]
    exact (List.pairwise_of_forall fun _ _ => not_endsHidden_plain).isChain
  rw [List.isChain_append, List.isChain_append]
  constructor
  · rintro ⟨hs, ⟨-, ht, -⟩, -⟩
    exact ⟨hs, ht⟩
  · rintro ⟨hs, ht⟩
    refine ⟨hs, ⟨hmid, ht, ?_⟩, ?_⟩
    · rintro a ha c -
      rw [List.getLast?_map, Option.mem_def, Option.map_eq_some_iff] at ha
      obtain ⟨last, hlast, rfl⟩ := ha
      exact not_endsHidden_of_ne_star fun he => h.getLast_ne_star (he ▸ hlast)
    · rintro a - c hc
      cases hc
      exact not_endsHidden_of_ne_slash h.ne_slash

/-- The escapes of a text with a divider in it are those on the two sides. -/
theorem Divider.harmless_iff (h : Divider b rest) (x y : List Char) :
    Harmless (x ++ b :: (rest ++ y)) ↔ Harmless x ∧ Harmless y := by
  have hplain : ∀ s ∈ (b :: rest).map Symbol.plain, s.isEscaped = true → s.isBreak = false := by
    intro s hs he
    obtain ⟨c, -, rfl⟩ := List.mem_map.mp hs
    cases he
  unfold Harmless
  rw [h.translation_eq]
  cases translation x with
  | none => simp
  | some s =>
  cases translation y with
  | none => simp
  | some t =>
    simp only [Option.bind_some, Option.map_some, Option.mem_some_iff, exists_eq_left',
      h.isChain_iff, List.forall_mem_append]
    constructor
    · rintro ⟨⟨hs, ht⟩, hbs, -, hbt⟩
      exact ⟨⟨hs, hbs⟩, ht, hbt⟩
    · rintro ⟨⟨hs, hbs⟩, ht, hbt⟩
      exact ⟨⟨hs, ht⟩, hbs, hplain, hbt⟩

theorem harmless_nil : Harmless [] := by decide

theorem stops_of_isBlank (h : Text.isBlank b = true) : Stops b := by
  have hrange : b.toNat ≤ 0x20 ∨ 0x85 ≤ b.toNat := by
    unfold Text.isBlank at h
    simp only [Bool.or_eq_true, Bool.and_eq_true, decide_eq_true_eq, beq_iff_eq] at h
    omega
  have hout : ∀ low high : Char, 0x20 < low.toNat → high.toNat < 0x85 → ¬ (low ≤ b ∧ b ≤ high) := by
    rintro low high hlow hhigh ⟨hl, hh⟩
    have hl : low.toNat ≤ b.toNat := hl
    have hh : b.toNat ≤ high.toNat := hh
    omega
  have hne : ∀ c : Char, 0x20 < c.toNat → c.toNat < 0x85 → b ≠ c := by
    rintro c hlow hhigh rfl
    exact hout b b hlow hhigh ⟨Char.le_refl b, Char.le_refl b⟩
  have hdigit : b.isDigit ≠ true := by
    intro hd
    obtain ⟨hl, hh⟩ := Bool.and_eq_true_iff.mp hd
    exact hout '0' '9' (by decide) (by decide) ⟨of_decide_eq_true hl, of_decide_eq_true hh⟩
  refine ⟨hne _ (by decide) (by decide), hne _ (by decide) (by decide), ?_⟩
  rw [hexValue?, if_neg hdigit, if_neg (hout _ _ (by decide) (by decide)),
    if_neg (hout _ _ (by decide) (by decide))]

theorem divider_of_isBlank (h : Text.isBlank b = true) : Divider b [] where
  stops := stops_of_isBlank h
  ne_slash hb := by rw [hb] at h; cases h
  backslash_notMem := nofun
  getLast_ne_star hb := by
    cases hb
    cases h

theorem divider_commentEnd : Divider '*' ['/'] :=
  ⟨⟨by decide, by decide, rfl⟩, by decide, by decide, by decide⟩

theorem divider_reference : Divider '*' "&#47;".toList :=
  ⟨⟨by decide, by decide, rfl⟩, by decide, by decide, by decide⟩

/-! ## The text on its line -/

/-- Comment ends that stand in the text keep escapes apart, and so do the references in their
place. -/
theorem harmless_withoutCommentEnds (x cs : List Char) :
    Harmless (x ++ withoutCommentEnds cs) ↔ Harmless (x ++ cs) := by
  fun_induction withoutCommentEnds cs generalizing x with
  | case1 => rfl
  | case2 r ih =>
    have hreference : Harmless (x ++ '*' :: ("&#47;".toList ++ withoutCommentEnds r)) ↔ _ :=
      divider_reference.harmless_iff x (withoutCommentEnds r)
    have hend : Harmless (x ++ '*' :: (['/'] ++ r)) ↔ _ := divider_commentEnd.harmless_iff x r
    exact hreference.trans ((and_congr_right fun _ => ih []).trans hend.symm)
  | case3 c r _ ih =>
    have hcons : ∀ y, x ++ c :: y = (x ++ [c]) ++ y := fun y => by simp
    rw [hcons (withoutCommentEnds r), hcons r]
    exact ih (x ++ [c])

theorem harmless_intercalate (words : List (List Char)) :
    Harmless ([' '].intercalate words) ↔ ∀ w ∈ words, Harmless w := by
  have hblank : Divider ' ' [] := divider_of_isBlank rfl
  induction words with
  | nil => simp [harmless_nil]
  | cons w words ih =>
    cases words with
    | nil => simp
    | cons v words =>
      rw [List.intercalate_cons_cons, List.append_assoc, List.forall_mem_cons]
      exact (hblank.harmless_iff w _).trans (and_congr_right fun _ => ih)

theorem forall_mem_wordsBehind_nil {first : Option Char} {words : List (List Char)} :
    (∀ w ∈ wordsBehind [] first words, Harmless w) ↔ ∀ w ∈ words, Harmless w := by
  cases words with
  | nil =>
    show (∀ w ∈ [[]], Harmless w) ↔ _
    simp [harmless_nil]
  | cons w words =>
    cases hf : first.all Text.isBlank with
    | true =>
      rw [wordsBehind_of_blank hf]
      simp [harmless_nil]
    | false =>
      rw [wordsBehind_of_not_blank hf]
      rfl

theorem harmless_wordsBehind (x cs : List Char) :
    Harmless (x ++ cs) ↔ ∀ w ∈ wordsBehind x cs.head? (Text.blankWords cs), Harmless w := by
  induction cs generalizing x with
  | nil =>
    show Harmless (x ++ []) ↔ ∀ w ∈ [x], Harmless w
    rw [List.append_nil, List.forall_mem_singleton]
  | cons c r ih =>
    rw [blankWords_cons]
    cases hc : Text.isBlank c with
    | false =>
      rw [if_neg Bool.false_ne_true, List.head?_cons, wordsBehind_wordsBehind hc, ← ih,
        List.append_assoc]
      rfl
    | true =>
      have hfirst : (c :: r).head?.all Text.isBlank = true := hc
      rw [if_pos rfl, wordsBehind_of_blank hfirst, List.forall_mem_cons]
      refine ((divider_of_isBlank hc).harmless_iff x r).trans (and_congr_right fun _ => ?_)
      exact (ih []).trans forall_mem_wordsBehind_nil

/-- The escapes of a text are those of its words. -/
theorem harmless_iff_blankWords (cs : List Char) :
    Harmless cs ↔ ∀ w ∈ Text.blankWords cs, Harmless w :=
  (harmless_wordsBehind [] cs).trans forall_mem_wordsBehind_nil

/-! ## Symbols of a text without comment ends -/

/-- Where symbols come from when a text is read from a reading on: a character is read as it stands,
or it completes an escape, or nothing is read yet. -/
inductive Comes : Reading → List Char → List Symbol → Prop where
  | done : Comes .plain [] []
  | lone : Comes .backslash [] [.plain '\\']
  | plain {c : Char} {r : List Char} {t : List Symbol} (h : Comes .plain r t) :
    Comes .plain (c :: r) (.plain c :: t)
  | pair {c : Char} {r : List Char} {t : List Symbol} (h : Comes .plain r t) :
    Comes .backslash (c :: r) (.plain '\\' :: .plain c :: t)
  | escaped {q : Reading} {c : Char} {r : List Char} {t : List Symbol} {unit : Nat}
    (h : Comes .plain r t) : Comes q (c :: r) (.escaped unit :: t)
  | later {q next : Reading} {c : Char} {r : List Char} {t : List Symbol} (hn : next ≠ .plain)
    (h : Comes next r t) : Comes q (c :: r) t

theorem comes_of_translate {q : Reading} {symbols : List Symbol}
    (h : translate q cs = some symbols) : Comes q cs symbols := by
  induction cs generalizing q symbols with
  | nil =>
    cases q <;> cases h
    · exact .done
    · exact .lone
  | cons c r ih =>
    rcases q with _ | _ | _ | ⟨more, value⟩
    · rw [translate] at h
      split at h
      · exact .later (by simp) (ih h)
      · obtain ⟨t, ht, rfl⟩ := Option.map_eq_some_iff.mp h
        exact .plain (ih ht)
    · rw [translate] at h
      split at h
      · exact .later (by simp) (ih h)
      · obtain ⟨t, ht, rfl⟩ := Option.map_eq_some_iff.mp h
        exact .pair (ih ht)
    · rw [translate] at h
      split at h
      · exact .later (by simp) (ih h)
      · obtain ⟨d, -, h⟩ := Option.bind_eq_some_iff.mp h
        exact .later (by simp) (ih h)
    · cases more with
      | zero =>
        rw [translate] at h
        obtain ⟨d, -, h⟩ := Option.bind_eq_some_iff.mp h
        obtain ⟨t, ht, rfl⟩ := Option.map_eq_some_iff.mp h
        exact .escaped (ih ht)
      | succ more =>
        rw [translate] at h
        obtain ⟨d, -, h⟩ := Option.bind_eq_some_iff.mp h
        exact .later (by simp) (ih h)

variable {q : Reading} {symbols : List Symbol}

/-- A slash at the front of what is read stands at the front of the text. -/
theorem Comes.slash (h : Comes q cs symbols) (hs : symbols.head? = some (.plain '/')) :
    q = .plain ∧ cs.head? = some '/' := by
  induction h with
  | done => cases hs
  | lone => cases hs
  | plain h =>
    cases hs
    exact ⟨rfl, rfl⟩
  | pair h => cases hs
  | escaped h => cases hs
  | later hn h ih => exact absurd (ih hs).1 hn

/-- A character that is read stands in the text, or is the backslash that the reading is behind. -/
theorem Comes.mem_of_plain {d : Char} (h : Comes q cs symbols) (hd : .plain d ∈ symbols) :
    d ∈ cs ∨ d = '\\' := by
  induction h with
  | done => cases hd
  | lone => simpa using hd
  | plain h ih =>
    rcases List.mem_cons.mp hd with hd | hd
    · exact .inl (List.mem_cons.mpr (.inl (Symbol.plain.inj hd)))
    · exact (ih hd).imp_left (List.mem_cons_of_mem _)
  | pair h ih =>
    rcases List.mem_cons.mp hd with hd | hd
    · exact .inr (Symbol.plain.inj hd)
    rcases List.mem_cons.mp hd with hd | hd
    · exact .inl (List.mem_cons.mpr (.inl (Symbol.plain.inj hd)))
    · exact (ih hd).imp_left (List.mem_cons_of_mem _)
  | escaped h ih =>
    exact (ih ((List.mem_cons.mp hd).resolve_left nofun)).imp_left (List.mem_cons_of_mem _)
  | later hn h ih => exact (ih hd).imp_left (List.mem_cons_of_mem _)

theorem Comes.isChain_cons {c : Char} {r : List Char} (h : Comes .plain r symbols)
    (hend : NoCommentEnd (c :: r))
    (hhidden : (Symbol.plain c :: symbols).IsChain fun a b => ¬ EndsHidden a b)
    (hs : symbols.IsChain fun a b => ¬ EndsComment a b) :
    (Symbol.plain c :: symbols).IsChain fun a b => ¬ EndsComment a b := by
  refine List.isChain_cons.mpr ⟨fun b hb hends => ?_, hs⟩
  cases b with
  | escaped unit => exact hhidden.rel_head? hb ⟨rfl, hends⟩
  | plain d =>
    obtain rfl : c = '*' := Char.toNat_inj.mp hends.1
    obtain rfl : d = '/' := Char.toNat_inj.mp hends.2
    exact hend.rel_head? (h.slash hb).2 ⟨rfl, rfl⟩

/-- In a text without comment ends only escapes can end a comment. -/
theorem Comes.isChain (h : Comes q cs symbols) (hend : NoCommentEnd cs)
    (hhidden : symbols.IsChain fun a b => ¬ EndsHidden a b) :
    symbols.IsChain fun a b => ¬ EndsComment a b := by
  induction h with
  | done => exact .nil
  | lone => exact .singleton _
  | plain h ih => exact h.isChain_cons hend hhidden (ih hend.tail hhidden.tail)
  | pair h ih =>
    refine List.isChain_cons_cons.mpr ⟨fun hends => absurd hends.1 (by decide), ?_⟩
    exact h.isChain_cons hend hhidden.tail (ih hend.tail hhidden.tail.tail)
  | escaped h ih =>
    refine List.isChain_cons.mpr ⟨fun b hb hends => ?_, ih hend.tail hhidden.tail⟩
    exact hhidden.rel_head? hb ⟨rfl, hends⟩
  | later hn h ih => exact ih hend.tail hhidden

theorem isBreak_plain (c : Char) : (Symbol.plain c).isBreak = isLineBreak c := by
  have hcode : ∀ d : Char, (c.toNat == d.toNat) = (c == d) := by
    intro d
    rw [Bool.eq_iff_iff, beq_iff_eq, beq_iff_eq, Char.toNat_inj]
  show (c.toNat == '\n'.toNat || c.toNat == '\r'.toNat) = _
  rw [hcode, hcode]
  rfl

/-- A text that is safe as it stands is confined if its escapes are harmless. -/
theorem confined_iff_harmless (hbreak : ∀ c ∈ cs, isLineBreak c = false) (hend : NoCommentEnd cs) :
    Confined cs ↔ Harmless cs := by
  constructor
  · rintro ⟨symbols, h, hchain, hbreaks⟩
    exact ⟨symbols, h, hchain.imp fun _ _ hno hends => hno hends.2, fun s hs _ => hbreaks s hs⟩
  · rintro ⟨symbols, h, hchain, hbreaks⟩
    have hcomes := comes_of_translate h
    refine ⟨symbols, h, hcomes.isChain hend hchain, fun s hs => ?_⟩
    cases s with
    | escaped unit => exact hbreaks _ hs rfl
    | plain c =>
      rw [isBreak_plain]
      rcases hcomes.mem_of_plain hs with hc | rfl
      · exact hbreak c hc
      · rfl

/-! ## Javadoc -/

theorem mem_withoutCommentEnds {c : Char} (h : c ∈ withoutCommentEnds cs) :
    c ∈ cs ∨ c ∈ "*&#47;".toList := by
  fun_induction withoutCommentEnds cs with
  | case1 => cases h
  | case2 r ih =>
    rcases List.mem_append.mp h with h | h
    · exact .inr h
    · exact (ih h).imp_left fun hr => List.mem_cons_of_mem _ (List.mem_cons_of_mem _ hr)
  | case3 d r _ ih =>
    rcases List.mem_cons.mp h with rfl | h
    · exact .inl List.mem_cons_self
    · exact (ih h).imp_left (List.mem_cons_of_mem _)

theorem isLineBreak_of_not_blank {c : Char} (h : Text.isBlank c = false) :
    isLineBreak c = false := by
  unfold isLineBreak
  rw [Bool.or_eq_false_iff, beq_eq_false_iff_ne, beq_eq_false_iff_ne]
  constructor <;> rintro rfl <;> cases h

theorem isLineBreak_intercalate {words : List (List Char)}
    (h : ∀ w ∈ words, ∀ c ∈ w, isLineBreak c = false) :
    ∀ c ∈ [' '].intercalate words, isLineBreak c = false := by
  induction words with
  | nil => exact nofun
  | cons w words ih =>
    obtain ⟨hw, hwords⟩ := List.forall_mem_cons.mp h
    cases words with
    | nil => simpa using hw
    | cons v words =>
      rw [List.intercalate_cons_cons, List.forall_mem_append, List.forall_mem_append]
      exact ⟨⟨hw, by simp [isLineBreak]⟩, ih hwords⟩

theorem oneLine_javadoc (s : String) : OneLine (javadoc s) := by
  have hreference : ∀ c ∈ "*&#47;".toList, isLineBreak c = false := by simp [isLineBreak]
  unfold OneLine javadoc
  rw [String.toList_ofList]
  intro c hc
  rcases mem_withoutCommentEnds hc with hc | hc
  · exact isLineBreak_intercalate
      (fun w hw d hd => isLineBreak_of_not_blank (not_blank_of_mem_blankWords hw d hd)) c hc
  · exact hreference c hc

/-- A Javadoc line has no comment end and no line break. A compiler reads none there either exactly
if the escapes of the text are harmless. -/
theorem javadoc_confined_iff_harmless (s : String) :
    NoCommentEnd (javadoc s).toList ∧ OneLine (javadoc s) ∧
      (Confined (javadoc s).toList ↔ Harmless s.toList) := by
  refine ⟨noCommentEnd_javadoc s, oneLine_javadoc s, ?_⟩
  rw [confined_iff_harmless (oneLine_javadoc s) (noCommentEnd_javadoc s), javadoc,
    String.toList_ofList, harmless_iff_blankWords s.toList, ← harmless_intercalate]
  exact harmless_withoutCommentEnds [] _

/-- An escape can end the comment or break its line, and the path of a directory can hold a
malformed one. -/
theorem not_confined_javadoc_escapes :
    ¬ Confined (javadoc "\\u002a/ x").toList ∧ ¬ Confined (javadoc "a\\u000ab").toList ∧
      ¬ Confined (javadoc "C:\\users").toList := by
  decide

end DomainCodegen.Java
