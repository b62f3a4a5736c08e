import DomainCodegen.Proofs.Java.Outline
import DomainCodegen.Proofs.Java.UnicodeEscapes
import Mathlib.Algebra.Group.Nat.Even
import Mathlib.Data.List.DropRight

/-!
# String literals

A compiler translates Unicode escapes before it reads a literal, and then reads it up to the first
quote that is not escaped. Escaping doubles every backslash, so the translation finds nothing in a
literal (`translation_literal`), and the compiler reads the text that the literal was made from and
stops at the closing quote (`literal_round_trip`).
-/

namespace DomainCodegen.Java

variable {cs x y : List Char} {c : Char}

/-! ## Escaping -/

/-- A text with every occurrence of a character replaced. -/
def replaceChar (c : Char) (replacement cs : List Char) : List Char :=
  cs.flatMap fun d => if d = c then replacement else [d]

/-- Escaping replaces one kind of character after the other. Backslashes come first, since all the
others are replaced by something with a backslash. -/
theorem literalChars_eq_replaceChar (cs : List Char) :
    literalChars cs =
      replaceChar '\r' ['\\', 'r'] (replaceChar '\n' ['\\', 'n']
        (replaceChar '"' ['\\', '"'] (replaceChar '\\' ['\\', '\\'] cs))) := by
  unfold replaceChar literalChars
  rw [List.flatMap_assoc, List.flatMap_assoc, List.flatMap_assoc]
  refine List.flatMap_congr fun c _ => ?_
  by_cases hslash : c = '\\'
  · subst hslash
    rfl
  by_cases hquote : c = '"'
  · subst hquote
    rfl
  by_cases hfeed : c = '\n'
  · subst hfeed
    rfl
  by_cases hreturn : c = '\r'
  · subst hreturn
    rfl
  simp [literalChar, hslash, hquote, hfeed, hreturn]

/-! ## Reading -/

/-- The value of a literal whose opening quote has been read, and what stands behind its closing
quote. A line break, an escape that is unknown and a quote that is missing are errors. -/
def readLiteral : List Char → Option (List Char × List Char)
  | [] => none
  | '"' :: r => some ([], r)
  | '\\' :: c :: r =>
    (escapeValue c).bind fun d => (readLiteral r).map fun (value, rest) => (d :: value, rest)
  | c :: r =>
    if isLineBreak c || c == '\\' then none
    else (readLiteral r).map fun (value, rest) => (c :: value, rest)

example : readLiteral "a\\\\\\\"b\" + c".toList = some ("a\\\"b".toList, " + c".toList) := by decide

example : readLiteral "a\nb\"".toList = none := by decide

/-- A character stands in a literal behind a backslash, as an escape, or as it is. -/
theorem literalChar_cases (c : Char) :
    (∃ d, literalChar c = ['\\', d] ∧ escapeValue d = some c) ∨
      (literalChar c = [c] ∧ c ≠ '"' ∧ c ≠ '\\' ∧ isLineBreak c = false) := by
  unfold literalChar
  split_ifs with hescape hfeed hreturn
  · refine .inl ⟨c, rfl, ?_⟩
    rcases hescape with rfl | rfl <;> rfl
  · exact .inl ⟨'n', rfl, congrArg some hfeed.symm⟩
  · exact .inl ⟨'r', rfl, congrArg some hreturn.symm⟩
  · obtain ⟨hslash, hquote⟩ := not_or.mp hescape
    exact .inr ⟨rfl, hquote, hslash, by simp [isLineBreak, hfeed, hreturn]⟩

theorem literalChars_cons (c : Char) (cs : List Char) :
    literalChars (c :: cs) = literalChar c ++ literalChars cs := List.flatMap_cons

theorem readLiteral_cons (hquote : c ≠ '"') (hslash : c ≠ '\\') (hbreak : isLineBreak c = false)
    (r : List Char) :
    readLiteral (c :: r) = (readLiteral r).map fun (value, rest) => (c :: value, rest) := by
  rw [readLiteral, hbreak, beq_eq_false_iff_ne.mpr hslash, Bool.or_self,
    if_neg Bool.false_ne_true]
  · exact hquote
  · exact fun _ _ h => absurd h hslash

/-- An escaped text is read as the text, up to the quote behind it. -/
theorem readLiteral_literalChars (cs r : List Char) :
    readLiteral (literalChars cs ++ '"' :: r) = some (cs, r) := by
  induction cs with
  | nil => rfl
  | cons c cs ih =>
    rw [literalChars_cons, List.append_assoc]
    rcases literalChar_cases c with ⟨d, hd, hvalue⟩ | ⟨hself, hquote, hslash, hbreak⟩
    · rw [hd, List.cons_append, List.singleton_append, readLiteral, hvalue, ih]
      rfl
    · rw [hself, List.singleton_append, readLiteral_cons hquote hslash hbreak, ih]
      rfl

theorem oneLine_literalBody (s : String) : OneLine (literalBody s) := by
  rw [OneLine, literalBody, String.toList_ofList]
  intro c hc
  obtain ⟨e, -, hc⟩ := List.mem_flatMap.mp hc
  rcases literalChar_cases e with ⟨d, hd, hvalue⟩ | ⟨hself, -, -, hbreak⟩
  · have hbreak : isLineBreak d = false := by
      refine Bool.eq_false_iff.mpr fun h => ?_
      rcases Bool.or_eq_true_iff.mp h with h | h <;> rw [eq_of_beq h] at hvalue <;> cases hvalue
    rw [hd] at hc
    rcases List.mem_pair.mp hc with rfl | rfl
    · rfl
    · exact hbreak
  · rw [hself, List.mem_singleton] at hc
    rwa [hc]

/-! ## Unicode escapes -/

/-- A `u` in a literal is one of the text, since no escape is written with it. -/
theorem exists_literalChars_eq (h : literalChars cs = x ++ 'u' :: y) :
    ∃ front, x = literalChars front := by
  induction cs generalizing x with
  | nil => simp [literalChars] at h
  | cons c cs ih =>
    rw [literalChars_cons] at h
    rcases literalChar_cases c with ⟨d, hd, hvalue⟩ | ⟨hself, -, -, -⟩
    · rw [hd] at h
      rcases x with _ | ⟨first, _ | ⟨second, x⟩⟩
      · cases h
      · obtain ⟨-, rfl, -⟩ : '\\' = first ∧ d = 'u' ∧ literalChars cs = y := by simpa using h
        cases hvalue
      · obtain ⟨rfl, rfl, hrest⟩ :
            '\\' = first ∧ d = second ∧ literalChars cs = x ++ 'u' :: y := by simpa using h
        obtain ⟨front, rfl⟩ := ih hrest
        exact ⟨c :: front, by rw [literalChars_cons, hd]; rfl⟩
    · rw [hself] at h
      rcases x with _ | ⟨first, x⟩
      · exact ⟨[], rfl⟩
      · obtain ⟨rfl, hrest⟩ : c = first ∧ literalChars cs = x ++ 'u' :: y := by simpa using h
        obtain ⟨front, rfl⟩ := ih hrest
        exact ⟨c :: front, by rw [literalChars_cons, hself]; rfl⟩

/-- The backslashes at the end of an escaped text are in pairs. -/
theorem even_backslashes (cs : List Char) :
    Even ((literalChars cs).rtakeWhile (· = '\\')).length := by
  induction cs using List.reverseRecOn with
  | nil => exact Even.zero
  | append_singleton cs c ih =>
    have hsplit : literalChars (cs ++ [c]) = literalChars cs ++ literalChar c := by
      simp [literalChars]
    rw [hsplit]
    rcases literalChar_cases c with ⟨d, hd, -⟩ | ⟨hself, -, hslash, -⟩
    · have hlast : literalChars cs ++ ['\\', d] = literalChars cs ++ ['\\'] ++ [d] := by simp
      rw [hd, hlast]
      by_cases hpair : d = '\\'
      · rw [List.rtakeWhile_concat_pos _ _ _ (by simpa using hpair),
          List.rtakeWhile_concat_pos _ _ _ (by simp), List.length_append, List.length_append,
          Nat.add_assoc]
        exact ih.add ⟨1, rfl⟩
      · rw [List.rtakeWhile_concat_neg _ _ _ (by simpa using hpair)]
        exact Even.zero
    · rw [hself, List.rtakeWhile_concat_neg _ _ _ (by simpa using hslash)]
      exact Even.zero

theorem translate_literalChars (cs y : List Char) :
    translate .plain (literalChars cs ++ y) =
      (translate .plain y).map ((literalChars cs).map .plain ++ ·) := by
  induction cs with
  | nil => simp [literalChars]
  | cons c cs ih =>
    rw [literalChars_cons, List.append_assoc]
    rcases literalChar_cases c with ⟨d, hd, hvalue⟩ | ⟨hself, -, hslash, -⟩
    · have hmark : d ≠ 'u' := by
        rintro rfl
        cases hvalue
      rw [hd, List.cons_append, List.singleton_append, translate, if_pos rfl, translate,
        if_neg hmark, ih, Option.map_map]
      rfl
    · rw [hself, List.singleton_append, translate, if_neg hslash, ih, Option.map_map]
      rfl

theorem stops_quote : Stops '"' := ⟨by decide, by decide, rfl⟩

/-- A compiler reads a literal with its quotes as it stands, whatever is around it. -/
theorem translation_literal (cs x y : List Char) :
    translation (x ++ '"' :: (literalChars cs ++ '"' :: y)) =
      (translation x).bind fun s => (translation y).map fun t =>
        s ++ (('"' :: (literalChars cs ++ ['"'])).map Symbol.plain ++ t) := by
  have hclose : translate .plain ('"' :: y) = (translation y).map (.plain '"' :: ·) := by
    rw [translate, if_neg (by decide)]
    rfl
  rw [translation, translate_stop stops_quote, translate_literalChars, hclose]
  refine Option.bind_congr fun s _ => ?_
  rw [Option.map_map, Option.map_map]
  refine Option.map_congr fun t _ => ?_
  simp

/-! ## The round trip -/

/-- Behind an opening quote an escaped text is read as the text, whatever follows the closing quote.
It has no line break and no active backslash before a `u`, so that the translation of Unicode
escapes leaves the literal and its quotes as they are, wherever they stand. -/
theorem literal_round_trip (s r : String) :
    readLiteral ((literalBody s).toList ++ '"' :: r.toList) = some (s.toList, r.toList) ∧
    OneLine (literalBody s) ∧
    (∀ x y, (literalBody s).toList = x ++ 'u' :: y → Even (x.rtakeWhile (· = '\\')).length) ∧
    ∀ x y, translation (x ++ '"' :: ((literalBody s).toList ++ '"' :: y)) =
      (translation x).bind fun before => (translation y).map fun after =>
        before ++ (('"' :: ((literalBody s).toList ++ ['"'])).map Symbol.plain ++ after) := by
  have hchars : (literalBody s).toList = literalChars s.toList := String.toList_ofList
  refine ⟨?_, oneLine_literalBody s, ?_, ?_⟩
  · rw [hchars, readLiteral_literalChars]
  · rw [hchars]
    intro x y h
    obtain ⟨front, rfl⟩ := exists_literalChars_eq h
    exact even_backslashes front
  · rw [hchars]
    exact translation_literal s.toList

/-- A text with a backslash before a `u`, a line break and quotes. -/
theorem literal_round_trip_directory :
    literalBody "C:\\users\n\"home\"" = "C:\\\\users\\n\\\"home\\\"" ∧
    readLiteral ((literalBody "C:\\users\n\"home\"").toList ++ '"' :: ");".toList) =
      some ("C:\\users\n\"home\"".toList, ");".toList) ∧
    Even ("C:\\\\".toList.rtakeWhile (· = '\\')).length := by
  have hbody : literalBody "C:\\users\n\"home\"" = "C:\\\\users\\n\\\"home\\\"" := by decide
  obtain ⟨hread, -, heven, -⟩ := literal_round_trip "C:\\users\n\"home\"" ");"
  refine ⟨hbody, hread, heven "C:\\\\".toList "sers\\n\\\"home\\\"".toList ?_⟩
  rw [hbody]
  decide

end DomainCodegen.Java
