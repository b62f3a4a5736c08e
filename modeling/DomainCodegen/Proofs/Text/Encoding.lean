import DomainCodegen.Text.Encoding
import Mathlib.Data.List.Basic
import Mathlib.Data.List.TakeWhile

/-!
# Texts that can be encoded

A codec that writes code points one after the other takes the texts whose code points all fit
(`encodeFitting_eq_ok_iff`). UTF-8 takes the texts without lone surrogates, and gives them the bytes
of their characters (`encodeUtf8_codePoints_iff`).
-/

namespace DomainCodegen.Text

theorem encodeFitting_eq_ok_iff {encoding reason : String} {single : Bool} {fits : Nat → Bool}
    {each : Nat → List UInt8} {codes : List Nat} {bytes : List UInt8} :
    encodeFitting encoding reason single fits each codes = .ok bytes ↔
      (∀ n ∈ codes, fits n = true) ∧ bytes = codes.flatMap each := by
  unfold encodeFitting
  dsimp only
  split
  next hrest =>
    have hall : codes.takeWhile fits = codes := by
      have hle := List.drop_eq_nil_iff.mp hrest
      exact (List.takeWhile_prefix fits).eq_of_length_le hle
    rw [List.takeWhile_eq_self_iff] at hall
    exact ⟨fun h => ⟨hall, (Except.ok.inj h).symm⟩, fun h => congrArg _ h.2.symm⟩
  next first rest hrest =>
    refine iff_of_false nofun fun h => ?_
    rw [List.takeWhile_eq_self_iff.mpr h.1, List.drop_length] at hrest
    cases hrest

theorem isSurrogateCode_iff {n : Nat} : isSurrogateCode n = true ↔ 0xd800 ≤ n ∧ n ≤ 0xdfff :=
  decide_eq_true_iff

/-- A character for private use starts with a high byte. -/
theorem exists_mem_utf8EncodeChar {c : Char} (h : isPrivateUse c = true) :
    ∃ b ∈ String.utf8EncodeChar c, 0xee ≤ b.toNat := by
  have hn : 0xe000 ≤ c.toNat ∧ c.toNat ≤ 0x10ffff := by
    unfold isPrivateUse at h
    simp only [decide_eq_true_eq] at h
    omega
  have hv : c.val.toNat = c.toNat := rfl
  unfold String.utf8EncodeChar
  dsimp only
  rw [hv, if_neg (by omega), if_neg (by omega)]
  split <;> refine ⟨_, List.mem_cons_self, ?_⟩ <;> rw [UInt8.toNat_ofNat'] <;> omega

variable [Surrogates] {c : Char} {s : String} {bytes : List UInt8}

/-- Characters that are not for private use stand for themselves. -/
theorem not_isSurrogate (h : isPrivateUse c = false) : isSurrogate c = false := by
  unfold isSurrogate
  cases hc : Surrogates.standIns.ofChar? c with
  | none => rfl
  | some k =>
    rw [StandIns.ofChar?_eq_some_iff] at hc
    rw [← hc, Surrogates.standIns.isPrivateUse_char k] at h
    cases h

theorem codePoint_of_not_isSurrogate (h : isSurrogate c = false) : codePoint c = c.toNat := by
  unfold isSurrogate at h
  unfold codePoint
  rw [Option.isSome_eq_false_iff, Option.isNone_iff_eq_none] at h
  rw [h]
  rfl

theorem isSurrogateCode_codePoint (c : Char) : isSurrogateCode (codePoint c) = isSurrogate c := by
  unfold isSurrogate codePoint
  cases hc : Surrogates.standIns.ofChar? c with
  | none =>
    rw [Option.elim_none, Option.isSome_none, Bool.eq_false_iff, ne_eq, isSurrogateCode_iff]
    have hvalid : c.toNat < 0xd800 ∨ 0xdfff < c.toNat := c.valid.imp id And.left
    omega
  | some k =>
    have hk : k.1 < 2048 := k.isLt
    rw [Option.elim_some, Option.isSome_some, isSurrogateCode_iff]
    omega

/-- A surrogate is what is read back from the character that it is read as. -/
theorem codePoint_charOfCode {n : Nat} (h : isSurrogateCode n = true) :
    codePoint (charOfCode n) = n := by
  have hn := isSurrogateCode_iff.mp h
  unfold charOfCode codePoint
  rw [dif_pos hn, (StandIns.ofChar?_eq_some_iff _ _ _).mpr rfl, Option.elim_some]
  exact Nat.add_sub_cancel' hn.1

/-- Whether a text holds a lone surrogate. -/
def hasSurrogate (s : String) : Bool := s.toList.any isSurrogate

theorem hasSurrogate_eq_false_iff :
    hasSurrogate s = false ↔ ∀ c ∈ s.toList, isSurrogate c = false := by
  simp only [hasSurrogate, List.any_eq_false, Bool.not_eq_true]

/-- A text without high bytes has no lone surrogate. -/
theorem hasSurrogate_eq_false_of_bytes
    (h : s.toByteArray.data.toList.any (fun b => 0xee ≤ b.toNat) = false) :
    hasSurrogate s = false := by
  rw [hasSurrogate_eq_false_iff]
  intro c hc
  refine not_isSurrogate (eq_false_of_ne_true fun hp => ?_)
  obtain ⟨b, hb, hle⟩ := exists_mem_utf8EncodeChar hp
  rw [← String.ofList_toList (s := s), String.toByteArray_ofList, List.utf8Encode,
    List.toList_data_toByteArray, List.any_eq_false] at h
  exact h b (List.mem_flatMap_of_mem hc hb) (decide_eq_true hle)

theorem encodeUtf8_codePoints_iff :
    encodeUtf8 (codePoints s) = .ok bytes ↔
      hasSurrogate s = false ∧ bytes = Utf8.encode s.toList := by
  rw [hasSurrogate_eq_false_iff]
  unfold encodeUtf8 encodeUnicode codePoints
  rw [encodeFitting_eq_ok_iff, List.forall_mem_map, List.flatMap_map]
  simp only [isSurrogateCode_codePoint, Bool.not_eq_true']
  refine and_congr_right fun h => ?_
  have heach : s.toList.flatMap (fun c => String.utf8EncodeChar (.ofNat (codePoint c))) =
      Utf8.encode s.toList := by
    refine List.flatMap_congr fun c hc => ?_
    rw [codePoint_of_not_isSurrogate (h c hc), Char.ofNat_toNat]
  rw [heach]

end DomainCodegen.Text
