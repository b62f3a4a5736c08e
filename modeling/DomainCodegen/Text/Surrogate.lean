/-!
# Lone surrogates

A text can hold a surrogate that is not half of a pair: an escape of a JSON text spells any code
point. A surrogate is no character, and the Unicode encodings have no bytes for it. Texts are made
of characters here, so a character for private use stands for each surrogate. Such a character is
like a surrogate in all else: it does not print, is no blank, and has no case.

Which characters stand in is left open (`Surrogates`), and nothing depends on it. A text with
characters for private use of its own is met by stand-ins that are not among them
(`StandIns.avoiding`).
-/

namespace DomainCodegen

/-- How many code points are surrogates. -/
def surrogateCount : Nat := 2048

/-- Whether a character is for private use. -/
def isPrivateUse (c : Char) : Bool :=
  let n := c.toNat
  (0xe000 ≤ n ∧ n ≤ 0xf8ff) ∨ (0xf0000 ≤ n ∧ n ≤ 0xffffd) ∨ (0x100000 ≤ n ∧ n ≤ 0x10fffd)

/-- A character for private use in the place of each surrogate. -/
structure StandIns where
  /-- The character that stands for a surrogate, which is given by its distance from the first. -/
  char : Fin surrogateCount → Char
  /-- The surrogate that a character stands for. -/
  ofChar? : Char → Option (Fin surrogateCount)
  ofChar?_eq_some_iff : ∀ c k, ofChar? c = some k ↔ char k = c
  isPrivateUse_char : ∀ k, isPrivateUse (char k) = true

namespace StandIns

/-- The first character of a block of characters for private use. -/
def blockStart (block : Fin 31) : Nat := 0x100000 + surrogateCount * block

theorem blockStart_le (block : Fin 31) (k : Fin surrogateCount) :
    0x100000 ≤ blockStart block + k ∧ blockStart block + k ≤ 0x10fffd := by
  have hblock := block.isLt
  have hk := k.isLt
  unfold surrogateCount at hk
  unfold blockStart surrogateCount
  omega

theorem toNat_ofNat {n : Nat} (h : 0x100000 ≤ n ∧ n ≤ 0x10fffd) : (Char.ofNat n).toNat = n := by
  have hv : n.isValidChar := .inr (by omega)
  unfold Char.ofNat
  rw [dif_pos hv]
  rfl

/-- The characters of a block stand for the surrogates in their order. -/
def ofBlock (block : Fin 31) : StandIns where
  char k := Char.ofNat (blockStart block + k)
  ofChar? c :=
    if h : blockStart block ≤ c.toNat ∧ c.toNat < blockStart block + surrogateCount then
      some ⟨c.toNat - blockStart block, by omega⟩
    else none
  ofChar?_eq_some_iff c k := by
    have hn := toNat_ofNat (blockStart_le block k)
    have hk := k.isLt
    constructor
    · intro h
      split at h
      next hc =>
        cases h
        have hn : blockStart block + (c.toNat - blockStart block) = c.toNat := by omega
        rw [hn, Char.ofNat_toNat]
      · cases h
    · rintro rfl
      rw [dif_pos (by omega)]
      exact congrArg some (Fin.ext (by dsimp only; omega))
  isPrivateUse_char k := by
    have hle := blockStart_le block k
    unfold isPrivateUse
    rw [toNat_ofNat hle]
    simp only [decide_eq_true_eq]
    omega

/-- The first block of which a text holds no character. -/
def avoiding (cs : List Char) : StandIns :=
  let isFree (block : Fin 31) : Bool := cs.all fun c => ((ofBlock block).ofChar? c).isNone
  ofBlock (((List.finRange 31).find? isFree).getD 0)

end StandIns

/-- The stand-ins that texts are written with. -/
class Surrogates where
  standIns : StandIns

namespace Surrogates

/-- Stand-ins for where no text holds characters for private use. -/
scoped instance standard : Surrogates := ⟨.ofBlock 0⟩

end Surrogates

namespace Text

def isSurrogateCode (n : Nat) : Bool := 0xd800 ≤ n ∧ n ≤ 0xdfff

variable [Surrogates]

def isSurrogate (c : Char) : Bool := (Surrogates.standIns.ofChar? c).isSome

/-- The code point that a character is or stands for. -/
def codePoint (c : Char) : Nat :=
  (Surrogates.standIns.ofChar? c).elim c.toNat fun k => 0xd800 + k

def codePoints (s : String) : List Nat := s.toList.map codePoint

/-- The character that is a code point or stands for it. -/
def charOfCode (n : Nat) : Char :=
  if h : 0xd800 ≤ n ∧ n ≤ 0xdfff then
    Surrogates.standIns.char ⟨n - 0xd800, by unfold surrogateCount; omega⟩
  else Char.ofNat n

end Text

end DomainCodegen
