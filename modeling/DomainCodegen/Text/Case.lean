/-!
# Letter case

Capital letters for texts that are compared with capital ASCII words. Besides the ASCII letters,
ten characters have a capital form made of ASCII letters alone; every other character outside
ASCII may stand for itself, since no capital form of it occurs in an ASCII word.
-/

namespace DomainCodegen.Text

/-- The capital form of a character, exact wherever that form is ASCII. -/
def capitalForm (c : Char) : List Char :=
  match c.toNat with
  | 0xdf => ['S', 'S']
  | 0x131 => ['I']
  | 0x17f => ['S']
  | 0xfb00 => ['F', 'F']
  | 0xfb01 => ['F', 'I']
  | 0xfb02 => ['F', 'L']
  | 0xfb03 => ['F', 'F', 'I']
  | 0xfb04 => ['F', 'F', 'L']
  | 0xfb05 => ['S', 'T']
  | 0xfb06 => ['S', 'T']
  | _ => [c.toUpper]

def capitals (cs : List Char) : List Char := cs.flatMap capitalForm

/-- Small letters for texts that are compared with small ASCII words; of the characters outside
ASCII only the Kelvin sign has a small form in ASCII. -/
def smallForm (c : Char) : Char :=
  if c.toNat = 0x212a then 'k' else c.toLower

def smalls (cs : List Char) : List Char := cs.map smallForm

end DomainCodegen.Text
