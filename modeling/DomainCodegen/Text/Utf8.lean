import DomainCodegen.Text.Quoted

/-!
# UTF-8

`Utf8.encode` is the encoding of the core library, as a list of bytes. `Utf8.decode` is strict,
and names the first bytes that cannot be decoded.
-/

namespace DomainCodegen.Text.Utf8

def encode (cs : List Char) : List UInt8 := cs.flatMap String.utf8EncodeChar

inductive Fault where
  | start
  | continuation
  | truncated
  deriving DecidableEq, Repr

def Fault.reason : Fault → String
  | start => "invalid start byte"
  | continuation => "invalid continuation byte"
  | truncated => "unexpected end of data"

/-- The bytes that cannot be decoded: where they start, how many they are and the first of them. -/
structure DecodeError where
  offset : Nat
  length : Nat
  byte : UInt8
  fault : Fault
  deriving DecidableEq, Repr

def DecodeError.message (e : DecodeError) : String :=
  let which :=
    if e.length = 1 then
      "byte 0x" ++ String.ofList (hexDigits 2 e.byte.toNat) ++ " in position " ++ toString e.offset
    else
      "bytes in position " ++ toString e.offset ++ "-" ++ toString (e.offset + e.length - 1)
  "'utf-8' codec can't decode " ++ which ++ ": " ++ e.fault.reason

/-- How many bytes follow a first byte, and the least and greatest value of the second. -/
def followers (b : UInt8) : Option (Nat × UInt8 × UInt8) :=
  if b < 0x80 then some (0, 0, 0)
  else if b < 0xc2 then none
  else if b < 0xe0 then some (1, 0x80, 0xbf)
  else if b = 0xe0 then some (2, 0xa0, 0xbf)
  else if b = 0xed then some (2, 0x80, 0x9f)
  else if b < 0xf0 then some (2, 0x80, 0xbf)
  else if b = 0xf0 then some (3, 0x90, 0xbf)
  else if b < 0xf4 then some (3, 0x80, 0xbf)
  else if b = 0xf4 then some (3, 0x80, 0x8f)
  else none

/-- The value that a first byte contributes to its code point. -/
def leadValue (count : Nat) (b : UInt8) : Nat :=
  match count with
  | 0 => b.toNat
  | 1 => b.toNat % 0x20
  | 2 => b.toNat % 0x10
  | _ => b.toNat % 0x08

/-- Reads `count` following bytes, the first of them between `low` and `high`, after `taken`
bytes of the character. -/
def readFollowers : Nat → UInt8 → UInt8 → Nat → Nat → List UInt8 → Except (Fault × Nat) (Nat × Nat)
  | 0, _, _, taken, value, _ => .ok (value, taken)
  | _ + 1, _, _, taken, _, [] => .error (.truncated, taken)
  | count + 1, low, high, taken, value, b :: r =>
    if low ≤ b ∧ b ≤ high then
      readFollowers count 0x80 0xbf (taken + 1) (value * 0x40 + b.toNat % 0x40) r
    else .error (.continuation, taken)

/-- The first character of some bytes and its length. -/
def decodeFirst (b : UInt8) (r : List UInt8) : Except (Fault × Nat) (Char × Nat) :=
  match followers b with
  | none => .error (.start, 1)
  | some (count, low, high) =>
    (readFollowers count low high 1 (leadValue count b) r).map fun (n, taken) =>
      (Char.ofNat n, taken)

/-- Decodes from an offset on; `read` holds the characters so far, the last one first. -/
def decodeFrom (offset : Nat) (read : List Char) (bytes : List UInt8) :
    Except DecodeError (List Char) :=
  match bytes with
  | [] => .ok read.reverse
  | b :: r =>
    match decodeFirst b r with
    | .error (fault, length) => .error { offset, length, byte := b, fault }
    | .ok (c, taken) => decodeFrom (offset + taken) (c :: read) (r.drop (taken - 1))
  termination_by bytes.length
  decreasing_by simp only [List.length_cons, List.length_drop]; omega

def decode (bytes : List UInt8) : Except DecodeError (List Char) := decodeFrom 0 [] bytes

end DomainCodegen.Text.Utf8
