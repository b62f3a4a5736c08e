import DomainCodegen.Text.Quoted
import DomainCodegen.Text.Utf8

/-!
# Encodings of files

A codec says which bytes stand for the code points of a text, and which of them a file gets that
the text is written to. The codecs that every machine has go by many names; a name is compared
without regard to letter case and to the marks between its letters and digits.
-/

namespace DomainCodegen.Text

/-- Why a codec has no bytes for a text, with the kind of the error. -/
structure EncodeError where
  label : String := "UnicodeEncodeError"
  message : String
  deriving DecidableEq, Repr

/-- The error for a run of code points: the name of the encoding, the place of the first of them,
their number and the first one. -/
def EncodeError.ofRun (encoding reason : String) (offset length first : Nat) : EncodeError :=
  let which :=
    if length = 1 then
      "character '" ++ String.ofList (codePointEscape first) ++ "' in position " ++ toString offset
    else "characters in position " ++ toString offset ++ "-" ++ toString (offset + length - 1)
  { message := "'" ++ encoding ++ "' codec can't encode " ++ which ++ ": " ++ reason }

/-- Writes code points one after the other. The error names the first run of code points that do
not fit, or only the first of them where `single` says so. -/
def encodeFitting (encoding reason : String) (single : Bool) (fits : Nat → Bool)
    (bytes : Nat → List UInt8) (codes : List Nat) : Except EncodeError (List UInt8) :=
  let before := codes.takeWhile fits
  match codes.drop before.length with
  | [] => .ok (codes.flatMap bytes)
  | first :: r =>
    let more := if single then 0 else (r.takeWhile fun n => !fits n).length
    .error (.ofRun encoding reason before.length (1 + more) first)

/-- One byte a code point. -/
def encodeBelow (encoding : String) (limit : Nat) (codes : List Nat) :
    Except EncodeError (List UInt8) :=
  encodeFitting encoding ("ordinal not in range(" ++ toString limit ++ ")") false (· < limit)
    (fun n => [UInt8.ofNat n]) codes

/-- The bytes of all code points but the surrogates. -/
def encodeUnicode (encoding : String) (single : Bool) (bytes : Nat → List UInt8)
    (codes : List Nat) : Except EncodeError (List UInt8) :=
  encodeFitting encoding "surrogates not allowed" single (!isSurrogateCode ·) bytes codes

def encodeUtf8 (codes : List Nat) : Except EncodeError (List UInt8) :=
  encodeUnicode "utf-8" false (fun n => String.utf8EncodeChar (.ofNat n)) codes

/-- The two bytes of a UTF-16 unit, the low one first. -/
def unitBytes (n : Nat) : List UInt8 := [UInt8.ofNat (n % 256), UInt8.ofNat (n / 256)]

def utf16Bytes (n : Nat) : List UInt8 :=
  if n < 0x10000 then unitBytes n
  else unitBytes (0xd800 + (n - 0x10000) / 0x400) ++ unitBytes (0xdc00 + (n - 0x10000) % 0x400)

/-- A codec, by the code points of texts. What ends a text that is encoded by itself is not written
to a file, for the file does not know that the text has ended: a file can lack an ending that the
encoded text has. -/
structure Codec where
  /-- The bytes that stand for a text. -/
  encode : List Nat → Except EncodeError (List UInt8)
  /-- The bytes that a file gets that a text is written to. -/
  write : List Nat → Except EncodeError (List UInt8)
  write_prefix : ∀ codes written encoded, write codes = .ok written → encode codes = .ok encoded →
    written <+: encoded

namespace Codec

/-- A codec without endings. -/
def plain (encode : List Nat → Except EncodeError (List UInt8)) : Codec where
  encode
  write := encode
  write_prefix _ _ _ hw he := by
    rw [hw] at he
    exact Except.ok.inj he ▸ List.prefix_rfl

def utf8 : Codec := plain encodeUtf8

def utf8Signed : Codec := plain fun codes => (encodeUtf8 codes).map ([0xef, 0xbb, 0xbf] ++ ·)

def utf16 : Codec :=
  plain fun codes => (encodeUnicode "utf-16" true utf16Bytes codes).map ([0xff, 0xfe] ++ ·)

def ascii : Codec := plain (encodeBelow "ascii" 128)

def latin1 : Codec := plain (encodeBelow "latin-1" 256)

/-- The file gets all bytes of a text. -/
def WritesWhole (codec : Codec) (codes : List Nat) : Prop :=
  codec.write codes = codec.encode codes

end Codec

/-! ## Shifted texts -/

/-- Switches to characters of one byte. -/
def narrowEscape : List UInt8 := [0x1b, 0x28, 0x42]

/-- Switches to characters of two bytes. -/
def wideEscape : List UInt8 := [0x1b, 0x24, 0x42]

/-- The bytes of code points from an offset on, and whether two-byte characters stay on. -/
def shiftedFrom (offset : Nat) (wide : Bool) : List Nat → Except EncodeError (List UInt8 × Bool)
  | [] => .ok ([], wide)
  | n :: r =>
    if n < 0x80 then
      (shiftedFrom (offset + 1) false r).map fun (bytes, last) =>
        ((if wide then narrowEscape else []) ++ UInt8.ofNat n :: bytes, last)
    else if 0x3041 ≤ n ∧ n ≤ 0x3093 then
      (shiftedFrom (offset + 1) true r).map fun (bytes, last) =>
        ((if wide then [] else wideEscape) ++ 0x24 :: UInt8.ofNat (n - 0x3020) :: bytes, last)
    else .error (.ofRun "iso2022_jp" "illegal multibyte sequence" offset 1 n)

/-- ISO-2022-JP for ASCII and hiragana. An encoded text switches back to one-byte characters at its
end; a file does not. -/
def Codec.hiragana : Codec where
  encode codes := (shiftedFrom 0 false codes).map fun (bytes, wide) =>
    bytes ++ if wide then narrowEscape else []
  write codes := (shiftedFrom 0 false codes).map Prod.fst
  write_prefix codes written encoded hw he := by
    rcases hs : shiftedFrom 0 false codes with error | ⟨bytes, wide⟩ <;> rw [hs] at hw he
    · cases hw
    · cases hw
      cases he
      exact List.prefix_append _ _

/-! ## Names -/

/-- The letters, digits and dots of a name in small letters, with one `_` for what stands between
them. -/
def canonicalNameFrom (started gap : Bool) : List Char → List Char
  | [] => []
  | c :: r =>
    if c.isAlphanum || c == '.' then
      if started && gap then '_' :: c.toLower :: canonicalNameFrom true false r
      else c.toLower :: canonicalNameFrom true false r
    else canonicalNameFrom started true r

def canonicalName (name : String) : String :=
  String.ofList (canonicalNameFrom false false name.toList)

/-- The name of each codec. -/
def codecNames : List (String × Codec) :=
  [("utf_8", .utf8), ("utf_8_sig", .utf8Signed), ("utf_16", .utf16), ("ascii", .ascii),
    ("latin_1", .latin1)]

/-- Further names, in which a dot can stand for a mark. -/
def codecAliases : List (Codec × List String) :=
  [(.utf8, ["utf8", "u8", "utf", "utf8_ucs2", "utf8_ucs4", "cp65001"]),
    (.utf16, ["utf16", "u16"]),
    (.ascii, ["646", "ansi_x3.4_1968", "ansi_x3_4_1968", "ansi_x3.4_1986", "cp367", "csascii",
      "ibm367", "iso646_us", "iso_646.irv_1991", "iso_ir_6", "us", "us_ascii"]),
    (.latin1, ["8859", "cp819", "csisolatin1", "ibm819", "iso8859", "iso8859_1", "iso_8859_1",
      "iso_8859_1_1987", "iso_ir_100", "l1", "latin", "latin1"])]

def withoutDots (name : String) : String :=
  String.ofList (name.toList.map fun c => if c = '.' then '_' else c)

def aliased? (name : String) : Option Codec :=
  (codecAliases.find? fun entry => entry.2.contains name).map Prod.fst

/-- The codec of a name in its canonical form. -/
def codecOf? (name : String) : Option Codec :=
  (aliased? name <|> aliased? (withoutDots name)) <|> codecNames.lookup name

/-- Why there is no codec to write with. -/
inductive EncodingFault where
  | unknown (name : String)
  /-- A name for something else than a way to write texts as bytes. -/
  | notOfTexts (name : String)
  | notText (type : String)
  | nulInName
  deriving DecidableEq, Repr

def EncodingFault.message : EncodingFault → String
  | unknown name => "unknown encoding: " ++ name
  | notOfTexts name =>
    "'" ++ name ++ "' is not a text encoding; use codecs.open() to handle arbitrary codecs"
  | notText type => "open() argument 'encoding' must be str or None, not " ++ type
  | nulInName => "embedded null character"

/-- The codecs of a machine, by their names. -/
abbrev Codecs := String → Except EncodingFault Codec

/-- The name for the encoding of the machine, which is UTF-8. It has no other spelling. -/
def machineName : String := "locale"

/-- The codecs that every machine has. -/
def standardCodecs : Codecs := fun name =>
  if name = machineName then .ok .utf8
  else (codecOf? (canonicalName name)).elim (.error (.unknown name)) .ok

end DomainCodegen.Text
