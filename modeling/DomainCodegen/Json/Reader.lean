import DomainCodegen.Json.Value
import DomainCodegen.Text.Surrogate

/-!
# Reading JSON texts

`Json.read` reads a whole text or says why it cannot: the first fault in reading order, with the
place where it was met. Besides the standard grammar it accepts `NaN`, `Infinity` and
`-Infinity`. A number with a fraction or an exponent is floating-point, any other is whole and may
have no more digits than `digitLimit`. Of two members with one key the later value stays, at the
place of the earlier.
-/

namespace DomainCodegen.Json

/-- Why a text is not JSON. -/
inductive Fault where
  | value
  | key
  | colon
  | comma
  | extra
  | unterminated
  | control
  | escape
  | unicodeEscape
  | byteOrderMark
  /-- A whole number with so many digits that it is not read. -/
  | longNumber (digits : Nat)
  deriving DecidableEq, Repr

/-- The greatest number of digits that a whole number may have. -/
def digitLimit : Nat := 4300

def Fault.reason : Fault → String
  | value => "Expecting value"
  | key => "Expecting property name enclosed in double quotes"
  | colon => "Expecting ':' delimiter"
  | comma => "Expecting ',' delimiter"
  | extra => "Extra data"
  | unterminated => "Unterminated string starting at"
  | control => "Invalid control character at"
  | escape => "Invalid \\escape"
  | unicodeEscape => "Invalid \\uXXXX escape"
  | byteOrderMark => "Unexpected UTF-8 BOM (decode using utf-8-sig)"
  | longNumber digits =>
    "Exceeds the limit (" ++ toString digitLimit ++
      " digits) for integer string conversion: value has " ++ toString digits ++
      " digits; use sys.set_int_max_str_digits() to increase the limit"

/-- Whether a text with this fault is no JSON text. A number that is too long is no fault of the
grammar. -/
def Fault.isOfSyntax : Fault → Bool
  | longNumber _ => false
  | _ => true

/-- A place in a text: how many characters precede it, its line and its column, the last two
counted from one. -/
structure Place where
  offset : Nat
  line : Nat
  column : Nat
  deriving DecidableEq, Repr

/-- The place after a number of characters of a text. -/
def placeAt (text : List Char) (offset : Nat) : Place :=
  let before := text.take offset
  { offset
    line := before.count '\n' + 1
    column := (before.reverse.takeWhile (· ≠ '\n')).length + 1 }

structure ReadError where
  fault : Fault
  place : Place
  deriving DecidableEq, Repr

/-- What is wrong, with the place of a fault of the grammar. -/
def ReadError.message (e : ReadError) : String :=
  if e.fault.isOfSyntax then
    e.fault.reason ++ ": line " ++ toString e.place.line ++ " column " ++
      toString e.place.column ++ " (char " ++ toString e.place.offset ++ ")"
  else e.fault.reason

/-- What is left to read, and how much has been read. -/
structure Cursor where
  offset : Nat
  rest : List Char

/-- A reading step: what was read and where it ended, or a fault and its offset. -/
abbrev Reading (α : Type) := Except (Fault × Nat) (α × Cursor)

def Cursor.advance (c : Cursor) (n : Nat) : Cursor := ⟨c.offset + n, c.rest.drop n⟩

def isSpace (c : Char) : Bool := c == ' ' || c == '\t' || c == '\n' || c == '\r'

def Cursor.skipSpace (c : Cursor) : Cursor := c.advance (c.rest.takeWhile isSpace).length

/-- The value of a hexadecimal digit in either case. -/
def hexValue? (c : Char) : Option Nat :=
  if c.isDigit then some (c.toNat - 48)
  else if 'a' ≤ c ∧ c ≤ 'f' then some (c.toNat - 87)
  else if 'A' ≤ c ∧ c ≤ 'F' then some (c.toNat - 55)
  else none

/-- The number that the first four characters spell in hexadecimal digits. -/
def hex4? : List Char → Option Nat
  | a :: b :: c :: d :: _ => do
    return (((← hexValue? a) * 16 + (← hexValue? b)) * 16 + (← hexValue? c)) * 16 + (← hexValue? d)
  | _ => none

variable [Surrogates]

/-- The character of an escape that starts with `u`, and the length of the escape after the
backslash. Four digits are read only if a character follows them; two escapes that spell a
surrogate pair are read together, and a surrogate that is not half of a pair is kept. -/
def unicodeEscape (offset : Nat) (digits : List Char) : Except (Fault × Nat) (Char × Nat) :=
  if (digits.drop 4).isEmpty then .error (.unicodeEscape, offset + 1)
  else match hex4? digits with
    | none => .error (.unicodeEscape, offset + 1)
    | some high =>
      let single : Except (Fault × Nat) (Char × Nat) := .ok (Text.charOfCode high, 5)
      if 0xd800 ≤ high ∧ high ≤ 0xdbff then
        match digits.drop 4 with
        | '\\' :: 'u' :: more =>
          if (more.drop 4).isEmpty then single
          else match hex4? more with
            | none => .error (.unicodeEscape, offset + 7)
            | some low =>
              if 0xdc00 ≤ low ∧ low ≤ 0xdfff then
                .ok (Char.ofNat (0x10000 + (high - 0xd800) * 0x400 + (low - 0xdc00)), 11)
              else single
        | _ => single
      else single

/-- The character that an escape stands for, and the length of the escape after the backslash at
`offset`. -/
def escapeAt (opening offset : Nat) : List Char → Except (Fault × Nat) (Char × Nat)
  | [] => .error (.unterminated, opening)
  | 'u' :: digits => unicodeEscape offset digits
  | '"' :: _ => .ok ('"', 1)
  | '\\' :: _ => .ok ('\\', 1)
  | '/' :: _ => .ok ('/', 1)
  | 'b' :: _ => .ok ('\x08', 1)
  | 'f' :: _ => .ok ('\x0c', 1)
  | 'n' :: _ => .ok ('\n', 1)
  | 'r' :: _ => .ok ('\r', 1)
  | 't' :: _ => .ok ('\t', 1)
  | _ => .error (.escape, offset)

/-- The rest of a string after its opening quote; `read` holds the characters so far, the last
one first. -/
def stringRest (opening offset : Nat) (read : List Char) (cs : List Char) : Reading String :=
  match cs with
  | [] => .error (.unterminated, opening)
  | '"' :: r => .ok (String.ofList read.reverse, ⟨offset + 1, r⟩)
  | '\\' :: r =>
    match escapeAt opening offset r with
    | .error e => .error e
    | .ok (c, used) => stringRest opening (offset + 1 + used) (c :: read) (r.drop used)
  | c :: r =>
    if c.toNat < 0x20 then .error (.control, offset)
    else stringRest opening (offset + 1) (c :: read) r
  termination_by cs.length
  decreasing_by all_goals (simp only [List.length_cons, List.length_drop]; omega)

/-- A string, from its opening quote on. -/
def stringAt (c : Cursor) : Reading String := stringRest c.offset (c.offset + 1) [] (c.rest.drop 1)

def natOfDigits (ds : List Char) : Nat := ds.foldl (fun n c => n * 10 + (c.toNat - 48)) 0

/-- The whole part of a number: one zero, or digits that do not start with a zero. -/
def wholeDigits : List Char → List Char
  | '0' :: _ => ['0']
  | cs => cs.takeWhile Char.isDigit

/-- The digits after a point, if there are any. -/
def fractionDigits : List Char → List Char
  | '.' :: cs => cs.takeWhile Char.isDigit
  | _ => []

/-- The sign and the digits of an exponent, and the length of its text; nothing without digits. -/
def exponentPart : List Char → Option (Bool × List Char × Nat)
  | e :: cs =>
    if e ≠ 'e' ∧ e ≠ 'E' then none
    else
      let (negative, signed, ds) := match cs with
        | '-' :: r => (true, 1, r.takeWhile Char.isDigit)
        | '+' :: r => (false, 1, r.takeWhile Char.isDigit)
        | r => (false, 0, r.takeWhile Char.isDigit)
      if ds.isEmpty then none else some (negative, ds, 1 + signed + ds.length)
  | [] => none

/-- A whole number, unless it has too many digits. -/
def wholeNumber (negative : Bool) (digits : List Char) : Except Fault Json :=
  let n : Int := natOfDigits digits
  if digitLimit < digits.length then .error (.longNumber digits.length)
  else .ok (.int (if negative then -n else n))

/-- A number and the length of its text. -/
def numberAt (cs : List Char) : Option (Except Fault Json × Nat) :=
  let (negative, unsigned) := match cs with
    | '-' :: r => (true, r)
    | r => (false, r)
  let whole := wholeDigits unsigned
  if whole.isEmpty then none
  else
    let fraction := fractionDigits (unsigned.drop whole.length)
    let point := if fraction.isEmpty then 0 else fraction.length + 1
    let length := (if negative then 1 else 0) + whole.length + point
    let float (exponent : Int) : Json :=
      .float (.ofDecimal negative (natOfDigits (whole ++ fraction)) (exponent - fraction.length))
    match exponentPart (unsigned.drop (whole.length + point)) with
    | some (down, ds, used) =>
      let e : Int := natOfDigits ds
      some (.ok (float (if down then -e else e)), length + used)
    | none => some (if fraction.isEmpty then wholeNumber negative whole else .ok (float 0), length)

/-- The values that are written as words. -/
def words : List (String × Json) :=
  [("null", .null), ("true", .bool true), ("false", .bool false), ("NaN", .float .nan),
    ("Infinity", .float (.infinity false)), ("-Infinity", .float (.infinity true))]

def wordAt (cs : List Char) : Option (Except Fault Json × Nat) :=
  words.findSome? fun (word, value) =>
    if word.toList.isPrefixOf cs then some (.ok value, word.length) else none

/-- A value that holds no other value and is no string. -/
def scalarAt (c : Cursor) : Reading Json :=
  match (wordAt c.rest).or (numberAt c.rest) with
  | some (.ok value, length) => .ok (value, c.advance length)
  | some (.error fault, _) => .error (fault, c.offset)
  | none => .error (.value, c.offset)

mutual

/-- A value that starts at the cursor. The first argument bounds the depth of the reading. -/
def valueAt : Nat → Cursor → Reading Json
  | 0, c => .error (.value, c.offset)
  | depth + 1, c =>
    match c.rest.head? with
    | some '"' => (stringAt c).map fun (s, end') => (.string s, end')
    | some '[' =>
      let inside := (c.advance 1).skipSpace
      if inside.rest.head? = some ']' then .ok (.array [], inside.advance 1)
      else itemsAt depth [] inside
    | some '\x7b' =>
      let inside := (c.advance 1).skipSpace
      if inside.rest.head? = some '\x7d' then .ok (.object [], inside.advance 1)
      else membersAt depth [] inside
    | _ => scalarAt c

/-- The rest of an array from one of its items on; `read` holds the earlier items, the last one
first. -/
def itemsAt : Nat → List Json → Cursor → Reading Json
  | 0, _, c => .error (.value, c.offset)
  | depth + 1, read, c =>
    match valueAt depth c with
    | .error e => .error e
    | .ok (item, after) =>
      let after := after.skipSpace
      match after.rest.head? with
      | some ']' => .ok (.array (item :: read).reverse, after.advance 1)
      | some ',' => itemsAt depth (item :: read) (after.advance 1).skipSpace
      | _ => .error (.comma, after.offset)

/-- The rest of an object from one of its keys on. -/
def membersAt : Nat → List (String × Json) → Cursor → Reading Json
  | 0, _, c => .error (.value, c.offset)
  | depth + 1, read, c =>
    if c.rest.head? ≠ some '"' then .error (.key, c.offset)
    else match stringAt c with
      | .error e => .error e
      | .ok (key, after) =>
        let after := after.skipSpace
        if after.rest.head? ≠ some ':' then .error (.colon, after.offset)
        else match valueAt depth (after.advance 1).skipSpace with
          | .error e => .error e
          | .ok (value, after) =>
            let after := after.skipSpace
            let read := Members.set key value read
            match after.rest.head? with
            | some '\x7d' => .ok (.object read, after.advance 1)
            | some ',' => membersAt depth read (after.advance 1).skipSpace
            | _ => .error (.comma, after.offset)

end

/-- One value and nothing after it but space. Every step of the depth reads a character, so the
length of the text bounds it. -/
def readChars (text : List Char) : Except (Fault × Nat) Json :=
  if text.head? = some '\ufeff' then .error (.byteOrderMark, 0)
  else match valueAt (2 * text.length + 1) (Cursor.skipSpace ⟨0, text⟩) with
    | .error e => .error e
    | .ok (value, after) =>
      let after := after.skipSpace
      if after.rest.isEmpty then .ok value else .error (.extra, after.offset)

def read (text : String) : Except ReadError Json :=
  (readChars text.toList).mapError fun (fault, offset) => ⟨fault, placeAt text.toList offset⟩

end DomainCodegen.Json
