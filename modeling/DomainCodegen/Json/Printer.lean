import DomainCodegen.Json.Value
import DomainCodegen.Number.Shortest
import DomainCodegen.Text.Quoted

/-!
# Printing JSON texts

`Json.print` writes a value on one line of ASCII without space; a character outside ASCII becomes
one or two escapes of UTF-16 units, and a lone surrogate one.
-/

namespace DomainCodegen.Json

/-- The escape of one UTF-16 unit. -/
def unitEscape (n : Nat) : List Char := '\\' :: 'u' :: Text.hexDigits 4 n

variable [Surrogates]

def printedChar (c : Char) : List Char :=
  let n := Text.codePoint c
  if c = '"' ∨ c = '\\' then ['\\', c]
  else if n < 0x20 ∨ 0x7e < n then
    if n < 0x10000 then unitEscape n
    else unitEscape (0xd800 + (n - 0x10000) / 0x400) ++ unitEscape (0xdc00 + (n - 0x10000) % 0x400)
  else [c]

def printString (s : String) : String :=
  "\"" ++ String.ofList (s.toList.flatMap printedChar) ++ "\""

def printFloat : Binary64 → String
  | .nan => "NaN"
  | .infinity negative => if negative then "-Infinity" else "Infinity"
  | x => String.ofList x.text

mutual

def print : Json → String
  | null => "null"
  | bool true => "true"
  | bool false => "false"
  | int n => toString n
  | float x => printFloat x
  | string s => printString s
  | array items => "[" ++ ",".intercalate (printItems items) ++ "]"
  | object members => "\x7b" ++ ",".intercalate (printMembers members) ++ "\x7d"

def printItems : List Json → List String
  | [] => []
  | item :: r => print item :: printItems r

def printMembers : List (String × Json) → List String
  | [] => []
  | (key, value) :: r => (printString key ++ ":" ++ print value) :: printMembers r

end

end DomainCodegen.Json
