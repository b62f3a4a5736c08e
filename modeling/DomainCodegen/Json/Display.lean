import DomainCodegen.Json.Value
import DomainCodegen.Number.Shortest
import DomainCodegen.Text.Quoted

/-!
# JSON values in messages

`Json.display` shows a value inside a message, with its texts quoted; `Json.plain` is the text
that a value stands for where a text is wanted, so a text stands for itself.
-/

namespace DomainCodegen.Json

variable [Surrogates]

mutual

def display : Json → String
  | null => "None"
  | bool true => "True"
  | bool false => "False"
  | int n => toString n
  | float x => String.ofList x.text
  | string s => Text.quoted s
  | array items => "[" ++ ", ".intercalate (displayItems items) ++ "]"
  | object members => "\x7b" ++ ", ".intercalate (displayMembers members) ++ "\x7d"

def displayItems : List Json → List String
  | [] => []
  | item :: r => display item :: displayItems r

def displayMembers : List (String × Json) → List String
  | [] => []
  | (key, value) :: r => (Text.quoted key ++ ": " ++ display value) :: displayMembers r

end

def plain : Json → String
  | string s => s
  | value => value.display

/-- What messages call the type of a value. -/
def typeName : Json → String
  | null => "NoneType"
  | bool _ => "bool"
  | int _ => "int"
  | float _ => "float"
  | string _ => "str"
  | array _ => "list"
  | object _ => "dict"

end DomainCodegen.Json
