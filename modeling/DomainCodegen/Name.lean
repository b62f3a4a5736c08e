/-!
# Names of classes and fields

A business name such as `order_money` gives the class name `OrderMoney` and the field name
`orderMoney`. A name that already is a plain identifier keeps its inner letters, so acronyms
survive; any other name is cut into words, each of which starts with a capital.

One line feed at the end of a text is not looked at when the text is matched against a grammar.
-/

namespace DomainCodegen.Name

/-- A text without one line feed at its end. -/
def matched (cs : List Char) : List Char := if cs.getLast? = some '\n' then cs.dropLast else cs

/-- Letters and digits that start with a letter. -/
def isPlain (cs : List Char) : Bool :=
  match matched cs with
  | [] => false
  | c :: r => c.isAlpha && r.all Char.isAlphanum

/-- Keeps letters and digits, and makes each letter that follows no letter a capital. -/
def humps (afterLetter : Bool) : List Char → List Char
  | [] => []
  | c :: r =>
    if c.isAlphanum then (if afterLetter then c else c.toUpper) :: humps c.isAlpha r
    else humps false r

/-- The class name of a business name. -/
def classChars (cs : List Char) : List Char :=
  if isPlain cs then cs.modifyHead Char.toUpper else humps false cs

/-- The field name of a business name. -/
def fieldChars (cs : List Char) : List Char := (classChars cs).modifyHead Char.toLower

def className (name : String) : String := String.ofList (classChars name.toList)

def fieldName (name : String) : String := String.ofList (fieldChars name.toList)

/-- The words that Java keeps for itself. -/
def reservedWords : List String :=
  ["abstract", "assert", "boolean", "break", "byte", "case", "catch", "char", "class", "const",
    "continue", "default", "do", "double", "else", "enum", "extends", "false", "final", "finally",
    "float", "for", "goto", "if", "implements", "import", "instanceof", "int", "interface", "long",
    "native", "new", "null", "package", "private", "protected", "public", "return", "short",
    "static", "strictfp", "super", "switch", "synchronized", "this", "throw", "throws",
    "transient", "true", "try", "void", "volatile", "while"]

def isIdentifierStart (c : Char) : Bool := c.isAlpha || c == '_' || c == '$'

def isIdentifierPart (c : Char) : Bool := c.isAlphanum || c == '_' || c == '$'

/-- The form of an identifier, reserved words included. -/
def hasIdentifierForm (cs : List Char) : Bool :=
  match matched cs with
  | [] => false
  | c :: r => isIdentifierStart c && r.all isIdentifierPart

/-- A text that can name a class, a field or a constant. -/
def isIdentifier (s : String) : Bool := hasIdentifierForm s.toList && !reservedWords.contains s

/-- What follows the last dot of a qualified name. -/
def simpleChars (cs : List Char) : List Char := (cs.reverse.takeWhile (· ≠ '.')).reverse

def simpleName (qualified : String) : String := String.ofList (simpleChars qualified.toList)

example : className "place-order time" = "PlaceOrderTime" := by decide

example : className "orderSN" = "OrderSN" := by decide

example : fieldName "Order_money" = "orderMoney" := by decide

end DomainCodegen.Name
