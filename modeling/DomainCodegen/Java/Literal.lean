import DomainCodegen.Text.Blank

/-!
# Free text in Java source

The two places where a generated file holds text that a user wrote: a string literal, in which
quotes, backslashes and line breaks are escaped, and a Javadoc line, in which the text is brought
onto one line and its comment ends are defused.
-/

namespace DomainCodegen.Java

/-- One character of a string literal. -/
def literalChar (c : Char) : List Char :=
  if c = '\\' ∨ c = '"' then ['\\', c]
  else if c = '\n' then ['\\', 'n']
  else if c = '\r' then ['\\', 'r']
  else [c]

/-- A text as it stands between the quotes of a string literal. -/
def literalChars (cs : List Char) : List Char := cs.flatMap literalChar

def literalBody (s : String) : String := String.ofList (literalChars s.toList)

/-- A text in which the slash of every comment end is written as a character reference. -/
def withoutCommentEnds : List Char → List Char
  | [] => []
  | '*' :: '/' :: r => "*&#47;".toList ++ withoutCommentEnds r
  | c :: r => c :: withoutCommentEnds r

/-- A text as it stands on a Javadoc line: its words with single spaces between them. -/
def javadocChars (cs : List Char) : List Char :=
  withoutCommentEnds ([' '].intercalate (Text.blankWords cs))

def javadoc (s : String) : String := String.ofList (javadocChars s.toList)

end DomainCodegen.Java
