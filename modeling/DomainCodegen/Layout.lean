import DomainCodegen.Artifact.Basic
import DomainCodegen.Config
import DomainCodegen.Path

/-!
# Where files go

The part of a package after its anchor segment becomes the directories below the output root. A
package without the anchor has none.
-/

namespace DomainCodegen

namespace Layout

/-- What follows the first place at which a text holds a mark. -/
def after? (mark : List Char) : List Char → Option (List Char)
  | [] => none
  | c :: r => if mark.isPrefixOf (c :: r) then some ((c :: r).drop mark.length) else after? mark r

/-- The directories of what follows the anchor. -/
def ofTail (tail : List Char) : Path :=
  if tail = [] then .current
  else (tail.splitOn '.').foldl (fun p cs => p.join (.ofString (String.ofList cs))) .current

/-- The directory of a package below the output root. -/
def packagePath (anchor package : String) : Path :=
  ((after? ('.' :: anchor.toList ++ ['.']) package.toList).map ofTail).getD .current

example : (packagePath "domain" "a.domain.b.c").text = "b/c" := by decide

example : (packagePath "domain" "domain.b").text = "." := by decide

end Layout

/-- The file of a class in a package. -/
def Layout.file (config : Config) (root : Path) (package className : String) : Path :=
  (root.join (packagePath config.anchor package)).join
    (.ofString (className ++ config.output.extension))

/-- The file of an artifact below an output root. -/
def Artifact.path (config : Config) (root : Path) (a : Artifact) : Path :=
  Layout.file config root a.package a.className

end DomainCodegen
