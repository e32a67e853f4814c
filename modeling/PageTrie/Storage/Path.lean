import PageTrie.Error

/-! Path texts and the names that they are made of. -/
namespace PageTrie

abbrev Path := List String

namespace Path

/-- Longest name, in bytes of UTF-8. -/
abbrev nameLimit : Nat := 255

abbrev textLimit : Nat := 4095

/-- The components of a text, if it can be a path at all. -/
def components (text : String) : Except IoError (List String) :=
  if text.toList.contains '\x00' then .error .nulInPath
  else if text.isEmpty then .error .notFound
  else if textLimit < text.utf8ByteSize then .error .nameTooLong
  else .ok ((text.toList.splitOn '/').map String.ofList)

def isStay (component : String) : Bool := component == "" || component == "."

def isName (component : String) : Bool := !isStay component && component != ".."

structure Ending where
  above : List String
  last : String
  slash : Bool

def ending (components : List String) : Ending :=
  let backwards := components.reverse
  match backwards.dropWhile String.isEmpty with
  | [] => ⟨[], "", true⟩
  | last :: above => ⟨above.reverse, last, backwards.head? == some ""⟩

def movesBack (components : List String) : List String :=
  (components.filter fun component => !isStay component).reverse

end Path

end PageTrie
