/-! Everything that a call can fail with, and the wording of each failure. -/
namespace PageTrie

inductive IoError where
  | notFound
  | alreadyExists
  | notFolder
  | isFolder
  | badDescriptor
  | invalidOffset
  | fileTooLarge
  | nameTooLong
  | nulInPath
  | lengthOutOfRange
  | other (text : String)
  deriving DecidableEq, Repr

namespace IoError

def message : IoError → String
  | notFound => "No such file or directory (os error 2)"
  | badDescriptor => "Bad file descriptor (os error 9)"
  | alreadyExists => "File exists (os error 17)"
  | notFolder => "Not a directory (os error 20)"
  | isFolder => "Is a directory (os error 21)"
  | invalidOffset => "Invalid argument (os error 22)"
  | fileTooLarge => "File too large (os error 27)"
  | nameTooLong => "File name too long (os error 36)"
  | nulInPath => "file name contained an unexpected NUL byte"
  | lengthOutOfRange => "out of range integral type conversion attempted"
  | other text => text

end IoError

inductive StoreError where
  | io (cause : IoError)
  | corruptPage (number : Nat)
  /-- The split budget ran out before the addressed page had room. -/
  | cannotMakeRoom (attempts : Nat)
  | invalidArgument (text : String)
  | readOnly
  | pairTooLarge (size limit : Nat)
  | pageFull (need free : Nat)
  | locked (path : String)
  deriving DecidableEq, Repr

namespace StoreError

def message : StoreError → String
  | io cause => "IO error: " ++ cause.message
  | corruptPage number => s!"Corrupt page {number}: failed structural validation"
  | cannotMakeRoom attempts => s!"Cannot make room for pair after {attempts} splits"
  | invalidArgument text => "Invalid argument: " ++ text
  | readOnly => "Store is opened read-only"
  | pairTooLarge size limit => s!"Pair too large: {size} bytes (max {limit})"
  | pageFull need free => s!"Page full: need {need} bytes, {free} free"
  | locked path => "Store is locked by another handle: " ++ path

def isIo : StoreError → Bool
  | io _ | corruptPage _ | cannotMakeRoom _ => true
  | _ => false

end StoreError

end PageTrie
