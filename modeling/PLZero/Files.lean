/-! Directory trees. The names in them are bytes, which need not be a text. -/

namespace PLZero

abbrev FileName := List UInt8

/-- A file with its bytes, or a directory with its entries. -/
inductive Entry
  | file (contents : ByteArray)
  | dir (entries : List (FileName × Entry))
  deriving Inhabited

namespace Entry

def emptyDir : Entry := dir []

def isDir : Entry → Bool
  | dir _ => true
  | file _ => false

def child? (name : FileName) : Entry → Option Entry
  | dir entries => entries.lookup name
  | file _ => none

def get? : List FileName → Entry → Option Entry
  | [], e => some e
  | name :: rest, e => (e.child? name).bind (get? rest)

end Entry

end PLZero
