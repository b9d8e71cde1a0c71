import Homegrown.Shared.Hash.TrieInsert

/-!
# The map from strings to 16-bit numbers

A trie keeps for each string the number it was first inserted with. An insertion of a string
that is there returns its number; one of a new string returns `true`.
-/

namespace Homegrown.Hash

section Calls

variable {posix : Bool} {before calls : List (ByteString × U16)} {s s' : TrieRoot ByteString U16}
  {results : List (U16 × Option U16)}

end Calls

end Homegrown.Hash
