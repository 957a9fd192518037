import Peerbit.Indexer.RowSound

/-!
# Documents that are kept make a round trip

The row of a document has its primary key among the values of its own columns.
-/

namespace Peerbit
namespace Sqlite

open Lib.RowTrees
open Lib.Results

/-! ### The row of a document -/

section Root

variable {scope : List String} {primary : String} {ctor : Ctor} {obj : Value}

end Root

def author : Ctor := .mk (some 1) "Author" [.mk "name" .plain (.simple .string)]

def post : Ctor :=
  .mk (some 0) "Post"
    [.mk "id" .plain (.simple .string),
     .mk "size" .plain (.simple .u64),
     .mk "author" .option (.struct author),
     .mk "tags" .vec (.simple .string)]

def point : Ctor := .mk (some 2) "Point" [.mk "x" .plain (.simple .u8)]

def shape : Ctor := .mk (some 1) "Shape" [.mk "center" .plain (.struct point)]

end Sqlite
end Peerbit
