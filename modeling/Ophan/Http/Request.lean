import Ophan.Http.Method

/-!
# Header maps and the parts of a request

A header map keeps the values of a name in the order they were added, and
`get` returns the first one.  Names are in lower case, as `HeaderName` keeps
them.
-/

namespace Ophan.Http

structure HeaderMap where
  entries : List (Bytes × Bytes)
  deriving DecidableEq, Repr

namespace HeaderMap

def getAll (headers : HeaderMap) (name : Bytes) : List Bytes :=
  (headers.entries.filter fun entry => entry.1 = name).map (·.2)

def get (headers : HeaderMap) (name : Bytes) : Option Bytes :=
  (headers.getAll name).head?

end HeaderMap

/-- What the firewall reads of a request: `uri.path()`, the query of the
target where it has one, and the headers. -/
structure RequestParts where
  method : Method
  path : Bytes
  query : Option Bytes
  headers : HeaderMap
  deriving DecidableEq, Repr

end Ophan.Http
