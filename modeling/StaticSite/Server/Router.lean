import StaticSite.Path

namespace StaticSite.Server

/-- What leads a request to its route. It is not the server's own, and the server relies on no more of
it than `Router.Lawful` says. -/
structure Router where
  accepts : List (List Char) → Bool
  covers : (route path : List Char) → Bool

/-- Nothing in a route is notation, so it stands for itself alone. Braces are notation, and so were a
colon and a star at the start of a segment, which are refused since. -/
def isLiteral (route : List Char) : Bool :=
  route.head? = some '/' ∧ '{' ∉ route ∧ '}' ∉ route ∧
    ∀ segment ∈ Path.splitSlash route, segment.head? ≠ some ':' ∧ segment.head? ≠ some '*'

namespace Router

structure Lawful (router : Router) : Prop where
  accepts {routes : List (List Char)} (hplain : ∀ route ∈ routes, isLiteral route = true)
    (hnodup : routes.Nodup) : router.accepts routes = true
  covers_iff {route path : List Char} (hplain : isLiteral route = true) :
    router.covers route path = true ↔ path = route
  ending {route path tail : List Char} (h : router.covers route path = true) (htail : tail <:+ route)
    (hopen : '{' ∉ tail) (hclose : '}' ∉ tail) : tail <:+ path

def literal : Router where
  accepts routes := routes.all isLiteral && decide routes.Nodup
  covers route path := isLiteral route && route == path

end Router

end StaticSite.Server
