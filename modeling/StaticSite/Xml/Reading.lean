import StaticSite.Xml.Markup

namespace StaticSite.Xml

structure Reading where
  events : List Event
  failure : Option ReadError
  deriving DecidableEq, Repr

namespace Reading

def ended : Reading := ⟨[], none⟩

def failed (e : ReadError) : Reading := ⟨[], some e⟩

def cons (e : Event) (r : Reading) : Reading := ⟨e :: r.events, r.failure⟩

def scan : List Char → Reading
  | [] => ended
  | c :: cs =>
    match _h : readEvent (c :: cs) with
    | .error e => failed e
    | .ok (e, rest) => cons e (scan rest)
termination_by cs => cs.length
decreasing_by exact length_of_readEvent _h

/-- A closing tag names the innermost open element. Elements left open at the end are no error. -/
def nest (failure : Option ReadError) : List (List Char) → List Event → Reading
  | _, [] => ⟨[], failure⟩
  | stack, .opening tag :: es => cons (.opening tag) (nest failure (tag.name :: stack) es)
  | [], .closing name :: _ => failed (.illFormed (.unmatchedEnd name))
  | top :: stack, .closing name :: es =>
    if top = name then cons (.closing name) (nest failure stack es)
    else failed (.illFormed (.mismatchedEnd top name))
  | stack, e :: es => cons e (nest failure stack es)

def withoutMark : List Char → List Char
  | '\ufeff' :: cs => cs
  | cs => cs

def ofText (source : List Char) : Reading :=
  let scanned := scan (withoutMark source)
  nest scanned.failure [] scanned.events

end Reading

end StaticSite.Xml
