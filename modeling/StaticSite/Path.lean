/-!
Paths as text, and what they say apart from the files that exist. Two spellings of a path are the
same path if their components agree; normalization leaves one spelling of each.

Names are Unicode text. To show a path, to put it in a URL or to take an identifier from it loses
nothing, since there are no bytes in a name that would have to be replaced.
-/

namespace StaticSite

structure Path where
  chars : List Char
  deriving DecidableEq, Repr

/-- The names that lead from the root to a place, outermost first. -/
abbrev Location := List (List Char)

namespace Path

def splitSlash : List Char → List (List Char)
  | [] => [[]]
  | c :: cs =>
    if c = '/' then [] :: splitSlash cs
    else
      match splitSlash cs with
      | [] => [[c]]
      | s :: ss => (c :: s) :: ss

def joinSlash : List (List Char) → List Char
  | [] => []
  | [s] => s
  | s :: ss => s ++ '/' :: joinSlash ss

theorem splitSlash_ne_nil (cs : List Char) : splitSlash cs ≠ [] := by
  cases cs with
  | nil => simp [splitSlash]
  | cons c cs =>
    simp only [splitSlash]
    split
    · simp
    · split <;> simp

theorem joinSlash_splitSlash (cs : List Char) : joinSlash (splitSlash cs) = cs := by
  induction cs with
  | nil => rfl
  | cons c cs ih =>
    simp only [splitSlash]
    split
    · rename_i h
      cases hs : splitSlash cs with
      | nil => exact absurd hs (splitSlash_ne_nil cs)
      | cons s ss => rw [← ih, hs, h]; simp [joinSlash]
    · cases hs : splitSlash cs with
      | nil => exact absurd hs (splitSlash_ne_nil cs)
      | cons s ss =>
        rw [← ih, hs]
        cases ss <;> simp [joinSlash]

inductive Component where
  | root
  | current
  | parent
  | normal (name : List Char)
  deriving DecidableEq, Repr

def ofString (s : String) : Path := ⟨s.toList⟩

def display (p : Path) : String := String.ofList p.chars

def isAbsolute (p : Path) : Bool := p.chars.head? = some '/'

def segments (p : Path) : List (List Char) :=
  match p.chars with
  | '/' :: cs => splitSlash cs
  | cs => splitSlash cs

def isSilent (segment : List Char) : Bool :=
  segment = [] ∨ segment = ['.']

def componentOf? (segment : List Char) : Option Component :=
  if isSilent segment then none
  else if segment = ['.', '.'] then some .parent
  else some (.normal segment)

def lead (p : Path) : List Component :=
  if p.isAbsolute then [.root]
  else if p.segments.head? = some ['.'] then [.current]
  else []

def components (p : Path) : List Component :=
  p.lead ++ p.segments.filterMap componentOf?

def same (p q : Path) : Bool :=
  p.components = q.components

def join (p q : Path) : Path :=
  if q.isAbsolute then q
  else if p.chars = [] ∨ p.chars.getLast? = some '/' then ⟨p.chars ++ q.chars⟩
  else ⟨p.chars ++ '/' :: q.chars⟩

def ofSegments (absolute : Bool) (segments : List (List Char)) : Path :=
  if absolute then ⟨'/' :: joinSlash segments⟩ else ⟨joinSlash segments⟩

def ofLocation (names : Location) : Path :=
  ofSegments true names

def dropSilentEnd (segments : List (List Char)) : List (List Char) :=
  (segments.reverse.dropWhile isSilent).reverse

def trimmedSegments (p : Path) : List (List Char) :=
  match p.isAbsolute, p.segments with
  | false, ['.'] :: rest => ['.'] :: dropSilentEnd rest
  | _, segments => dropSilentEnd segments

def parent? (p : Path) : Option Path :=
  match p.trimmedSegments with
  | [] => none
  | segments =>
    some (ofSegments p.isAbsolute
      (ofSegments p.isAbsolute segments.dropLast).trimmedSegments)

def fileName? (p : Path) : Option (List Char) :=
  match p.components.getLast? with
  | some (.normal name) => some name
  | _ => none

def splitName (name : List Char) : List Char × Option (List Char) :=
  let reversed := name.reverse
  match reversed.dropWhile (· != '.') with
  | [] => (name, none)
  | _ :: [] => (name, none)
  | _ :: stem => (stem.reverse, some (reversed.takeWhile (· != '.')).reverse)

def fileStem? (p : Path) : Option (List Char) :=
  p.fileName?.map fun name => (splitName name).1

def extension? (p : Path) : Option (List Char) :=
  p.fileName?.bind fun name => (splitName name).2

def namesOf : List Component → List (List Char)
  | [] => []
  | .normal name :: cs => name :: namesOf cs
  | _ :: cs => namesOf cs

def startsWith (p base : Path) : Bool :=
  base.components.isPrefixOf p.components

def dropComponents : List Component → List (List Char) → List (List Char)
  | [], segments => segments
  | c :: cs, segments =>
    let rest := match c, segments with
      | .root, _ => segments
      | .current, _ => segments.tail
      | _, _ => (segments.dropWhile isSilent).tail
    dropComponents cs (rest.dropWhile isSilent)

def relativeTo? (p base : Path) : Option Path :=
  if !p.startsWith base then none
  else
    match base.components with
    | [] => some (ofSegments p.isAbsolute p.trimmedSegments)
    | cs => some (ofSegments false (dropSilentEnd (dropComponents cs p.segments)))

def walk (stack : List (List Char)) : List Component → List (List Char)
  | [] => stack
  | .root :: cs => walk [] cs
  | .current :: cs => walk stack cs
  | .parent :: cs => walk stack.tail cs
  | .normal name :: cs => walk (name :: stack) cs

def location (here : Location) (p : Path) : Location :=
  (walk here.reverse p.components).reverse

/-- The absolute spelling without `.`, `..` and empty segments. The empty path names nothing and
stays as it is. -/
def normalize (here : Location) (p : Path) : Path :=
  if p.chars = [] then p else ofLocation (p.location here)

def absolute (here : Location) (p : Path) : Path :=
  let names := p.segments.filter (!isSilent ·)
  let whole := ofSegments true (if p.isAbsolute then names else here ++ names)
  let doubled := p.chars.take 2 = ['/', '/'] ∧ p.chars.take 3 ≠ ['/', '/', '/']
  let whole := if doubled then ⟨'/' :: whole.chars⟩ else whole
  if p.chars.getLast? = some '/' then whole.join ⟨[]⟩ else whole

def nameBefore : List Char → List Char → Bool
  | [], [] => false
  | [], _ :: _ => true
  | _ :: _, [] => false
  | c :: cs, d :: ds => c < d || (c == d && nameBefore cs ds)

def Component.before : Component → Component → Bool
  | .normal m, .normal n => nameBefore m n
  | c, d => rank c < rank d
where
  rank : Component → Nat
    | .root => 0
    | .current => 1
    | .parent => 2
    | .normal _ => 3

def componentsBefore : List Component → List Component → Bool
  | [], [] => false
  | [], _ :: _ => true
  | _ :: _, [] => false
  | c :: cs, d :: ds => c.before d || (c == d && componentsBefore cs ds)

def before (p q : Path) : Bool :=
  componentsBefore p.components q.components

def sort (ps : List Path) : List Path :=
  ps.mergeSort fun p q => !q.before p

end Path

end StaticSite
