import StaticSite.Content
import StaticSite.Path
import StaticSite.Text.Search

/-!
A tree of files as a value: what a path leads to, what can be read there, and the tree after a
change. Paths follow links, and one that does not start at the root starts at the working directory.
-/

namespace StaticSite
open StaticSite.Text

inductive Node where
  | file (content : Content)
  | directory
  | link (target : Path)
  deriving DecidableEq, Repr

inductive FileError where
  | notFound
  | alreadyExists
  | notDirectory
  | isDirectory
  | nameTooLong
  | tooManyLinks
  | notText
  | nulInPath
  deriving DecidableEq, Repr

def FileError.message : FileError → String
  | .notFound => "No such file or directory (os error 2)"
  | .alreadyExists => "File exists (os error 17)"
  | .notDirectory => "Not a directory (os error 20)"
  | .isDirectory => "Is a directory (os error 21)"
  | .nameTooLong => "File name too long (os error 36)"
  | .tooManyLinks => "Too many levels of symbolic links (os error 40)"
  | .notText => "stream did not contain valid UTF-8"
  | .nulInPath => "file name contained an unexpected NUL byte"

/-- The root is a directory that is always there and has no entry. -/
structure FileTree where
  nodes : List (Location × Node)
  here : Location
  deriving DecidableEq, Repr

namespace FileTree

def empty (here : Location) : FileTree := ⟨[], here⟩

def get? (t : FileTree) (l : Location) : Option Node :=
  if l = [] then some .directory else t.nodes.lookup l

def setNode (l : Location) (n : Node) : List (Location × Node) → List (Location × Node)
  | [] => [(l, n)]
  | (k, m) :: rest => if k = l then (l, n) :: rest else (k, m) :: setNode l n rest

def set (t : FileTree) (l : Location) (n : Node) : FileTree :=
  { t with nodes := setNode l n t.nodes }

def erase (t : FileTree) (l : Location) : FileTree :=
  { t with nodes := t.nodes.filter fun (k, _) => !l.isPrefixOf k }

theorem lookup_setNode (l k : Location) (n : Node) (nodes : List (Location × Node)) :
    (setNode l n nodes).lookup k = if k = l then some n else nodes.lookup k := by
  induction nodes with
  | nil =>
    by_cases h : k = l
    · simp [setNode, h]
    · simp [setNode, List.lookup_cons, h, beq_eq_false_iff_ne.2 h]
  | cons e rest ih =>
    obtain ⟨j, m⟩ := e
    by_cases hj : j = l
    · by_cases h : k = l
      · simp [setNode, hj, h]
      · simp [setNode, hj, h, List.lookup_cons, beq_eq_false_iff_ne.2 h]
    · simp only [setNode, if_neg hj, List.lookup_cons, ih]
      by_cases h : k = l
      · simp [h, beq_eq_false_iff_ne.2 (Ne.symm hj)]
      · simp [h]

theorem get?_set {t : FileTree} {l k : Location} {n : Node} (hl : l ≠ []) :
    (t.set l n).get? k = if k = l then some n else t.get? k := by
  by_cases hk : k = []
  · simp [get?, hk, hl.symm]
  · simp [get?, set, hk, lookup_setNode]

def maxName : Nat := 255

def maxPath : Nat := 4095

def maxLinks : Nat := 40

/-- What the end of a path is wanted for: itself, even if it is a link, or what it leads to, which is
there already or is to be created as a file. -/
inductive Ending where
  | itself
  | followed
  | created
  deriving DecidableEq, Repr

def follow (t : FileTree) (ending : Ending) (links : Nat) (l : Location)
    (segments : List (List Char)) : Except FileError Location :=
  match segments with
  | [] => .ok l
  | s :: rest =>
    match t.get? l with
    | none => .error .notFound
    | some (.file _) => .error .notDirectory
    | some (.link _) => .error .notDirectory
    | some .directory =>
      if Path.isSilent s then follow t ending links l rest
      else if s = ['.', '.'] then follow t ending links l.dropLast rest
      else if ending = .created ∧ rest ≠ [] ∧ rest.all (· = []) then .error .isDirectory
      else if maxName < byteCount s then .error .nameTooLong
      else
        match t.get? (l ++ [s]) with
        | some (.link target) =>
          if ending = .itself ∧ rest = [] then .ok (l ++ [s])
          else
            match links with
            | 0 => .error .tooManyLinks
            | links + 1 =>
              follow t ending links (if target.isAbsolute then [] else l) (target.segments ++ rest)
        | _ => follow t ending links (l ++ [s]) rest
termination_by (links, segments.length)

def locate (t : FileTree) (ending : Ending) (p : Path) : Except FileError Location :=
  if p.chars.contains '\x00' then .error .nulInPath
  else if p.chars = [] then .error .notFound
  else if maxPath < byteCount p.chars then .error .nameTooLong
  else t.follow ending maxLinks (if p.isAbsolute then [] else t.here) p.segments

def find (t : FileTree) (p : Path) : Except FileError (Location × Node) := do
  let l ← t.locate .followed p
  match t.get? l with
  | some n => .ok (l, n)
  | none => .error .notFound

def pathExists (t : FileTree) (p : Path) : Bool :=
  (t.find p).toOption.isSome

def isDirectory (t : FileTree) (p : Path) : Bool :=
  match t.find p with
  | .ok (_, .directory) => true
  | _ => false

def isFile (t : FileTree) (p : Path) : Bool :=
  match t.find p with
  | .ok (_, .file _) => true
  | _ => false

def read (t : FileTree) (p : Path) : Except FileError Content := do
  match ← t.find p with
  | (_, .file content) => .ok content
  | _ => .error .isDirectory

def readText (t : FileTree) (p : Path) : Except FileError (List Char) := do
  match ← t.read p with
  | .text chars => .ok chars
  | .binary _ => .error .notText

def canonical? (t : FileTree) (p : Path) : Option Path :=
  (t.find p).toOption.map fun (l, _) => Path.ofLocation l

def normalize (t : FileTree) (p : Path) : Path :=
  p.normalize t.here

def write (t : FileTree) (p : Path) (content : Content) : Except FileError FileTree := do
  let l ← t.locate .created p
  match t.get? l with
  | some .directory => .error .isDirectory
  | _ => .ok (t.set l (.file content))

def withoutEndSlashes (p : Path) : Path :=
  match (p.chars.reverse.dropWhile (· == '/')).reverse with
  | [] => p
  | cs => ⟨cs⟩

def createDirectory (t : FileTree) (p : Path) : Except FileError FileTree := do
  let l ← t.locate .itself (withoutEndSlashes p)
  match t.get? l with
  | some _ => .error .alreadyExists
  | none => .ok (t.set l .directory)

/-- Creates a directory and those on the way to it that are missing. A directory that is there
already will do. What was created before an error stays. -/
def createDirectories (t : FileTree) (p : Path) : FileTree × Except FileError Unit :=
  go t p p.chars.length
where
  orReuse (t : FileTree) (p : Path) (e : FileError) : FileTree × Except FileError Unit :=
    (t, if t.isDirectory p then .ok () else .error e)
  go (t : FileTree) (p : Path) : Nat → FileTree × Except FileError Unit
    | 0 => (t, .ok ())
    | n + 1 =>
      match t.createDirectory p, p.parent? with
      | .ok t, _ => (t, .ok ())
      | .error .notFound, none => (t, .ok ())
      | .error .notFound, some parent =>
        match go t parent n with
        | (t, .error e) => (t, .error e)
        | (t, .ok _) =>
          match t.createDirectory p with
          | .ok t => (t, .ok ())
          | .error e => orReuse t p e
      | .error e, _ => orReuse t p e

def createParent (t : FileTree) (p : Path) : FileTree × Except (Path × FileError) Unit :=
  match p.parent? with
  | none => (t, .ok ())
  | some parent =>
    if parent.chars = [] then (t, .ok ())
    else
      match t.createDirectories parent with
      | (t, .ok _) => (t, .ok ())
      | (t, .error e) => (t, .error (parent, e))

def names (t : FileTree) (l : Location) : List (List Char) :=
  t.nodes.filterMap fun (k, _) =>
    if k.dropLast = l then k.getLast?.filter (· ≠ []) else none

def changedFiles (before after : FileTree) : List (Location × Content) :=
  after.nodes.filterMap fun (l, n) =>
    match n with
    | .file content => if before.get? l = some n then none else some (l, content)
    | _ => none

def newEmptyDirectories (before after : FileTree) : List Location :=
  after.nodes.filterMap fun (l, n) =>
    if n = .directory ∧ after.names l = [] ∧
      ¬ (before.get? l = some .directory ∧ before.names l = []) then some l else none

theorem byteCount_le_of_isDirectory {t : FileTree} {p : Path} (h : t.isDirectory p = true) :
    byteCount p.chars ≤ maxPath := by
  simp only [isDirectory, find, locate] at h
  split at h
  · rename_i heq
    split at heq
    · simp [bind, Except.bind] at heq
    · split at heq
      · simp [bind, Except.bind] at heq
      · split at heq
        · simp [bind, Except.bind] at heq
        · omega
  · simp at h

end FileTree

end StaticSite
