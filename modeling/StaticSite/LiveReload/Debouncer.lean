import StaticSite.Path

/-!
Changes of files, held back until a file has been quiet for a while. What happens to one file in
the meantime becomes one change.
-/

namespace StaticSite.LiveReload

inductive ChangeKind where
  | created
  | modified
  | removed
  deriving DecidableEq, Repr

structure Change where
  path : Path
  kind : ChangeKind
  deriving DecidableEq, Repr

/-- One change in the place of two. A file that came and went has not changed. -/
def ChangeKind.coalesce : ChangeKind → ChangeKind → Option ChangeKind
  | .created, .created => some .created
  | .created, .modified => some .created
  | .created, .removed => none
  | .modified, kind => some kind
  | .removed, .created => some .modified
  | .removed, .modified => some .removed
  | .removed, .removed => some .removed

structure Pending where
  path : Path
  kind : ChangeKind
  deadline : Nat
  deriving DecidableEq, Repr

structure Debouncer where
  window : Nat
  pending : List Pending
  deriving DecidableEq, Repr

namespace Debouncer

def empty (window : Nat) : Debouncer := ⟨window, []⟩

def merge (path : Path) (kind : ChangeKind) (deadline : Nat) : List Pending → List Pending
  | [] => [⟨path, kind, deadline⟩]
  | p :: ps =>
    if p.path.same path then
      match p.kind.coalesce kind with
      | some kind => ⟨p.path, kind, deadline⟩ :: ps
      | none => ps
    else p :: merge path kind deadline ps

def record (d : Debouncer) (now : Nat) (path : Path) (kind : ChangeKind) : Debouncer :=
  { d with pending := merge path kind (now + d.window) d.pending }

def isReady (now : Nat) (p : Pending) : Bool :=
  p.deadline ≤ now

def ready (d : Debouncer) (now : Nat) : List Pending :=
  (d.pending.filter (isReady now)).mergeSort fun p q => !q.path.before p.path

def drain (d : Debouncer) (now : Nat) : Debouncer × List Change :=
  ({ d with pending := d.pending.filter (!isReady now ·) },
    (d.ready now).map fun p => ⟨p.path, p.kind⟩)

end Debouncer

end StaticSite.LiveReload
