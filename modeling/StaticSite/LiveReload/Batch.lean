import StaticSite.LiveReload.Debouncer
import StaticSite.LiveReload.Scope
import StaticSite.Sprite.Compiler

namespace StaticSite.LiveReload
open StaticSite.Sprite

structure Notice where
  kind : Option ChangeKind
  paths : List Path
  deriving DecidableEq, Repr

inductive Message where
  | sprite (timestamp : Nat)
  | reload (url : List Char)
  deriving DecidableEq, Repr

def recordNotice (s : Scope) (now : Nat) (d : Debouncer) (n : Notice) : Debouncer :=
  match n.kind with
  | none => d
  | some kind =>
    (n.paths.filter fun path => (s.classify path).isSome).foldl (·.record now · kind) d

def effects (s : Scope) (changes : List Change) : List Effect :=
  changes.filterMap fun c => s.classify c.path

def reloads (es : List Effect) : List Message :=
  es.filterMap fun
    | .page url => some (.reload url)
    | .icon => none

/-- Any number of changed icons are compiled once, and before pages reload. A sprite that cannot be
compiled is not announced. -/
def handle (s : Scope) (c : Compiler) (now : Nat) (t : FileTree) (changes : List Change) :
    FileTree × List Message :=
  let es := effects s changes
  if Effect.icon ∈ es then
    match c.compile t with
    | (t, .ok _) => (t, .sprite now :: reloads es)
    | (t, .error _) => (t, reloads es)
  else (t, reloads es)

end StaticSite.LiveReload
