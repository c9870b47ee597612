import StaticSite.LiveReload.Scope

namespace StaticSite.LiveReload

inductive WatchError where
  | nothingThere
  | unusable (cause : FileError)
  deriving DecidableEq, Repr

def WatchError.message : WatchError → String
  | .nothingThere => "No path was found."
  | .unusable cause => cause.message

def ensureDirectory (t : FileTree) (dir : Path) : FileTree × Except FileError Unit :=
  if t.isDirectory dir then (t, .ok ()) else t.createDirectories dir

def watch (t : FileTree) (root : Path) : Except WatchError Unit :=
  match t.find ((Path.ofLocation t.here).join root) with
  | .ok _ => .ok ()
  | .error .notFound => .error .nothingThere
  | .error e => .error (.unusable e)

def start (t : FileTree) (sourceDir iconsDir : Path) (patterns : List (List Char)) :
    FileTree × Except WatchError Scope :=
  match ensureDirectory t iconsDir with
  | (t, .error e) => (t, .error (.unusable e))
  | (t, .ok _) =>
    let s := Scope.ofDirectories t sourceDir iconsDir patterns
    (t, (s.roots t).forM (watch t) |>.map fun _ => s)

end StaticSite.LiveReload
