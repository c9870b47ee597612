import StaticSite.Config.Stated
import StaticSite.FileTree

namespace StaticSite.Config

structure Overrides where
  host : Option (List Char)
  port : Option UInt16
  sourceDir : Option Path
  outDir : Option Path
  spriteOutput : Option Path
  liveReload : Option Bool
  deriving DecidableEq, Repr

def Overrides.none : Overrides :=
  ⟨.none, .none, .none, .none, .none, .none⟩

def Overrides.apply (o : Overrides) (c : Configuration) : Configuration :=
  { c with
    server := ⟨o.host.getD c.server.host, o.port.getD c.server.port⟩
    project := { c.project with
      sourceDir := o.sourceDir.getD c.project.sourceDir
      outDir := o.outDir.getD c.project.outDir }
    sprite := { c.sprite with output := o.spriteOutput.getD c.sprite.output }
    liveReload := { c.liveReload with enabled := o.liveReload.getD c.liveReload.enabled } }

inductive ConfigError where
  | notFound (path : Path)
  | unreadable (cause : FileError)
  | malformed
  | invalid (cause : ValidationError)
  | unsetVariable (cause : Stated.UnsetVariable)
  deriving DecidableEq, Repr

def ConfigError.message : ConfigError → String
  | .notFound path => "Configuration file not found: " ++ path.display
  | .unreadable cause => "I/O error: " ++ cause.message
  | .malformed => "TOML parse error"
  | .invalid cause => "Configuration error: " ++ cause.message
  | .unsetVariable cause =>
    "Environment variable error in " ++ cause.field ++ ": $\x7b" ++ String.ofList cause.name ++
      "\x7d not set"

def Configuration.validate (c : Configuration) : Except ConfigError Configuration :=
  match c.problem? with
  | some e => .error (.invalid e)
  | none => .ok c

def defaults (base : Path) : Configuration :=
  Stated.nothing.resolve base

def fileName : Path := .ofString "weft.toml"

def baseOf (t : FileTree) (file : Path) : Path :=
  match file.parent? with
  | some parent => if parent.chars = [] then .ofLocation t.here else parent.absolute t.here
  | none => .ofLocation t.here

def ofFile (t : FileTree) (env : Environment) (file : Path) : Except ConfigError Configuration := do
  let source ← (t.readText file).mapError .unreadable
  match Stated.parse? source with
  | none => .error .malformed
  | some stated =>
    let stated ← (stated.expand env).mapError .unsetVariable
    { stated.resolve (baseOf t file) with configPath := some file }.validate

def upwards (l : Location) : List Location :=
  (List.range (l.length + 1)).map fun n => l.take (l.length - n)

def discover? (t : FileTree) : Option Path :=
  ((upwards t.here).map fun l => (Path.ofLocation l).join fileName).find? t.pathExists

/-- A file that is named must exist; else the nearest is used, if there is one. -/
def base (t : FileTree) (env : Environment) (named : Option Path) :
    Except ConfigError Configuration :=
  match named with
  | some file => if t.pathExists file then ofFile t env file else .error (.notFound file)
  | none =>
    match discover? t with
    | some file => ofFile t env file
    | none => .ok (defaults (.ofLocation t.here))

def load (t : FileTree) (env : Environment) (named : Option Path) (overrides : Option Overrides) :
    Except ConfigError Configuration := do
  let c ← base t env named
  match overrides with
  | some o => (o.apply c).validate
  | none => .ok c

end StaticSite.Config
