import StaticSite.Config.Basic
import StaticSite.Config.Variables
import StaticSite.Toml.Document

namespace StaticSite.Config
open StaticSite.Toml

structure Stated where
  host : Option (List Char)
  port : Option UInt16
  sourceDir : Option (List Char)
  componentsDir : Option (List Char)
  outDir : Option (List Char)
  iconsDir : Option (List Char)
  output : Option (List Char)
  urlPath : Option (List Char)
  stripAttributes : Option (List (List Char))
  liveReload : Option Bool
  watchPatterns : Option (List (List Char))
  deriving DecidableEq, Repr

namespace Stated

def nothing : Stated :=
  ⟨none, none, none, none, none, none, none, none, none, none, none⟩

def string? : Value → Option (List Char)
  | .string cs => some cs
  | _ => none

def strings? : Value → Option (List (List Char))
  | .array vs => vs.mapM string?
  | .tables [] => some []
  | _ => none

def port? : Value → Option UInt16
  | .integer n => if 0 ≤ n ∧ n < 65536 then some n.toNat.toUInt16 else none
  | _ => none

def boolean? : Value → Option Bool
  | .boolean b => some b
  | _ => none

def fields? (names : List String) : Option Value → Option Entries
  | none => some []
  | some (.table _ entries) => some entries
  | some (.array vs) => some ((names.map String.toList).zip vs)
  | some (.tables es) => some ((names.map String.toList).zip (es.reverse.map (.table .header)))
  | some _ => none

def field? (read : Value → Option α) (entries : Entries) (name : String) : Option (Option α) :=
  match entries.get? name.toList with
  | none => some none
  | some v => (read v).map some

def ofEntries? (entries : Entries) : Option Stated := do
  let section? (name : String) (names : List String) : Option Entries :=
    fields? names (entries.get? name.toList)
  let server ← section? "server" ["host", "port"]
  let project ← section? "project" ["source_dir", "components_dir", "out_dir"]
  let sprite ← section? "sprite" ["icons_dir", "output", "url_path", "strip_attributes"]
  let liveReload ← section? "live_reload" ["enabled", "watch_patterns"]
  some {
    host := ← field? string? server "host"
    port := ← field? port? server "port"
    sourceDir := ← field? string? project "source_dir"
    componentsDir := ← field? string? project "components_dir"
    outDir := ← field? string? project "out_dir"
    iconsDir := ← field? string? sprite "icons_dir"
    output := ← field? string? sprite "output"
    urlPath := ← field? string? sprite "url_path"
    stripAttributes := ← field? strings? sprite "strip_attributes"
    liveReload := ← field? boolean? liveReload "enabled"
    watchPatterns := ← field? strings? liveReload "watch_patterns" }

def parse? (source : List Char) : Option Stated :=
  (Toml.parse? source).bind ofEntries?

structure UnsetVariable where
  field : String
  name : List Char
  deriving DecidableEq, Repr

def expandField (env : Environment) (field : String) (value : Option (List Char)) :
    Except UnsetVariable (Option (List Char)) :=
  match value with
  | none => .ok none
  | some cs => ((expandVariables env cs).mapError (⟨field, ·⟩)).map some

def expand (env : Environment) (s : Stated) : Except UnsetVariable Stated := do
  let host ← expandField env "server.host" s.host
  let sourceDir ← expandField env "project.source_dir" s.sourceDir
  let outDir ← expandField env "project.out_dir" s.outDir
  let iconsDir ← expandField env "sprite.icons_dir" s.iconsDir
  let output ← expandField env "sprite.output" s.output
  .ok { s with host, sourceDir, outDir, iconsDir, output }

def resolve (s : Stated) (base : Path) : Configuration :=
  let under (path : Option (List Char)) (default : String) : Path :=
    base.join ⟨path.getD default.toList⟩
  let projectDir := base.join (.ofString ".weft")
  { server := ⟨s.host.getD "127.0.0.1".toList, s.port.getD 5173⟩
    project :=
      ⟨under s.sourceDir "src", s.componentsDir.getD "components".toList, under s.outDir "dist",
        projectDir⟩
    sprite :=
      ⟨under s.iconsDir "src/icons",
        match s.output with
        | some path => base.join ⟨path⟩
        | none => projectDir.join (.ofString "sprite.svg"),
        s.urlPath.getD "/sprite.svg".toList, s.stripAttributes.getD ["data-name".toList]⟩
    liveReload := ⟨s.liveReload.getD true, s.watchPatterns⟩
    configPath := none }

end Stated

end StaticSite.Config
