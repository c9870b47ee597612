import StaticSite.Path
import StaticSite.Text.Search

namespace StaticSite.Config
open StaticSite.Text

structure ServerSettings where
  host : List Char
  port : UInt16
  deriving DecidableEq, Repr

structure ProjectSettings where
  sourceDir : Path
  componentsDir : List Char
  outDir : Path
  projectDir : Path
  deriving DecidableEq, Repr

def ProjectSettings.componentsRoot (p : ProjectSettings) : Path :=
  p.sourceDir.join ⟨p.componentsDir⟩

structure SpriteSettings where
  iconsDir : Path
  output : Path
  urlPath : List Char
  stripAttributes : List (List Char)
  deriving DecidableEq, Repr

def outputFor (outDir : Path) (urlPath : List Char) : Path :=
  outDir.join ⟨urlPath.dropWhile (· == '/')⟩

def SpriteSettings.buildOutput (s : SpriteSettings) (outDir : Path) : Path :=
  outputFor outDir s.urlPath

structure LiveReloadSettings where
  enabled : Bool
  watchPatterns : Option (List (List Char))
  deriving DecidableEq, Repr

structure Configuration where
  server : ServerSettings
  project : ProjectSettings
  sprite : SpriteSettings
  liveReload : LiveReloadSettings
  configPath : Option Path
  deriving DecidableEq, Repr

inductive ValidationError where
  | emptyHost
  | zeroPort
  | emptyComponentsDir
  | absoluteComponentsDir
  | relativeUrlPath
  | urlPathNotSvg
  deriving DecidableEq, Repr

def ValidationError.message : ValidationError → String
  | .emptyHost => "server.host cannot be empty"
  | .zeroPort => "server.port cannot be 0"
  | .emptyComponentsDir => "project.components_dir cannot be empty"
  | .absoluteComponentsDir => "project.components_dir must be relative to project.source_dir"
  | .relativeUrlPath => "sprite.url_path must start with /"
  | .urlPathNotSvg => "sprite.url_path must end with .svg"

def Configuration.problem? (c : Configuration) : Option ValidationError :=
  if c.server.host = [] then some .emptyHost
  else if c.server.port = 0 then some .zeroPort
  else if c.project.componentsDir = [] then some .emptyComponentsDir
  else if c.project.componentsDir.head? = some '/' then some .absoluteComponentsDir
  else if c.sprite.urlPath.head? ≠ some '/' then some .relativeUrlPath
  else if ¬ ".svg".toList.isSuffixOf c.sprite.urlPath then some .urlPathNotSvg
  else none

end StaticSite.Config
