import StaticSite.Config.Basic
import StaticSite.Sprite.Compiler

namespace StaticSite.Server

structure Options where
  host : List Char
  port : UInt16
  sourceDir : Path
  componentsDir : List Char
  iconsDir : Path
  spriteOutput : Path
  spriteUrlPath : List Char
  stripAttributes : List (List Char)
  liveReload : Bool
  watchPatterns : Option (List (List Char))
  verbose : Bool
  deriving DecidableEq, Repr

namespace Options

def standard : Options where
  host := "127.0.0.1".toList
  port := 5173
  sourceDir := .ofString "src"
  componentsDir := "components".toList
  iconsDir := .ofString "src/icons"
  spriteOutput := .ofString ".weft/sprite.svg"
  spriteUrlPath := "/sprite.svg".toList
  stripAttributes := ["data-name".toList]
  liveReload := false
  watchPatterns := none
  verbose := false

def ofConfiguration (c : Config.Configuration) (verbose : Bool) : Options :=
  ⟨c.server.host, c.server.port, c.project.sourceDir, c.project.componentsDir, c.sprite.iconsDir,
    c.sprite.output, c.sprite.urlPath, c.sprite.stripAttributes, c.liveReload.enabled,
    c.liveReload.watchPatterns, verbose⟩

def compiler (o : Options) : Sprite.Compiler :=
  ⟨o.iconsDir, o.spriteOutput, .strippingAttributes o.stripAttributes⟩

end Options

end StaticSite.Server
