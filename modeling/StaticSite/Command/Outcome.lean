import StaticSite.Build
import StaticSite.Command.Invocation
import StaticSite.Server.Start

namespace StaticSite.Command
open StaticSite.Config

structure Outcome where
  tree : FileTree
  code : Nat
  printed : List String
  reported : List String
  deriving DecidableEq, Repr

namespace Outcome

def success (t : FileTree) (reported : List String) : Outcome := ⟨t, 0, [], reported⟩

def failure (t : FileTree) (reported : List String) (message : String) : Outcome :=
  ⟨t, 1, [], reported ++ ["Error: " ++ message]⟩

end Outcome

def detail (text : String) : String := "  " ++ text

def problems (r : Sprite.Report) : List String :=
  (r.skipped.map fun s => "Skipped icon " ++ s.path.display ++ ": " ++ s.reason.message) ++
    r.collisions.map fun c =>
      "Duplicate icon id \"" ++ String.ofList c.id ++ "\": " ++ c.kept.display ++ " replaces " ++
        c.replaced.display

def count (n : Nat) : String := toString n

def runBuild (t : FileTree) (p : Build.Plan) : Outcome :=
  let start := "Building " ++ p.sourceDir.display ++ " into " ++ p.outDir.display
  match Build.build t p with
  | (t, .error e) => .failure t [start] e.message
  | (t, .ok r) =>
    let sprite :=
      if r.sprite.written then
        "Sprite: " ++ count r.sprite.symbols.length ++ " symbols -> " ++ p.spriteOutput.display
      else "Sprite: no icons found"
    .success t ([start] ++
      (r.diagnostics.map fun d => d.page.display ++ ": " ++ String.ofList d.diagnostic.text) ++
      problems r.sprite ++ [detail sprite,
        "Built " ++ count r.pages.length ++ " pages (" ++ count r.diagnostics.length ++
          " import problems)"])

def ignoreRule : Content := .text "# Automatically created by weft\n*\n".toList

def ensureProjectDirectory (t : FileTree) (dir : Path) : FileTree × Except FileError Unit :=
  let ignoreFile := dir.join (.ofString ".gitignore")
  match t.createDirectories dir with
  | (t, .error e) => (t, .error e)
  | (t, .ok _) =>
    if t.pathExists ignoreFile then (t, .ok ())
    else
      match t.write ignoreFile ignoreRule with
      | .ok t => (t, .ok ())
      | .error e => (t, .error e)

def prepareSprite (t : FileTree) (c : Configuration) : FileTree × Except FileError Unit :=
  if c.sprite.output.startsWith c.project.projectDir then
    ensureProjectDirectory t c.project.projectDir
  else (t, .ok ())

def runSprite (t : FileTree) (c : Configuration) : Outcome :=
  match prepareSprite t c with
  | (t, .error e) => .failure t [] e.message
  | (t, .ok _) =>
    match (Server.Options.ofConfiguration c false).compiler.compile t with
    | (t, .error e) => .failure t [] e.message
    | (t, .ok r) =>
      .success t (problems r ++
        [if r.written then
          "Compiled " ++ count r.symbols.length ++ " symbols into " ++ c.sprite.output.display
        else "No icons found in " ++ c.sprite.iconsDir.display ++ "; sprite not written"])

def runServe (t : FileTree) (o : Server.Options) (projectDir : Path) : Outcome :=
  let start :=
    ["Starting server on http://" ++ String.ofList o.host ++ ":" ++ toString o.port.toNat,
      detail ("Source directory: " ++ o.sourceDir.display),
      detail ("Icons directory: " ++ o.iconsDir.display),
      detail (if o.liveReload then "Live reload: enabled" else "Live reload: disabled")]
  match ensureProjectDirectory t projectDir with
  | (t, .error e) => .failure t [] e.message
  | (t, .ok _) =>
    match Server.start t o with
    | (t, .error e) => .failure t start e.message
    | (t, .ok _) => .success t start

def Invocation.run (i : Invocation) (t : FileTree) (env : Environment) : Outcome :=
  match Config.load t env i.config (some i.overrides) with
  | .error e => .failure t [] e.message
  | .ok c =>
    match i.task with
    | .build => runBuild t (.ofConfiguration c)
    | .sprite => runSprite t c
    | .serve => runServe t (.ofConfiguration c i.verbose) c.project.projectDir

def run (t : FileTree) (env : Environment) (arguments : List (List Char)) : Outcome :=
  match Invocation.ofArguments env arguments with
  | .ok i => i.run t env
  | .error .help => ⟨t, 0, usage, []⟩
  | .error .version => ⟨t, 0, [versionText], []⟩
  | .error .misuse => ⟨t, 2, [], usage⟩

end StaticSite.Command
