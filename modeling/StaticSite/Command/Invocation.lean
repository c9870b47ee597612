import StaticSite.Command.Arguments
import StaticSite.Config.Load

namespace StaticSite.Command
open StaticSite.Config

inductive Task where
  | serve
  | build
  | sprite
  deriving DecidableEq, Repr

namespace Task

def ofName? (name : List Char) : Option Task :=
  if name = "serve".toList then some .serve
  else if name = "build".toList then some .build
  else if name = "sprite".toList then some .sprite
  else none

def configOption : Opt := ⟨"config".toList, some 'c', .path, none⟩

def verboseOption : Opt := ⟨"verbose".toList, some 'v', .flag, none⟩

def options : Task → List Opt
  | .build => [configOption, ⟨"out-dir".toList, some 'o', .path, none⟩, verboseOption]
  | .sprite => [configOption, ⟨"output".toList, some 'o', .path, none⟩, verboseOption]
  | .serve =>
    [configOption, ⟨"source-dir".toList, some 's', .path, none⟩,
      ⟨"host".toList, none, .text, some "WEFT_HOST".toList⟩,
      ⟨"port".toList, some 'p', .port, some "WEFT_PORT".toList⟩, verboseOption,
      ⟨"live-reload".toList, none, .truth, none⟩, ⟨"no-live-reload".toList, none, .flag, none⟩]

end Task

structure Invocation where
  task : Task
  config : Option Path
  overrides : Overrides
  verbose : Bool
  deriving DecidableEq, Repr

namespace Invocation

def ofGiven (task : Task) (g : Given) : Except Stop Invocation :=
  let value? (name : String) := g.lookup name.toList
  let off := (value? "no-live-reload").isSome
  if off ∧ (value? "live-reload").isSome then .error .misuse
  else .ok
    { task
      config := (value? "config").map Path.mk
      overrides :=
        { host := value? "host"
          port := (value? "port").bind port?
          sourceDir := (value? "source-dir").map Path.mk
          outDir := (value? "out-dir").map Path.mk
          spriteOutput := (value? "output").map Path.mk
          liveReload := if off then some false else (value? "live-reload").bind truth? }
      verbose := (value? "verbose").isSome }

def question (argument : List Char) (rest : List (List Char)) : Stop :=
  if argument = "help".toList then
    match rest with
    | [] => .help
    | [name] => if (Task.ofName? name).isSome ∨ name = "help".toList then .help else .misuse
    | _ => .misuse
  else if argument = "--help".toList then .help
  else if argument = "--version".toList then .version
  else
    match argument with
    | '-' :: 'h' :: _ => .help
    | '-' :: 'V' :: _ => .version
    | _ => .misuse

def ofArguments (env : Environment) : List (List Char) → Except Stop Invocation
  | [] => .error .misuse
  | argument :: rest =>
    match Task.ofName? argument with
    | some task => do ofGiven task (← readOptions env task.options rest)
    | none => .error (question argument rest)

end Invocation

def usage : List String :=
  ["weft - static site toolkit.", "", "Usage: weft <COMMAND>", "", "Commands:",
    "  serve   Start the development server",
    "          [-c FILE] [-s DIR] [--host HOST] [-p PORT] [-v]",
    "          [--live-reload true|false] [--no-live-reload]",
    "  build   Build the site into the output directory [-c FILE] [-o DIR] [-v]",
    "  sprite  Compile the icon sprite [-c FILE] [-o FILE] [-v]"]

def versionText : String := "weft 0.1.0"

end StaticSite.Command
