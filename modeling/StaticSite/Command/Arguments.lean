import StaticSite.Environment
import StaticSite.Text.Search

namespace StaticSite.Command
open StaticSite.Text

inductive ValueKind where
  | flag
  | path
  | text
  | port
  | truth
  deriving DecidableEq, Repr

structure Opt where
  long : List Char
  short : Option Char
  kind : ValueKind
  source : Option (List Char)
  deriving DecidableEq, Repr

inductive Stop where
  | help
  | version
  | misuse
  deriving DecidableEq, Repr

def natural? (cs : List Char) : Option Nat :=
  if cs ≠ [] ∧ cs.all Char.isDigit then some (cs.foldl (fun n c => 10 * n + (c.toNat - 48)) 0)
  else none

def integer? : List Char → Option Int
  | '-' :: cs => (natural? cs).map fun n => -(n : Int)
  | '+' :: cs => (natural? cs).map Int.ofNat
  | cs => (natural? cs).map Int.ofNat

def port? (cs : List Char) : Option UInt16 := do
  let n ← integer? cs
  if 0 ≤ n ∧ n < 65536 then some (UInt16.ofNat n.toNat) else none

def truth? (cs : List Char) : Option Bool :=
  if cs = "true".toList then some true
  else if cs = "false".toList then some false
  else none

def ValueKind.accepts (v : List Char) : ValueKind → Bool
  | .flag => true
  | .path => v ≠ []
  | .text => true
  | .port => (port? v).isSome
  | .truth => (truth? v).isSome

abbrev Given := List (List Char × List Char)

def give (o : Opt) (v : List Char) (g : Given) : Except Stop Given :=
  if (g.lookup o.long).isSome || !o.kind.accepts v then .error .misuse
  else .ok (g ++ [(o.long, v)])

structure Reading where
  given : Given
  waiting : Option Opt
  ended : Bool
  deriving DecidableEq, Repr

def Reading.start : Reading := ⟨[], none, false⟩

def looksLikeOption (argument : List Char) : Bool :=
  argument.head? = some '-' ∧ argument ≠ ['-']

def readShort (options : List Opt) (r : Reading) : List Char → Except Stop Reading
  | [] => .ok r
  | c :: cs =>
    match options.find? (·.short = some c) with
    | none => .error (if c = 'h' then .help else .misuse)
    | some o =>
      if o.kind = .flag then do
        readShort options { r with given := ← give o [] r.given } cs
      else
        match cs with
        | [] => .ok { r with waiting := some o }
        | '=' :: v => do .ok { r with given := ← give o v r.given }
        | v => do .ok { r with given := ← give o v r.given }

def readLong (options : List Opt) (r : Reading) (text : List Char) : Except Stop Reading :=
  let name := text.takeWhile (· != '=')
  let value := (splitAt? ['='] text).map (·.2)
  match options.find? (·.long = name), value with
  | none, none => .error (if name = "help".toList then .help else .misuse)
  | none, some _ => .error .misuse
  | some o, none =>
    if o.kind = .flag then do .ok { r with given := ← give o [] r.given }
    else .ok { r with waiting := some o }
  | some o, some v =>
    if o.kind = .flag then .error .misuse else do .ok { r with given := ← give o v r.given }

def readArgument (options : List Opt) (r : Reading) (argument : List Char) :
    Except Stop Reading :=
  match r.waiting with
  | some o =>
    if looksLikeOption argument then .error .misuse
    else do .ok { r with given := ← give o argument r.given, waiting := none }
  | none =>
    if r.ended then .error .misuse
    else
      match argument with
      | ['-', '-'] => .ok { r with ended := true }
      | '-' :: '-' :: text => readLong options r text
      | '-' :: c :: cs => readShort options r (c :: cs)
      | _ => .error .misuse

def fromEnvironment (env : Environment) (g : Given) (o : Opt) : Except Stop Given :=
  match g.lookup o.long, o.source.bind env with
  | none, some (.text v) => give o v g
  | none, some (.binary _) => .error .misuse
  | _, _ => .ok g

def readOptions (env : Environment) (options : List Opt) (arguments : List (List Char)) :
    Except Stop Given := do
  let r ← arguments.foldlM (readArgument options) .start
  if r.waiting.isSome then .error .misuse else options.foldlM (fromEnvironment env) r.given

end StaticSite.Command
