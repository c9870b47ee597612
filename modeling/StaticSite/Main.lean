import StaticSite.Command.Outcome

namespace StaticSite.Command
open StaticSite.Config

partial def readPlace (above : List String) (t : FileTree) (l : Location) : IO FileTree := do
  let path := (Path.ofLocation l).display
  try
    let place ← IO.FS.realPath path
    if !(← place.isDir) then
      return t.set l (.file (.ofBytes (← IO.FS.readBinFile path).toList))
    else if above.contains place.toString then
      return t
    else
      let mut t := if l.isEmpty then t else t.set l .directory
      for e in ← place.readDir do
        t ← readPlace (place.toString :: above) t (l ++ [e.fileName.toList])
      return t
  catch _ => return t

def readWay (t : FileTree) (l : Location) : IO FileTree := do
  let mut t := t
  for above in upwards l do
    let path := (Path.ofLocation above).display
    if !above.isEmpty && (t.get? above).isNone then
      try
        let place ← IO.FS.realPath path
        if ← place.isDir then
          t := t.set above .directory
        else
          t := t.set above (.file (.ofBytes (← IO.FS.readBinFile path).toList))
      catch _ => pure ()
    t ← readPlace [] t (above ++ [Config.fileName.chars])
  return t

def places (c : Configuration) : List Path :=
  [c.project.sourceDir, c.project.outDir, c.project.projectDir, c.sprite.iconsDir, c.sprite.output]

def mentioned (text : List Char) : List (List Char) :=
  let (names, last) := text.foldr (fun c (names, name) =>
    if isNameChar c then (names, c :: name) else (name :: names, [])) ([], [])
  last :: names

def readEnvironment (t : FileTree) (task : Task) (files : List Path) : IO Environment := do
  let texts := files.filterMap fun file => (t.readText file).toOption
  let names := task.options.filterMap (·.source) ++ texts.flatMap mentioned
  let entries ← names.mapM fun name => do
    return (name, (← IO.getEnv (String.ofList name)).map fun v => Content.text v.toList)
  return fun name => (entries.lookup name).join

def writeChanges (before after : FileTree) : IO Unit := do
  for (l, content) in FileTree.changedFiles before after do
    IO.FS.createDirAll (Path.ofLocation l.dropLast).display
    IO.FS.writeBinFile (Path.ofLocation l).display content.toBytes.toByteArray
  for l in FileTree.newEmptyDirectories before after do
    IO.FS.createDirAll (Path.ofLocation l).display

/-- The files that an invocation may need: those of the working directory and of every directory
that its configuration names. -/
def readFiles (here : Location) (arguments : List (List Char)) : IO (FileTree × Environment) := do
  let mut t ← readPlace [] (← readWay (.empty here) here) here
  let given := match Invocation.ofArguments (fun _ => none) arguments with
    | .ok i => some i
    | .error _ => none
  let named := (given.bind (·.config)).toList
  for file in named do
    t ← readPlace [] (← readWay t (file.location here)) (file.location here)
  let task := (arguments.head?.bind Task.ofName?).getD .build
  let env ← readEnvironment t task (named ++ (discover? t).toList)
  if let some i := given then
    if let .ok c := load t env i.config (some i.overrides) then
      for place in places c do
        t ← readPlace [] (← readWay t (place.location here)) (place.location here)
  return (t, env)

def execute (arguments : List String) : IO UInt32 := do
  let here := Path.location [] (.ofString (← IO.currentDir).toString)
  let arguments := arguments.map String.toList
  let (t, env) ← readFiles here arguments
  let o := run t env arguments
  writeChanges t o.tree
  o.printed.forM fun line => IO.println line
  o.reported.forM fun line => IO.eprintln line
  return o.code.toUInt32

end StaticSite.Command

def main (arguments : List String) : IO UInt32 :=
  StaticSite.Command.execute arguments
