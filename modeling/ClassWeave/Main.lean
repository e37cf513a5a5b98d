import ClassWeave.Command.Run

namespace ClassWeave.Main

open Files

def usage : String :=
  "usage: (build | watch) [-c PATH] [--mode MODE] [--prefix TEXT] [-o DIR] [-I GLOB]...\n" ++
  "  [--ext EXT]... [--root DIR] [--no-gitignore] [--poll] [--poll-interval MS] GLOB..."

def textOf (l : Location) : String := (Plan.absolute l).toString

def locationOf (text : String) : Location :=
  (text.toList.splitOn '/').filter (!·.isEmpty)

def upTo (l : Location) : List Location := (List.range (l.length + 1)).map fun n => l.take n

def place? (path : String) : IO (Option Location) := do
  try return some (locationOf (← IO.FS.realPath path).toString)
  catch _ => return none

partial def loadBelow (keeps : Name → Bool) (l : Location) : IO (List (Location × Node)) := do
  let entries ← try (← IO.FS.realPath (textOf l)).readDir catch _ => pure #[]
  let nodes ← entries.toList.mapM fun e => do
    let name := e.fileName.toList
    let place := l ++ [name]
    match (← e.path.symlinkMetadata).type with
    | .dir => return (place, Node.directory) :: (← loadBelow keeps place)
    | .file =>
      return [(place, .file (← if keeps name then IO.FS.readBinFile e.path else pure .empty))]
    | _ => return []
  return nodes.flatten

def putNew (d : Disk) (l : Location) (n : Node) : Disk :=
  if (d.node? l).isSome then d else d.put l n

def loadPlace (d : Disk) (path : String) : IO Disk := do
  match ← place? path with
  | none => return d
  | some l =>
    let d := (upTo l).dropLast.foldl (fun d l => putNew d l .directory) d
    if ← (← IO.FS.realPath path).isDir then return putNew d l .directory
    else return d.put l (.file (← IO.FS.readBinFile path))

def ignoreNames : List String := [".ignore", ".gitignore", ".git/info/exclude"]

def keeps (args : BuildArgs) (name : Name) : Bool :=
  let all : Filter := ⟨[], [], Plan.filterOptions args⟩
  all.hasExtension ⟨name⟩ || [".ignore", ".gitignore", "exclude"].contains (String.ofList name)

def load (args : BuildArgs) : IO Disk := do
  let here := locationOf (← IO.currentDir).toString
  let root ← place? args.root.toString
  let below ← match root with
    | some l => loadBelow (keeps args) l
    | none => pure []
  let mut d ← loadPlace ⟨below, here⟩ "."
  for l in (root.map upTo).getD [] do
    for name in ignoreNames do
      d ← loadPlace d (textOf l ++ "/" ++ name)
  d ← loadPlace d args.root.toString
  for path in args.config.toList do
    d ← loadPlace d path.toString
  for dir in args.outDir.toList do
    for path in dir :: dir.above do
      d ← loadPlace d path.toString
    for l in (← place? dir.toString).toList do
      d := (← loadBelow (fun _ => false) l).foldl (fun d e => putNew d e.1 e.2) d
  return d

def save (before after : Disk) : IO Unit := do
  for (l, n) in after.nodes.reverse do
    if before.node? l != some n then
      match n with
      | .directory => IO.FS.createDirAll (textOf l)
      | .file contents => IO.FS.writeBinFile (textOf l) contents

def fail (e : BuildFailure) : IO UInt32 := do
  IO.eprintln s!"error: {e.message}"
  return 1

partial def follow (args : BuildArgs) (polling : Polling) (w : Watch) : IO UInt32 := do
  IO.sleep (UInt32.ofNat polling.interval)
  let d ← load args
  let (w, results) := w.refresh d
  for (path, r) in results do
    IO.eprintln s!"change detected, reprocessing {(w.plan.relative path).toString}"
    match r with
    | .error e => IO.eprintln s!"build failed: {e.message}"
    | .ok () => pure ()
  IO.print w.progress.output
  save d w.progress.disk
  follow args polling w

def argsOf : Command → BuildArgs × Polling
  | .build args => (args, {})
  | .watch args polling => (args, polling)

def runCommand (c : Command) : IO UInt32 := do
  let started ← IO.monoMsNow
  let (args, polling) := argsOf c
  let d ← load args
  let o := c.run d
  save d o.disk
  IO.print o.output
  match o.notice with
  | some (.built files tags ignored) =>
    let elapsed := (← IO.monoMsNow) - started
    IO.eprintln s!"{(Notice.built files tags ignored).text} in {elapsed}ms"
  | some n => IO.eprintln n.text
  | none => pure ()
  match o.failure, o.watch with
  | some e, _ => fail e
  | none, some w => do
    IO.eprintln "watching for changes (press Ctrl+C to stop)..."
    follow args polling w
  | none, none => return 0

end ClassWeave.Main

def main (args : List String) : IO UInt32 := do
  match ClassWeave.Command.ofArgs? args with
  | some c => ClassWeave.Main.runCommand c
  | none =>
    IO.eprintln ClassWeave.Main.usage
    return 2
