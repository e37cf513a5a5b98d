import ClassWeave.Build.Plan

/-!
Building: the components of a plan are processed one after another in one session, and the first
failure ends the build. What was written before it stays written.
-/

namespace ClassWeave

open Files

structure Progress where
  disk : Disk
  session : Session
  output : String := ""
  files : Nat := 0
  ignored : Nat := 0

def fileName (relative : Path) : String :=
  .ofList (relative.text.map fun c => if c = '\x5c' then '/' else c)

def store (d : Disk) (target : Path) (code : String) : Except BuildFailure Unit × Disk :=
  let holder := target.parent?.getD ⟨[]⟩
  match d.makeDirectories holder with
  | (.error e, d) => (.error (.disk .createDirectory holder e), d)
  | (.ok (), d) =>
    match d.write target code with
    | .error e => (.error (.disk .write target e), d)
    | .ok d => (.ok (), d)

namespace Plan

def deliver (p : Plan) (g : Progress) (path : Path) (code : String) :
    Except BuildFailure Unit × Progress :=
  match p.outDir with
  | none => (.ok (), { g with output := g.output ++ code })
  | some dir =>
    if (p.relative path).isAbsolute then (.error (.outside path p.root), g)
    else
      let (r, disk) := store g.disk (dir.join (p.relative path)) code
      (r, { g with disk })

def processFile (p : Plan) (g : Progress) (path : Path) : Except BuildFailure Unit × Progress :=
  match g.disk.read path with
  | .error e => (.error (.disk .read path e), g)
  | .ok source =>
    match p.processor.process g.session (fileName (p.relative path)) source with
    | .error e => (.error (.component path e), g)
    | .ok (processed, session) =>
      match p.deliver { g with session } path processed.code with
      | (.error e, g) => (.error e, g)
      | (.ok (), g) =>
        (.ok (), { g with files := g.files + 1, ignored := g.ignored + processed.ignored.length })

def processFiles (p : Plan) (g : Progress) : List Path → Except BuildFailure Unit × Progress
  | [] => (.ok (), g)
  | path :: paths =>
    match p.processFile g path with
    | (.error e, g) => (.error e, g)
    | (.ok (), g) => p.processFiles g paths

def build (p : Plan) (d : Disk) : Except BuildFailure Unit × Progress :=
  let paths := p.filter.discover d
  let g : Progress := { disk := d, session := .start p.options }
  if p.outDir.isNone ∧ paths.length ≠ 1 then (.error (.notSingle paths.length), g)
  else p.processFiles g paths

end Plan

end ClassWeave
