import ClassWeave.Build.Run

namespace ClassWeave

open Files

def watchRoot (pattern : String) : Path :=
  let parts := pattern.toList.splitOnP fun c => c == '/' || c == '\x5c'
  let literal := parts.takeWhile fun w =>
    !w.any fun c => c == '*' || c == '?' || c == '[' || c == '\x7b'
  let kept := if literal.length = parts.length then literal.dropLast else literal
  let start : Path := if pattern.toList.head? = some '/' then ⟨['/']⟩ else ⟨[]⟩
  let root := (kept.filter (!·.isEmpty)).foldl (fun p w => p.join ⟨w⟩) start
  if root.isEmpty then .ofString "." else root

def distinctPaths (paths : List Path) : List Path :=
  paths.foldl (fun known p =>
    if known.any fun q => q.components == p.components then known else known ++ [p]) []

def watchRoots (patterns : List String) : List Path := distinctPaths (patterns.map watchRoot)

structure Watch where
  plan : Plan
  progress : Progress
  roots : List Path

namespace Watch

def unwatched? (polling : Polling) (d : Disk) (roots : List Path) : Option BuildFailure :=
  if polling.enabled then none
  else
    roots.findSome? fun root =>
      match d.locate root with
      | .error e => some (.unwatched root e)
      | .ok _ => none

def concerns (w : Watch) (d : Disk) (path : Path) : Bool :=
  w.roots.any path.isUnder && w.plan.filter.accepts path &&
    (d.readBytes path).toOption != (w.progress.disk.readBytes path).toOption

def changed (w : Watch) (d : Disk) : List Path :=
  match d.locate w.plan.root with
  | .error _ => []
  | .ok base =>
    let paths := (d.filesBelow base).map fun names =>
      names.foldl (fun p name => p.join ⟨name⟩) w.plan.root
    (paths.filter (w.concerns d)).mergeSort fun p q => (p.compare q).isLE

def refresh (w : Watch) (d : Disk) : Watch × List (Path × Except BuildFailure Unit) :=
  let start : Progress := { w.progress with disk := d, output := "" }
  let (g, results) := (w.changed d).foldl (fun (g, results) path =>
    let (r, g) := w.plan.processFile g path
    (g, results ++ [(path, r)])) (start, [])
  ({ w with progress := g }, results)

end Watch

end ClassWeave
