import ClassWeave.Failure
import ClassWeave.Files.Filter

namespace ClassWeave

open Files

inductive DiskAction
  | resolveRoot
  | read
  | createDirectory
  | write
deriving DecidableEq, Repr

def DiskAction.text : DiskAction → String
  | resolveRoot => "resolve root"
  | read => "read"
  | createDirectory => "create directory"
  | write => "write"

inductive BuildFailure
  | configUnread (path : Path) (fault : DiskFault)
  | configMalformed (path : Path)
  | filter (fault : FilterFault)
  | disk (action : DiskAction) (path : Path) (fault : DiskFault)
  | component (path : Path) (failure : Failure)
  | unwatched (path : Path) (fault : DiskFault)
  | notSingle (count : Nat)
  | outside (path root : Path)
deriving DecidableEq, Repr

def BuildFailure.message : BuildFailure → String
  | configUnread path fault => s!"failed to read config {path.toString}: {fault.message}"
  | configMalformed path => s!"failed to parse config {path.toString}"
  | filter fault => fault.message
  | disk action path fault => s!"failed to {action.text} {path.toString}: {fault.message}"
  | component path failure => s!"{path.toString}: {failure.message}"
  | unwatched path fault => s!"failed to watch {path.toString}: {fault.message}"
  | notSingle count => s!"{count} files matched; pass --out-dir to process more than one"
  | outside path root => s!"{path.toString} is outside {root.toString}"

end ClassWeave
