import ClassWeave.Build.Failure
import ClassWeave.Command.Args
import ClassWeave.Config
import ClassWeave.Process

namespace ClassWeave

open Files

/-- Paths are taken from below `rootPlace`, the root as an absolute path, or else from below `root`
as it was given. -/
structure Plan where
  processor : Processor
  options : Options
  filter : Filter
  outDir : Option Path
  root : Path
  rootPlace : Path

namespace Plan

def loadConfig (d : Disk) (path : Path) : Except BuildFailure Config :=
  match d.read path with
  | .error e => .error (.configUnread path e)
  | .ok text =>
    match Config.parse? text with
    | some config => .ok config
    | none => .error (.configMalformed path)

def config (args : BuildArgs) (d : Disk) : Except BuildFailure Config :=
  match args.config with
  | some path => loadConfig d path
  | none => .ok {}

def optionsOf (args : BuildArgs) (config : Config) : Options :=
  ⟨args.classStem.getD config.options.classStem, args.mode.getD config.options.mode⟩

def absolute (l : Location) : Path := ⟨'/' :: Path.joinPieces l⟩

def ignored (args : BuildArgs) : List String :=
  args.ignore ++ args.outDir.toList.map fun dir => (dir.relativeTo args.root).toString ++ "/**"

def extensionOf (text : String) : String :=
  .ofList ((text.toList.dropWhile (· == '.')).map Char.toLower)

def filterOptions (args : BuildArgs) : FilterOptions :=
  { base := args.root
    respectsGit := !args.noGitignore
    extensions := args.extensions.map extensionOf }

def ofArgs (args : BuildArgs) (d : Disk) : Except BuildFailure Plan := do
  let config ← config args d
  let place ← (d.locate args.root).mapError (.disk .resolveRoot args.root)
  let filter ←
    (Filter.ofPatterns args.inputs (ignored args) (filterOptions args)).mapError .filter
  return ⟨⟨config.table.resolver, Markup.Component.parse⟩, optionsOf args config, filter,
    args.outDir, args.root, absolute place⟩

def relative (p : Plan) (path : Path) : Path :=
  ((path.below? p.rootPlace).or (path.below? p.root)).getD path

end Plan

end ClassWeave
