import ClassWeave.Files.IgnoreRule

namespace ClassWeave.Files

inductive FilterFault
  | noPatterns
  | badPattern (pattern : String)
deriving DecidableEq, Repr

def FilterFault.message : FilterFault → String
  | noPatterns => "at least one input pattern is required"
  | badPattern pattern => s!"invalid glob pattern '{pattern}'"

structure FilterOptions where
  base : Path := .ofString "."
  respectsGit : Bool := true
  entersModules : Bool := false
  extensions : List String := ["svelte"]
deriving DecidableEq, Repr, Inhabited

structure Filter where
  selected : List Glob
  excluded : List Glob
  options : FilterOptions
deriving DecidableEq, Repr

namespace Filter

def readGlob (pattern : String) : Except FilterFault Glob :=
  (Glob.parse pattern.toList).mapError fun _ => .badPattern pattern

def ofPatterns (patterns ignored : List String) (options : FilterOptions) :
    Except FilterFault Filter := do
  if patterns.isEmpty then throw .noPatterns
  return ⟨← patterns.mapM readGlob, ← ignored.mapM readGlob, options⟩

def fits (f : Filter) (globs : List Glob) (p : Path) : Bool :=
  let accepted (p : Path) := globs.any (·.accepts true (Text.utf8 p.text))
  accepted (p.relativeTo f.options.base) || accepted p

def hasExtension (f : Filter) (p : Path) : Bool :=
  f.options.extensions.isEmpty ||
    match p.extension? with
    | some w => f.options.extensions.contains (String.ofList (w.map Char.toLower))
    | none => false

def inModules (p : Path) : Bool := p.components.contains (.name "node_modules".toList)

def accepts (f : Filter) (p : Path) : Bool :=
  f.fits f.selected p && !f.fits f.excluded p && f.hasExtension p &&
    (f.options.entersModules || !inModules p)

def sources (f : Filter) : List IgnoreSource :=
  if f.options.respectsGit then [.general, .repository, .checkout] else [.general]

def isReached (files : List IgnoreFile) (base : Location) (names : List Name) : Bool :=
  (List.range names.length).all fun n =>
    !isSkipped files (base ++ names.take (n + 1)) (n + 1 < names.length)

def discover (f : Filter) (d : Disk) : List Path :=
  match d.locate f.options.base with
  | .error _ => []
  | .ok base =>
    let paths :=
      if d.isDirectoryAt base then
        let ignoreFiles := f.sources.flatMap d.ignoreFiles
        ((d.filesBelow base).filter (isReached ignoreFiles base)).map fun names =>
          names.foldl (fun p name => p.join ⟨name⟩) f.options.base
      else [f.options.base]
    (paths.filter f.accepts).mergeSort fun p q => (p.compare q).isLE

end Filter

end ClassWeave.Files
