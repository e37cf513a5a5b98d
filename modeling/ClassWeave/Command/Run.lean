import ClassWeave.Command.Watch

namespace ClassWeave

open Files

inductive Notice
  | built (files tags ignored : Nat)
  | processed (files : Nat)
deriving DecidableEq, Repr

def Notice.text : Notice → String
  | built files tags ignored =>
    s!"processed {files} files, {tags} tags, {ignored} ignored classes"
  | processed files => s!"processed {files} files"

structure Outcome where
  failure : Option BuildFailure
  disk : Disk
  output : String := ""
  notice : Option Notice := none
  watch : Option Watch := none

namespace Command

def runBuild (args : BuildArgs) (d : Disk) : Outcome :=
  match Plan.ofArgs args d with
  | .error e => ⟨some e, d, "", none, none⟩
  | .ok plan =>
    match plan.build d with
    | (.error e, g) => ⟨some e, g.disk, g.output, none, none⟩
    | (.ok (), g) =>
      ⟨none, g.disk, g.output, some (.built g.files g.session.close.tags g.ignored), none⟩

def runWatch (args : BuildArgs) (polling : Polling) (d : Disk) : Outcome :=
  match Plan.ofArgs args d with
  | .error e => ⟨some e, d, "", none, none⟩
  | .ok plan =>
    match plan.build d with
    | (.error e, g) => ⟨some e, g.disk, g.output, none, none⟩
    | (.ok (), g) =>
      let roots := (watchRoots args.inputs).map plan.root.join
      let failure := Watch.unwatched? polling g.disk roots
      ⟨failure, g.disk, g.output, some (.processed g.files),
        if failure.isNone then some ⟨plan, g, roots⟩ else none⟩

def run : Command → Disk → Outcome
  | build args, d => runBuild args d
  | watch args polling, d => runWatch args polling d

end Command

end ClassWeave
