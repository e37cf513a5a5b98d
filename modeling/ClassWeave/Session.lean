import ClassWeave.Assoc
import ClassWeave.Options

namespace ClassWeave

inductive FileState
  | unseen
  | seenOnce
  | seenAgain
deriving DecidableEq, Repr, Inhabited

/-- `files` counts the successes of each file, `tags` names the file that introduced an element;
both are in the order in which their names came first. -/
structure Session where
  options : Options
  files : Assoc Nat
  tags : Assoc String
deriving DecidableEq, Repr, Inhabited

structure SessionSummary where
  files : List String
  invocations : Nat
  tags : Nat
deriving DecidableEq, Repr, Inhabited

namespace Session

def start (options : Options) : Session := ⟨options, [], []⟩

def fileState (s : Session) (file : String) : FileState :=
  match (s.files.find? file).getD 0 with
  | 0 => .unseen
  | 1 => .seenOnce
  | _ => .seenAgain

def hasSeen (s : Session) (file : String) : Bool := s.files.contains file

def seenFiles (s : Session) : List String := s.files.keys

/-- The styles that concern every element belong to the first file alone. -/
def includesBaseline (s : Session) (file : String) : Bool :=
  s.files.isEmpty || s.seenFiles.head? == some file

def hasTag (s : Session) (tag : String) : Bool := s.tags.contains tag

def tagOrigin (s : Session) (tag : String) : Option String := s.tags.find? tag

def tagsIntroducedBy (s : Session) (file : String) : List String :=
  Assoc.keys (s.tags.filter fun e => e.2 == file)

def commit (s : Session) (file : String) (newTags : List String) : Session :=
  { s with
    tags := newTags.foldl (fun m tag => m.putNew tag file) s.tags
    files := s.files.put file ((s.files.find? file).getD 0 + 1) }

def close (s : Session) : SessionSummary :=
  ⟨s.seenFiles, s.files.total, s.tags.length⟩

end Session

end ClassWeave
