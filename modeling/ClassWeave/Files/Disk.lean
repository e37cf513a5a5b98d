import ClassWeave.Files.Path

namespace ClassWeave.Files

inductive DiskFault
  | missing
  | occupied
  | notDirectory
  | isDirectory
  | nameTooLong
  | nulByte
  | notText
deriving DecidableEq, Repr

def DiskFault.message : DiskFault → String
  | missing => "No such file or directory (os error 2)"
  | occupied => "File exists (os error 17)"
  | notDirectory => "Not a directory (os error 20)"
  | isDirectory => "Is a directory (os error 21)"
  | nameTooLong => "File name too long (os error 36)"
  | nulByte => "file name contained an unexpected NUL byte"
  | notText => "stream did not contain valid UTF-8"

abbrev Location := List Name

inductive Node
  | directory
  | file (contents : ByteArray)

instance (m n : Node) : Decidable (m = n) :=
  match m, n with
  | .directory, .directory => isTrue rfl
  | .directory, .file _ => isFalse nofun
  | .file _, .directory => isFalse nofun
  | .file a, .file b => decidable_of_iff (a.data = b.data) (by simp [ByteArray.ext_iff])

/-- All directories and files by their location; the root itself need not be listed. Paths that are
not absolute begin in `here`. -/
structure Disk where
  nodes : List (Location × Node)
  here : Location
deriving DecidableEq

namespace Disk

def node? (d : Disk) (l : Location) : Option Node :=
  if l = [] then some .directory else d.nodes.lookup l

def put (d : Disk) (l : Location) (n : Node) : Disk :=
  { d with nodes := (l, n) :: d.nodes.filter fun e => e.1 != l }

def remove (d : Disk) (l : Location) : Disk :=
  { d with nodes := d.nodes.filter fun e => e.1 != l }

theorem lookup_filter_ne {l m : Location} {nodes : List (Location × Node)} (h : m ≠ l) :
    (nodes.filter fun e => e.1 != l).lookup m = nodes.lookup m := by
  induction nodes with
  | nil => rfl
  | cons e nodes ih =>
    obtain ⟨k, n⟩ := e
    by_cases hk : k = l
    · have hm : (m == l) = false := by simp [h]
      simp [hk, ih, List.lookup_cons, hm]
    · simp [hk, ih, List.lookup_cons]

theorem node?_put_self {d : Disk} {l : Location} {n : Node} (h : l ≠ []) :
    (d.put l n).node? l = some n := by
  simp [node?, put, h]

theorem node?_put_of_ne {d : Disk} {l m : Location} {n : Node} (h : m ≠ l) :
    (d.put l n).node? m = d.node? m := by
  have hm : (m == l) = false := by simp [h]
  simp [node?, put, List.lookup_cons, hm, lookup_filter_ne h]

def isDirectoryAt (d : Disk) (l : Location) : Bool := d.node? l == some .directory

def longestName : Nat := 255

def longestPath : Nat := 4095

def step (d : Disk) (l : Location) (piece : Name) : Except DiskFault Location :=
  if d.isDirectoryAt l = false then .error .notDirectory
  else if piece = [] ∨ piece = ['.'] then .ok l
  else if piece = ['.', '.'] then .ok l.dropLast
  else if longestName < Text.byteLength piece then .error .nameTooLong
  else if (d.node? (l ++ [piece])).isNone then .error .missing
  else .ok (l ++ [piece])

def start (d : Disk) (p : Path) : Except DiskFault (Location × List Name) :=
  if p.text.contains '\x00' then .error .nulByte
  else if longestPath < Text.byteLength p.text then .error .nameTooLong
  else if p.isEmpty then .error .missing
  else if p.isAbsolute then .ok ([], (p.text.splitOn '/').tail)
  else .ok (d.here, p.text.splitOn '/')

def locate (d : Disk) (p : Path) : Except DiskFault Location :=
  (d.start p).bind fun s => s.2.foldlM d.step s.1

def isDirectory (d : Disk) (p : Path) : Bool :=
  match d.locate p with
  | .ok l => d.isDirectoryAt l
  | .error _ => false

def holder (d : Disk) (p : Path) : Except DiskFault (Location × Option (Name × Bool)) :=
  (d.start p).bind fun s =>
    match s.2.reverse.dropWhile (· == []) with
    | [] => .ok (s.1, none)
    | last :: before =>
      (before.reverse.foldlM d.step s.1).bind fun l =>
        if d.isDirectoryAt l = false then .error .notDirectory
        else if last = ['.'] ∨ last = ['.', '.'] then .ok (l, none)
        else if longestName < Text.byteLength last then .error .nameTooLong
        else .ok (l, some (last, s.2.getLast? == some []))

def readBytes (d : Disk) (p : Path) : Except DiskFault ByteArray :=
  (d.locate p).bind fun l =>
    match d.node? l with
    | some (.file contents) => .ok contents
    | some .directory => .error .isDirectory
    | none => .error .missing

def read (d : Disk) (p : Path) : Except DiskFault String :=
  (d.readBytes p).bind fun contents =>
    match String.fromUTF8? contents with
    | some text => .ok text
    | none => .error .notText

/-- A slash at the end of the path asks for a directory, which no file can take the place of. -/
def write (d : Disk) (p : Path) (text : String) : Except DiskFault Disk :=
  (d.holder p).bind fun h =>
    match h with
    | (l, some (name, false)) =>
      if d.isDirectoryAt (l ++ [name]) then .error .isDirectory
      else .ok (d.put (l ++ [name]) (.file text.toUTF8))
    | _ => .error .isDirectory

def makeDirectory (d : Disk) (p : Path) : Except DiskFault Disk :=
  (d.holder p).bind fun h =>
    match h with
    | (_, none) => .error .occupied
    | (l, some (name, _)) =>
      if (d.node? (l ++ [name])).isSome then .error .occupied
      else .ok (d.put (l ++ [name]) .directory)

def makeChain : List Path → Disk → Except DiskFault Unit × Disk
  | [], d => (.ok (), d)
  | p :: above, d =>
    if p.isEmpty then (.ok (), d)
    else
      match d.makeDirectory p with
      | .ok d => (.ok (), d)
      | .error .missing =>
        match makeChain above d with
        | (.error e, d) => (.error e, d)
        | (.ok (), d) =>
          match d.makeDirectory p with
          | .ok d => (.ok (), d)
          | .error e => (if d.isDirectory p then .ok () else .error e, d)
      | .error e => (if d.isDirectory p then .ok () else .error e, d)

def makeDirectories (d : Disk) (p : Path) : Except DiskFault Unit × Disk :=
  makeChain (p :: p.above) d

def filesBelow (d : Disk) (l : Location) : List (List Name) :=
  d.nodes.filterMap fun e =>
    match e.2 with
    | .file _ => if l.isPrefixOf e.1 then some (e.1.drop l.length) else none
    | .directory => none

end Disk

end ClassWeave.Files
