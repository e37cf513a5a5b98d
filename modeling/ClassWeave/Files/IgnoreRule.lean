import ClassWeave.Files.Disk
import ClassWeave.Glob.Parser
import ClassWeave.Text.Blank

/-!
Ignore files. Each of their lines is a pattern for paths below the directory of the file; of the
lines that concern a path the last one counts. A deeper file goes before one further up, and a file
of one source before those of the next source.
-/

namespace ClassWeave.Files

inductive Verdict
  | skip
  | keep
deriving DecidableEq, Repr

structure IgnoreRule where
  glob : Glob
  verdict : Verdict
  onlyDirectories : Bool
deriving DecidableEq, Repr

namespace IgnoreRule

def trimLine (line : List Char) : List Char :=
  if ['\x5c', ' '] <:+ line then line else Text.trimEnd line

def head : List Char → Verdict × Bool × List Char
  | '\x5c' :: '!' :: w => (.skip, false, '!' :: w)
  | '\x5c' :: '#' :: w => (.skip, false, '#' :: w)
  | '!' :: '/' :: w => (.keep, true, w)
  | '!' :: w => (.keep, false, w)
  | '/' :: w => (.skip, true, w)
  | w => (.skip, false, w)

def cutSlash (w : List Char) : Bool × List Char :=
  match w.reverse with
  | '/' :: '\x5c' :: v => (true, v.reverse)
  | '/' :: v => (true, v.reverse)
  | _ => (false, w)

def seek (bound : Bool) (w : List Char) : List Char :=
  if bound ∨ w.contains '/' ∨ w = ['*', '*'] then w else ['*', '*', '/'] ++ w

/-- With `/**` at its end a pattern speaks of what lies in a directory, not of the directory. -/
def inside (w : List Char) : List Char :=
  if ['/', '*', '*'] <:+ w then w ++ ['/', '*'] else w

def ofLine? (line : List Char) : Option IgnoreRule :=
  let line := if line.head? = some '#' then [] else trimLine line
  if line.isEmpty then none
  else
    let (verdict, bound, w) := head line
    let (onlyDirectories, w) := cutSlash w
    (Glob.parseLenient (inside (seek bound w))).toOption.map fun glob =>
      ⟨glob, verdict, onlyDirectories⟩

def concerns (r : IgnoreRule) (path : List UInt8) (isDirectory : Bool) : Bool :=
  (!r.onlyDirectories || isDirectory) && r.glob.accepts false path

end IgnoreRule

def decode? (bytes : List UInt8) : Option (List Char) :=
  (String.fromUTF8? bytes.toByteArray).map String.toList

def dropReturn (line : List UInt8) : List UInt8 :=
  if line.getLast? = some 13 then line.dropLast else line

def decodeLines : List (List UInt8) → List (List Char)
  | [] => []
  | [last] => (decode? last).toList
  | line :: lines =>
    match decode? (dropReturn line) with
    | some text => text :: decodeLines lines
    | none => []

def byteOrderMark : Char := '\ufeff'

def rulesOf (contents : ByteArray) : List IgnoreRule :=
  let lines := decodeLines (contents.toList.splitOn 10)
  (lines.modifyHead (·.dropWhile (· == byteOrderMark))).filterMap IgnoreRule.ofLine?

structure IgnoreFile where
  directory : Location
  rules : List IgnoreRule
deriving DecidableEq, Repr

def IgnoreFile.verdict? (f : IgnoreFile) (entry : Location) (isDirectory : Bool) :
    Option Verdict :=
  if f.directory.isPrefixOf entry && f.directory.length < entry.length then
    let path := Text.utf8 (Path.joinPieces (entry.drop f.directory.length))
    (f.rules.reverse.find? (·.concerns path isDirectory)).map IgnoreRule.verdict
  else none

inductive IgnoreSource
  | general
  | repository
  | checkout
deriving DecidableEq, Repr

def IgnoreSource.place : IgnoreSource → Location
  | general => [".ignore".toList]
  | repository => [".gitignore".toList]
  | checkout => [".git".toList, "info".toList, "exclude".toList]

def Disk.ignoreFiles (d : Disk) (s : IgnoreSource) : List IgnoreFile :=
  let files := d.nodes.filterMap fun e =>
    match e.2 with
    | .file contents =>
      if s.place.isSuffixOf e.1 then
        some ⟨e.1.take (e.1.length - s.place.length), rulesOf contents⟩
      else none
    | .directory => none
  files.mergeSort fun f g => g.directory.length ≤ f.directory.length

def isSkipped (files : List IgnoreFile) (entry : Location) (isDirectory : Bool) : Bool :=
  files.findSome? (·.verdict? entry isDirectory) == some .skip

end ClassWeave.Files
