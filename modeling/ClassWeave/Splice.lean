import ClassWeave.Failure
import ClassWeave.Markup.Tree
import ClassWeave.Text.Blank
import ClassWeave.Text.Bytes

namespace ClassWeave

open Text

structure Edit where
  span : Span
  replacement : String
deriving DecidableEq, Repr, Inhabited

structure Insert where
  offset : Nat
  text : String
deriving DecidableEq, Repr, Inhabited

/-- A text with its queued changes. What is appended goes after the text trimmed at its end. -/
structure Splice where
  source : List Char
  edits : List Edit
  inserts : List Insert
  appended : Option String

namespace Splice

def ofText (source : String) : Splice := ⟨source.toList, [], [], none⟩

def overwrite (s : Splice) (e : Edit) : Splice := { s with edits := s.edits ++ [e] }

def insert (s : Splice) (offset : Nat) (text : String) : Splice :=
  { s with inserts := s.inserts ++ [⟨offset, text⟩] }

def append (s : Splice) (text : String) : Splice := { s with appended := some text }

def inject (s : Splice) (styles : List Markup.StyleBlock) (css : String) : Splice :=
  if styles.isEmpty then s.append ("\n\n<style>\n" ++ css ++ "</style>")
  else styles.foldl (fun s style => s.insert style.content.start ("\n" ++ css)) s

/-- The first offset that lies outside of the text or inside a character, edits before inserts. An
edit that ends before it starts counts at its start. -/
def badOffset? (s : Splice) : Option Nat :=
  let outside := fun n => if isBoundary n s.source then none else some n
  let backwards := fun e : Edit => if e.span.stop < e.span.start then some e.span.start else none
  (s.edits.findSome? fun e =>
    (outside e.span.start).or ((outside e.span.stop).or (backwards e))).or
    (s.inserts.findSome? fun i => outside i.offset)

def sortedEdits (s : Splice) : List Edit :=
  s.edits.mergeSort fun a b => a.span.start ≤ b.span.start

def sortedInserts (s : Splice) : List Insert := s.inserts.mergeSort fun a b => a.offset ≤ b.offset

def overlap? : List Edit → Option (Span × Span)
  | a :: b :: es =>
    if b.span.start < a.span.stop then some (a.span, b.span) else overlap? (b :: es)
  | _ => none

def insideEdit? (edits : List Edit) (inserts : List Insert) : Option (Span × Span) :=
  inserts.findSome? fun i =>
    (edits.find? fun e => e.span.start < i.offset && i.offset < e.span.stop).map fun e =>
      (e.span, ⟨i.offset, i.offset⟩)

/-- Writes a text that begins at byte `offset`. At one offset, inserts come before an edit. -/
def render (offset : Nat) (rest : List Char) : List Edit → List Insert → List Char
  | [], [] => rest
  | [], i :: is =>
    takeBytes (i.offset - offset) rest ++ i.text.toList ++
      render i.offset (dropBytes (i.offset - offset) rest) [] is
  | e :: es, [] =>
    takeBytes (e.span.start - offset) rest ++ e.replacement.toList ++
      render e.span.stop (dropBytes (e.span.stop - offset) rest) es []
  | e :: es, i :: is =>
    if i.offset ≤ e.span.start then
      takeBytes (i.offset - offset) rest ++ i.text.toList ++
        render i.offset (dropBytes (i.offset - offset) rest) (e :: es) is
    else
      takeBytes (e.span.start - offset) rest ++ e.replacement.toList ++
        render e.span.stop (dropBytes (e.span.stop - offset) rest) es (i :: is)
termination_by es is => es.length + is.length

def finish (s : Splice) : Except Failure String :=
  match s.badOffset? with
  | some n => .error (.outOfBounds n (byteLength s.source))
  | none =>
    match (overlap? s.sortedEdits).or (insideEdit? s.sortedEdits s.inserts) with
    | some (first, second) => .error (.overlap first second)
    | none =>
      let out := render 0 s.source s.sortedEdits s.sortedInserts
      match s.appended with
      | some text => .ok (.ofList (trimEnd out ++ text.toList))
      | none => .ok (.ofList out)

end Splice

end ClassWeave
