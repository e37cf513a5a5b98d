import ClassWeave.Style.Rule

namespace ClassWeave.Style

abbrev Sheet := List Rule

namespace Sheet

def withScope (s : Sheet) (scope : Scope) : Sheet := s.map fun r => { r with scope := scope }

def withLayer (s : Sheet) (layer : Layer) : Sheet := s.map fun r => { r with layer := layer }

def absorb : Sheet → Rule → Sheet
  | [], r => [r]
  | s :: ss, r => if s.key = r.key then s.merge r :: ss else s :: absorb ss r

def combine (s : Sheet) : Sheet := s.foldl absorb []

def sort (s : Sheet) : Sheet := s.mergeSort fun a b => (a.compare b).isLE

def text (wrapDeferred : Bool) (s : Sheet) : String :=
  String.join ((s.filter fun r => !r.declarations.isEmpty).map fun r => r.text wrapDeferred ++ "\n")

end Sheet

end ClassWeave.Style
