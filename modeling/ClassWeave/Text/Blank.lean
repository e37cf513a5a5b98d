namespace ClassWeave.Text

/-- The code points of the `White_Space` property, as closed ranges. -/
def blankRanges : List (Nat × Nat) :=
  [(0x09, 0x0D), (0x20, 0x20), (0x85, 0x85), (0xA0, 0xA0), (0x1680, 0x1680), (0x2000, 0x200A),
    (0x2028, 0x2029), (0x202F, 0x202F), (0x205F, 0x205F), (0x3000, 0x3000)]

def isBlank (c : Char) : Bool :=
  blankRanges.any fun r => r.1 ≤ c.toNat && c.toNat ≤ r.2

def leading (cs : List Char) : List Char := cs.takeWhile isBlank

def trimStart (cs : List Char) : List Char := cs.dropWhile isBlank

def trailing (cs : List Char) : List Char := (cs.reverse.takeWhile isBlank).reverse

def trimEnd (cs : List Char) : List Char := (cs.reverse.dropWhile isBlank).reverse

def trim (cs : List Char) : List Char := trimEnd (trimStart cs)

def words (cs : List Char) : List (List Char) :=
  (cs.splitOnP isBlank).filter fun w => !w.isEmpty

def wordsOf (s : String) : List String := (words s.toList).map String.ofList

def isBlankText (cs : List Char) : Bool := cs.all isBlank

theorem leading_append_trimStart (cs : List Char) : leading cs ++ trimStart cs = cs :=
  List.takeWhile_append_dropWhile

theorem trimEnd_append_trailing (cs : List Char) : trimEnd cs ++ trailing cs = cs := by
  rw [trimEnd, trailing, ← List.reverse_append, List.takeWhile_append_dropWhile,
    List.reverse_reverse]

theorem leading_append_trim_append (cs : List Char) :
    leading cs ++ (trim cs ++ trailing (trimStart cs)) = cs := by
  rw [trim, trimEnd_append_trailing, leading_append_trimStart]

theorem length_trimStart_le (cs : List Char) : (trimStart cs).length ≤ cs.length :=
  (List.dropWhile_suffix isBlank).length_le

theorem length_trimEnd_le (cs : List Char) : (trimEnd cs).length ≤ cs.length := by
  have h := congrArg List.length (trimEnd_append_trailing cs)
  rw [List.length_append] at h
  omega

theorem length_trim_le (cs : List Char) : (trim cs).length ≤ cs.length :=
  Nat.le_trans (length_trimEnd_le _) (length_trimStart_le _)

end ClassWeave.Text
