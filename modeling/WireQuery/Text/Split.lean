namespace WireQuery

/-- What stands between the separators: one part more than there are separators. -/
def split (sep : Char) : List Char → List (List Char)
  | [] => [[]]
  | c :: r =>
    if c = sep then [] :: split sep r
    else
      match split sep r with
      | part :: parts => (c :: part) :: parts
      | [] => [[c]]

def splitText (sep : Char) (s : String) : List String := (split sep s.toList).map String.ofList

theorem split_append_cons {part : List Char} (h : sep ∉ part) (r : List Char) :
    split sep (part ++ sep :: r) = part :: split sep r := by
  induction part with
  | nil => simp [split]
  | cons c part ih =>
    obtain ⟨hc, hpart⟩ := not_or.mp (mt List.mem_cons.mpr h)
    rw [List.cons_append, split, if_neg (Ne.symm hc), ih hpart]

/-- White space of any script. -/
def isBlank (c : Char) : Bool :=
  let n := c.toNat
  (9 ≤ n && n ≤ 13) || n == 0x20 || n == 0x85 || n == 0xA0 || n == 0x1680 || (0x2000 ≤ n && n ≤ 0x200A) ||
    n == 0x2028 || n == 0x2029 || n == 0x202F || n == 0x205F || n == 0x3000

def trimBlanks (s : List Char) : List Char :=
  ((s.dropWhile isBlank).reverse.dropWhile isBlank).reverse

end WireQuery
