/-! Binary search for the point where a property of the elements ends. -/

namespace StyleSplit

/-- How many leading elements satisfy `p`, when those that do come first. -/
def partitionPoint (elements : Array α) (p : α → Bool) : Nat :=
  search 0 elements.size
where
  search (low high : Nat) : Nat :=
    if low < high then
      let middle := (low + high) / 2
      match elements[middle]? with
      | some x => if p x then search (middle + 1) high else search low middle
      | none => low
    else low
  termination_by high - low

end StyleSplit
