/-! Finding and replacing a pattern in text. -/

namespace StyleSplit.Text

def after? : List Char → List Char → Option (List Char)
  | [], text => some text
  | _ :: _, [] => none
  | m :: mark, c :: text => if m = c then after? mark text else none

def startsWith (mark text : List Char) : Bool :=
  (after? mark text).isSome

def contains (pattern : List Char) : List Char → Bool
  | [] => startsWith pattern []
  | c :: text => startsWith pattern (c :: text) || contains pattern text

/-- Replaces in all but the first `skipped` characters, which are dropped. -/
def replaceFrom (pattern replacement : List Char) : Nat → List Char → List Char
  | _, [] => []
  | skipped + 1, _ :: text => replaceFrom pattern replacement skipped text
  | 0, c :: text =>
      if startsWith pattern (c :: text) then
        replacement ++ replaceFrom pattern replacement (pattern.length - 1) text
      else c :: replaceFrom pattern replacement 0 text

/-- Replaces each occurrence of a pattern, from the left; occurrences do not
overlap. -/
def replaceAll (pattern replacement text : List Char) : List Char :=
  replaceFrom pattern replacement 0 text

def dropEnd (mark text : List Char) : List Char :=
  match after? mark.reverse text.reverse with
  | some rest => rest.reverse
  | none => text

end StyleSplit.Text
