/-! The dates and times of TOML text. Each part is read off the front of a
literal. -/

namespace StyleSplit.Toml

def isLeapYear (year : Nat) : Bool :=
  year % 4 = 0 && (year % 100 ≠ 0 || year % 400 = 0)

def daysIn (year month : Nat) : Nat :=
  if month = 2 then if isLeapYear year then 29 else 28
  else if month = 4 ∨ month = 6 ∨ month = 9 ∨ month = 11 then 30
  else 31

def takePair? : List Char → Option (Nat × List Char)
  | a :: b :: text =>
      if a.isDigit && b.isDigit then
        some ((a.toNat - '0'.toNat) * 10 + (b.toNat - '0'.toNat), text)
      else none
  | _ => none

def takeMark? (mark : Char) : List Char → Option (List Char)
  | [] => none
  | c :: text => if c = mark then some text else none

def takeDate? (text : List Char) : Option (List Char) := do
  let (century, text) ← takePair? text
  let (year, text) ← takePair? text
  let (month, text) ← takePair? (← takeMark? '-' text)
  let (day, text) ← takePair? (← takeMark? '-' text)
  if 1 ≤ month ∧ month ≤ 12 ∧ 1 ≤ day ∧ day ≤ daysIn (century * 100 + year) month then
    some text
  else none

def takeHourMinute? (text : List Char) : Option (List Char) := do
  let (hour, text) ← takePair? text
  let (minute, text) ← takePair? (← takeMark? ':' text)
  if hour < 24 ∧ minute < 60 then some text else none

/-- Takes a time of day. The second after the last one of a minute is for leap
seconds. -/
def takeTime? (text : List Char) : Option (List Char) := do
  let text ← takeHourMinute? text
  let (second, text) ← takePair? (← takeMark? ':' text)
  if second ≤ 60 then
    match text with
    | '.' :: c :: text => if c.isDigit then some (text.dropWhile Char.isDigit) else none
    | text => some text
  else none

def isOffset : List Char → Bool
  | [] => true
  | c :: text =>
      if c = 'Z' ∨ c = 'z' then text.isEmpty
      else (c == '+' || c == '-') && takeHourMinute? text == some []

def isMoment (text : List Char) : Bool :=
  match takeDate? text with
  | none => takeTime? text == some []
  | some [] => true
  | some (c :: text) =>
      (c == 'T' || c == 't' || c == ' ') && (takeTime? text).any isOffset

end StyleSplit.Toml
