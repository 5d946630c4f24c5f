/-! Dates and times of day in TOML text. Nothing is set by one, so only its end is found. -/
namespace ViewCircuit.Toml

def isLeap (year : Nat) : Bool := year % 4 == 0 && (year % 100 != 0 || year % 400 == 0)

def daysIn (year month : Nat) : Nat :=
  match month with
  | 2 => if isLeap year then 29 else 28
  | 4 | 6 | 9 | 11 => 30
  | _ => 31

/-- A number of exactly `n` digits. -/
def fixed? (n : Nat) (cs : List Char) : Option (Nat × List Char) :=
  let ds := cs.take n
  if ds.length = n && ds.all Char.isDigit then
    some (ds.foldl (fun n c => 10 * n + (c.toNat - 48)) 0, cs.drop n)
  else none

def mark? (mark : Char) : List Char → Option (List Char)
  | c :: rest => if c = mark then some rest else none
  | [] => none

/-- Year, month and day of the calendar. -/
def date? (cs : List Char) : Option (List Char) := do
  let (year, cs) ← fixed? 4 cs
  let (month, cs) ← fixed? 2 (← mark? '-' cs)
  let (day, cs) ← fixed? 2 (← mark? '-' cs)
  if 1 ≤ month ∧ month ≤ 12 ∧ 1 ≤ day ∧ day ≤ daysIn year month then some cs else none

/-- Hours and minutes. -/
def clock? (cs : List Char) : Option (List Char) := do
  let (hour, cs) ← fixed? 2 cs
  let (minute, cs) ← fixed? 2 (← mark? ':' cs)
  if hour ≤ 23 ∧ minute ≤ 59 then some cs else none

/-- A part of a second, if there is one. -/
def afterFraction (cs : List Char) : List Char :=
  match cs with
  | '.' :: rest => if (rest.takeWhile Char.isDigit).isEmpty then cs else rest.dropWhile Char.isDigit
  | _ => cs

/-- A time of day; a minute may have a leap second. -/
def time? (cs : List Char) : Option (List Char) := do
  let (second, cs) ← fixed? 2 (← mark? ':' (← clock? cs))
  if second ≤ 60 then some (afterFraction cs) else none

/-- A distance from universal time, if there is one. -/
def afterOffset (cs : List Char) : List Char :=
  match cs with
  | 'Z' :: rest | 'z' :: rest => rest
  | '+' :: rest | '-' :: rest => (clock? rest).getD cs
  | _ => cs

/-- What follows a date, a date with a time, or a time. -/
def moment? (cs : List Char) : Option (List Char) :=
  match date? cs with
  | none => time? cs
  | some rest =>
    match rest with
    | 'T' :: more | 't' :: more | ' ' :: more => some (((time? more).map afterOffset).getD rest)
    | _ => some rest

end ViewCircuit.Toml
