namespace TreeCompiler.Yaml.Timestamp

/-- A number of one or two digits. -/
def short? : List Char → Option (Nat × List Char)
  | a :: b :: rest =>
    if a.isDigit then
      if b.isDigit then some ((a.toNat - 48) * 10 + (b.toNat - 48), rest)
      else some (a.toNat - 48, b :: rest)
    else none
  | [a] => if a.isDigit then some (a.toNat - 48, []) else none
  | [] => none

/-- A number of exactly two digits. -/
def pair? : List Char → Option (Nat × List Char)
  | a :: b :: rest =>
    if a.isDigit && b.isDigit then some ((a.toNat - 48) * 10 + (b.toNat - 48), rest) else none
  | _ => none

/-- A given character. -/
def expect (c : Char) : List Char → Option (List Char)
  | x :: rest => if x = c then some rest else none
  | [] => none

/-- Whether a year has a 29th of February. -/
def isLeap (year : Nat) : Bool :=
  year % 4 = 0 && (year % 100 ≠ 0 || year % 400 = 0)

/-- The number of days of a month. -/
def daysIn (year month : Nat) : Nat :=
  if month = 2 then (if isLeap year then 29 else 28)
  else if month ∈ [4, 6, 9, 11] then 30
  else 31

/-- A year of four digits, a month and a day that the month has. -/
def date? (cs : List Char) : Option (List Char) := do
  let year := cs.takeWhile Char.isDigit
  if year.length ≠ 4 then none
  let rest ← expect '-' (cs.drop 4)
  let (month, rest) ← short? rest
  let rest ← expect '-' rest
  let (day, rest) ← short? rest
  let number := year.foldl (fun n d => n * 10 + (d.toNat - 48)) 0
  if 1 ≤ month && month ≤ 12 && 1 ≤ day && day ≤ daysIn number month then some rest else none

/-- The fraction of a second, which may be left out. -/
def dropFraction : List Char → List Char
  | p :: d :: rest =>
    if (p = '.' || p = ',') && d.isDigit then rest.dropWhile Char.isDigit else p :: d :: rest
  | cs => cs

/-- Hours, minutes and seconds, the latter with an optional fraction. -/
def time? (cs : List Char) : Option (List Char) := do
  let (hour, rest) ← short? cs
  let rest ← expect ':' rest
  let (minute, rest) ← short? rest
  let rest ← expect ':' rest
  let (second, rest) ← short? rest
  if hour < 24 && minute < 60 && second < 60 then some (dropFraction rest) else none

/-- The distance from universal time: a `Z` for none, or hours and minutes. -/
def zone? : List Char → Option (List Char)
  | 'Z' :: rest => some rest
  | sign :: rest => do
    if sign ≠ '+' && sign ≠ '-' then none
    let (hour, rest) ← pair? rest
    let rest ← expect ':' rest
    let (minute, rest) ← pair? rest
    if hour ≤ 24 && minute ≤ 60 then some rest else none
  | [] => none

/-- Whether a text is a date, alone or with a time of day. -/
def isTimestamp (cs : List Char) : Bool :=
  match date? cs with
  | none => false
  | some [] => true
  | some (c :: rest) =>
    if c = 'T' || c = 't' then (time? rest).bind zone? = some []
    else if c = ' ' then time? (rest.dropWhile (· = ' ')) = some []
    else false

end TreeCompiler.Yaml.Timestamp
