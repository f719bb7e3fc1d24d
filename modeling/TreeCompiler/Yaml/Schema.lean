import TreeCompiler.Text.Numeral
import TreeCompiler.Yaml.Timestamp

namespace TreeCompiler.Yaml.Schema

open Text (NumeralError)

/-- The parts of a decimal number: its digits without the point, how many of them
    stand behind the point, and its exponent. -/
structure Decimal where
  digits : List Char
  places : Nat
  exponent : Int
  deriving DecidableEq, Repr

/-- The number that a run of digits denotes. -/
def natOf (ds : List Char) : Nat :=
  ds.foldl (fun n d => n * 10 + (d.toNat - 48)) 0

/-- Whether a decimal rounds to a finite double. -/
def Decimal.isFinite (d : Decimal) : Bool :=
  let n := natOf d.digits
  let shift := d.exponent - d.places
  let bound := Nat.pow 2 1024 - Nat.pow 2 970
  if n = 0 then true
  else if shift ≤ 0 then n / Nat.pow 10 (min (-shift).toNat d.digits.length) < bound
  else if 400 < shift then false
  else n * Nat.pow 10 shift.toNat < bound

/-- An exponent at the end of a number, or none. -/
def exponent? (isDigit : Char → Bool) : List Char → Option Int
  | [] => some 0
  | e :: rest =>
    if e = 'e' || e = 'E' then
      let (negative, ds) := match rest with
        | '-' :: ds => (true, ds)
        | '+' :: ds => (false, ds)
        | ds => (false, ds)
      match ds with
      | d :: _ =>
        if d.isDigit && ds.all isDigit then
          let n : Int := natOf (ds.filter Char.isDigit)
          some (if negative then -n else n)
        else none
      | [] => none
    else none

/-- Reads a number that starts with a point. -/
def pointFirst? : List Char → Option Decimal
  | '.' :: rest => do
    let inNumber := fun c => Char.isDigit c || c = '_'
    let digits := (rest.takeWhile inNumber).filter Char.isDigit
    let exponent ← exponent? inNumber (rest.dropWhile inNumber)
    if digits.isEmpty || ('_' ∈ rest && !Text.Numeral.separatorsOk ('.' :: rest)) then none
    return { digits, places := digits.length, exponent }
  | _ => none

/-- Reads a number with an optional sign and digits before an optional point, or with a
    point that digits follow. -/
def decimal? (cs : List Char) : Option Decimal := do
  let cs := match cs with
    | '-' :: rest => rest
    | '+' :: rest => rest
    | cs => cs
  let whole := cs.takeWhile Char.isDigit
  let rest := cs.dropWhile Char.isDigit
  let (places, rest) := match rest with
    | '.' :: rest => (rest.takeWhile Char.isDigit, rest.dropWhile Char.isDigit)
    | rest => ([], rest)
  let exponent ← exponent? Char.isDigit rest
  if whole.isEmpty && places.isEmpty then none
  return { digits := whole ++ places, places := places.length, exponent }

/-- Whether a text without underscores is read as an integer. -/
def isInteger (cs : List Char) : Bool :=
  let accepts := fun {α : Type} (r : Except NumeralError α) => r.toOption.isSome
  accepts (Text.Numeral.signed cs) || accepts (Text.Numeral.unsigned cs) ||
    match cs with
    | '0' :: 'b' :: rest => accepts (Text.Numeral.signedIn 2 rest)
    | '0' :: 'o' :: rest => accepts (Text.Numeral.signedIn 8 rest)
    | _ => false

/-- The tag of a plain scalar, by its text. -/
def resolve (value : String) : String :=
  if value ∈ ["", "~", "null", "Null", "NULL"] then "!!null"
  else if value ∈ ["true", "True", "TRUE", "false", "False", "FALSE"] then "!!bool"
  else if value ∈ [".nan", ".NaN", ".NAN", ".inf", ".Inf", ".INF", "+.inf", "+.Inf", "+.INF",
      "-.inf", "-.Inf", "-.INF"] then "!!float"
  else if value = "<<" then "!!merge"
  else
    let cs := value.toList
    match cs with
    | [] => "!!null"
    | c :: _ =>
      if c = '.' then
        if (pointFirst? cs).any Decimal.isFinite then "!!float" else "!!str"
      else if c.isDigit || c = '+' || c = '-' then
        let plain := cs.filter (· ≠ '_')
        if Timestamp.isTimestamp cs then "!!timestamp"
        else if isInteger plain then "!!int"
        else if (decimal? plain).any Decimal.isFinite then "!!float"
        else "!!str"
      else "!!str"

/-- The text that tags of the standard schema start with. -/
def longForm : String := "tag:yaml.org,2002:"

/-- The short form of a tag. -/
def shorten (tag : String) : String :=
  if tag.startsWith longForm then "!!" ++ (tag.drop longForm.length).toString else tag

end TreeCompiler.Yaml.Schema
