import SelectorCalculus.Yaml.ScalarText
/-! What plain scalars stand for: nothing, truth values, numbers, dates, and otherwise text. -/

namespace SelectorCalculus.Yaml

/-- A decimal fraction as a number: `mantissa` times ten to the power `exponent`, below zero if
`negative`, or one of the special values. -/
inductive Fraction where
  | decimal (negative : Bool) (mantissa : Nat) (exponent : Int)
  | infinite (negative : Bool)
  | notANumber
  deriving DecidableEq, Repr

inductive Meaning where
  | nothing
  | truth (b : Bool)
  | whole (n : Int)
  | fraction (f : Fraction)
  | date
  | text
  deriving DecidableEq, Repr

def Meaning.tag : Meaning → String
  | nothing => "!!null"
  | truth _ => "!!bool"
  | whole _ => "!!int"
  | fraction _ => "!!float"
  | date => "!!timestamp"
  | text => "!!str"

def digitsValue? (base : Nat) : List Char → Option Nat
  | [] => none
  | cs => cs.foldlM (fun n c => do
      let d ← hexValue? c
      if d < base then some (n * base + d) else none) 0

/-- A number without sign: a letter after a leading zero, or the zero itself, says the base. -/
def natural? : List Char → Option Nat
  | '0' :: c :: rest =>
    if c = 'x' ∨ c = 'X' then digitsValue? 16 rest
    else if c = 'b' ∨ c = 'B' then digitsValue? 2 rest
    else if c = 'o' ∨ c = 'O' then digitsValue? 8 rest
    else digitsValue? 8 (c :: rest)
  | cs => digitsValue? 10 cs

/-- The least size that no number of 64 bits with a sign has above zero, `2 ^ 63`. -/
def signedLimit : Nat := 1 <<< 63

def unsignedLimit : Nat := 1 <<< 64

def whole? : List Char → Option Int
  | '-' :: rest => do
    let n ← natural? rest
    if n ≤ signedLimit then some (-n) else none
  | '+' :: rest => do
    let n ← natural? rest
    if n < signedLimit then some n else none
  | cs => do
    let n ← natural? cs
    if n < unsignedLimit then some n else none

def exponent? : List Char → Option Int
  | [] => some 0
  | c :: rest =>
    if c = 'e' ∨ c = 'E' then
      match rest with
      | '-' :: ds => (digitsValue? 10 ds).map fun n => -(n : Int)
      | '+' :: ds => (digitsValue? 10 ds).map fun n => (n : Int)
      | ds => (digitsValue? 10 ds).map fun n => (n : Int)
    else none

def decimal? (negative : Bool) (cs : List Char) : Option Fraction := do
  let (before, rest) := cs.span Char.isDigit
  let (after, rest) := match rest with
    | '.' :: rest => rest.span Char.isDigit
    | _ => ([], rest)
  let exponent ← exponent? rest
  let mantissa ← digitsValue? 10 (before ++ after)
  return .decimal negative mantissa (exponent - after.length)

def digitCount (n : Nat) : Nat := (Nat.toDigits 10 n).length

/-- The nearest number with 53 binary digits to `num / den`, the even one of two, as the whole part
of it. -/
def roundedWhole (num den : Nat) : Nat :=
  if num = 0 ∨ den = 0 then 0
  else
    -- `2 ^ (shift - 1) ≤ num / den < 2 ^ (shift + 1)`
    let shift : Int := (num.log2 : Int) - den.log2
    let tooHigh :=
      if 0 ≤ shift then num < den <<< shift.toNat else num <<< (-shift).toNat < den
    let exponent := (if tooHigh then shift - 1 else shift) - 52
    let (n, d) :=
      if 0 ≤ exponent then (num, den <<< exponent.toNat) else (num <<< (-exponent).toNat, den)
    let q := n / d
    let r := 2 * (n % d)
    let q := if d < r ∨ (r = d ∧ q % 2 = 1) then q + 1 else q
    if 0 ≤ exponent then q <<< exponent.toNat else q >>> (-exponent).toNat

namespace Fraction

def limit : Nat := 1 <<< 1024

def whole? : Fraction → Option Int
  | infinite _ => none
  | notANumber => none
  | decimal negative mantissa exponent =>
    let size : Int := digitCount mantissa + exponent
    let magnitude? : Option Nat :=
      if mantissa = 0 ∨ size < -400 then some 0
      else if 400 < size then none
      else
        let n := if 0 ≤ exponent then roundedWhole (mantissa * Nat.pow 10 exponent.toNat) 1
          else roundedWhole mantissa (Nat.pow 10 (-exponent).toNat)
        if n < limit then some n else none
    magnitude?.map fun n => if negative then -(n : Int) else n

def isFinite (f : Fraction) : Bool := f.whole?.isSome

end Fraction

def fraction? (cs : List Char) : Option Fraction := do
  let f ← match cs with
    | '-' :: rest => decimal? true rest
    | '+' :: rest => decimal? false rest
    | _ => decimal? false cs
  if f.isFinite then some f else none

def shortNumber? : List Char → Option (Nat × List Char)
  | a :: b :: rest =>
    if a.isDigit ∧ b.isDigit then some ((a.toNat - 48) * 10 + (b.toNat - 48), rest)
    else if a.isDigit then some (a.toNat - 48, b :: rest)
    else none
  | [a] => if a.isDigit then some (a.toNat - 48, []) else none
  | [] => none

def after? (c : Char) : List Char → Option (List Char)
  | d :: rest => if c = d then some rest else none
  | [] => none

def daysIn (year month : Nat) : Nat :=
  if month = 2 then
    if year % 4 = 0 ∧ (year % 100 ≠ 0 ∨ year % 400 = 0) then 29 else 28
  else if [4, 6, 9, 11].contains month then 30
  else 31

def clock? (cs : List Char) : Option (List Char) := do
  let (hour, cs) ← shortNumber? cs
  let (minute, cs) ← shortNumber? (← after? ':' cs)
  let (second, cs) ← shortNumber? (← after? ':' cs)
  if 24 ≤ hour ∨ 60 ≤ minute ∨ 60 ≤ second then none
  match cs with
  | '.' :: rest =>
    let (digits, rest) := rest.span Char.isDigit
    if digits.isEmpty then none else some rest
  | _ => some cs

def isZone : List Char → Bool
  | ['Z'] => true
  | [sign, a, b, ':', c, d] => (sign == '+' || sign == '-') && [a, b, c, d].all Char.isDigit
  | _ => false

def isDate (cs : List Char) : Bool :=
  let (year, rest) := cs.span Char.isDigit
  let result : Option Bool := do
    if year.length ≠ 4 then none
    let (month, rest) ← shortNumber? (← after? '-' rest)
    let (day, rest) ← shortNumber? (← after? '-' rest)
    let year ← digitsValue? 10 year
    if month = 0 ∨ 12 < month ∨ day = 0 ∨ daysIn year month < day then none
    match rest with
    | [] => return true
    | c :: rest =>
      let rest ← clock? rest
      return if c = 'T' ∨ c = 't' then isZone rest else c == ' ' && rest.isEmpty
  result.getD false

def wordMeaning? (s : String) : Option Meaning :=
  if ["true", "True", "TRUE"].contains s then some (.truth true)
  else if ["false", "False", "FALSE"].contains s then some (.truth false)
  else if ["", "~", "null", "Null", "NULL"].contains s then some .nothing
  else if [".nan", ".NaN", ".NAN"].contains s then some (.fraction .notANumber)
  else if [".inf", ".Inf", ".INF", "+.inf", "+.Inf", "+.INF"].contains s then
    some (.fraction (.infinite false))
  else if ["-.inf", "-.Inf", "-.INF"].contains s then some (.fraction (.infinite true))
  else none

/-- What a text that starts with a digit or a sign stands for. Underscores are ignored in
numbers. -/
def numberMeaning (cs : List Char) : Meaning :=
  let plain := cs.filter (· ≠ '_')
  if isDate cs then .date
  else match whole? plain with
    | some n => .whole n
    | none => match fraction? plain with
      | some f => .fraction f
      | none => .text

def resolvePlain (s : String) : Meaning :=
  match wordMeaning? s with
  | some m => m
  | none =>
    match s.toList with
    | c :: rest =>
      if c = '.' then
        match fraction? (c :: rest) with
        | some f => .fraction f
        | none => .text
      else if c.isDigit ∨ c = '+' ∨ c = '-' then numberMeaning (c :: rest)
      else .text
    | [] => .nothing

end SelectorCalculus.Yaml
