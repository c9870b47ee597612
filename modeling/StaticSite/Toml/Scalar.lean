import StaticSite.Toml.Text
import StaticSite.Toml.Value

namespace StaticSite.Toml
open StaticSite.Text

def digits? (isDigit : Char → Bool) : List Char → Option (List Char)
  | [] => none
  | [d] => if isDigit d then some [d] else none
  | d :: '_' :: cs => if isDigit d then (digits? isDigit cs).map (d :: ·) else none
  | d :: cs => if isDigit d then (digits? isDigit cs).map (d :: ·) else none

def valueOf (base : Nat) (digits : List Char) : Nat :=
  digits.foldl (fun n c => base * n + (hexDigit? c).getD 0) 0

def decimal? (cs : List Char) : Option Nat := do
  let digits ← digits? Char.isDigit cs
  if digits.length > 1 ∧ digits.head? = some '0' then none else some (valueOf 10 digits)

def signed (cs : List Char) : Bool × List Char :=
  match cs with
  | '-' :: cs => (true, cs)
  | '+' :: cs => (false, cs)
  | _ => (false, cs)

def bounded? (n : Int) : Option Int :=
  if -(Nat.pow 2 127 : Int) ≤ n ∧ n < Nat.pow 2 128 then some n else none

def integer? (cs : List Char) : Option Int :=
  match cs with
  | '0' :: 'x' :: ds =>
    (digits? (fun c => (hexDigit? c).isSome) ds).bind (bounded? <| valueOf 16 ·)
  | '0' :: 'o' :: ds =>
    (digits? (fun c => '0' ≤ c && c ≤ '7') ds).bind (bounded? <| valueOf 8 ·)
  | '0' :: 'b' :: ds =>
    (digits? (fun c => c == '0' || c == '1') ds).bind (bounded? <| valueOf 2 ·)
  | _ => do
    let (negative, ds) := signed cs
    let n ← decimal? ds
    bounded? (if negative then -n else n)

structure Scientific where
  mantissa : Nat
  places : Nat
  exponent : Int

def exponent? (cs : List Char) : Option Int := do
  let (negative, ds) := signed cs
  let digits ← digits? Char.isDigit ds
  some (if negative then -(valueOf 10 digits : Int) else valueOf 10 digits)

def scientific? (cs : List Char) : Option Scientific := do
  let isExponent (c : Char) : Bool := c == 'e' || c == 'E'
  let mantissa := cs.takeWhile (!isExponent ·)
  let exponent ← match cs.dropWhile (!isExponent ·) with
    | [] => some none
    | _ :: ds => (exponent? ds).map some
  let whole ← decimal? (mantissa.takeWhile (· != '.'))
  match mantissa.dropWhile (· != '.'), exponent with
  | _ :: ds, e => do
    let places ← digits? Char.isDigit ds
    some ⟨whole * Nat.pow 10 places.length + valueOf 10 places, places.length, e.getD 0⟩
  | [], some e => some ⟨whole, 0, e⟩
  | [], none => none

/-- Halfway between the largest double and the next power of two. -/
def tooLarge : Nat := Nat.pow 2 1024 - Nat.pow 2 970

def Scientific.isFinite (s : Scientific) : Bool :=
  let scale := s.exponent - s.places
  let size : Int := (Nat.toDigits 10 s.mantissa).length + scale
  if s.mantissa = 0 ∨ size < 300 then true
  else if 310 < size then false
  else if 0 ≤ scale then s.mantissa * Nat.pow 10 scale.toNat < tooLarge
  else s.mantissa < tooLarge * Nat.pow 10 (-scale).toNat

def isFloat (cs : List Char) : Bool :=
  let (_, ds) := signed cs
  ds = "inf".toList || ds = "nan".toList || (scientific? ds).any Scientific.isFinite

def twoDigits? (cs : List Char) : Option (Nat × List Char) :=
  match cs with
  | a :: b :: rest => if a.isDigit ∧ b.isDigit then some (valueOf 10 [a, b], rest) else none
  | _ => none

def expect? (c : Char) : List Char → Option (List Char)
  | d :: rest => if d = c then some rest else none
  | [] => none

def daysIn (year month : Nat) : Nat :=
  if month = 2 then
    if year % 4 = 0 ∧ (year % 100 ≠ 0 ∨ year % 400 = 0) then 29 else 28
  else if month = 4 ∨ month = 6 ∨ month = 9 ∨ month = 11 then 30
  else 31

def date? (cs : List Char) : Option (List Char) := do
  let (century, cs) ← twoDigits? cs
  let (year, cs) ← twoDigits? cs
  let (month, cs) ← twoDigits? (← expect? '-' cs)
  let (day, cs) ← twoDigits? (← expect? '-' cs)
  if 1 ≤ month ∧ month ≤ 12 ∧ 1 ≤ day ∧ day ≤ daysIn (100 * century + year) month then some cs
  else none

def time? (cs : List Char) : Option (List Char) := do
  let (hour, cs) ← twoDigits? cs
  let (minute, cs) ← twoDigits? (← expect? ':' cs)
  if 23 < hour ∨ 59 < minute then none
  else
    match cs with
    | ':' :: cs => do
      let (second, cs) ← twoDigits? cs
      if 60 < second then none
      else
        match cs with
        | '.' :: cs =>
          if (cs.takeWhile Char.isDigit).isEmpty then none else some (cs.dropWhile Char.isDigit)
        | _ => some cs
    | _ => some cs

def isOffset (cs : List Char) : Bool :=
  match cs with
  | [] => true
  | ['Z'] => true
  | ['z'] => true
  | sign :: cs =>
    (sign == '+' || sign == '-') &&
      (do
        let (hour, cs) ← twoDigits? cs
        let (minute, cs) ← twoDigits? (← expect? ':' cs)
        if hour ≤ 23 ∧ minute ≤ 59 ∧ cs = [] then some () else none).isSome

def isMoment (cs : List Char) : Bool :=
  match date? cs with
  | some [] => true
  | some (c :: cs) => (c == 'T' || c == 't' || c == ' ') && (time? cs).any isOffset
  | none => time? cs = some []

def endsScalar (c : Char) : Bool :=
  isSpace c || c == '\n' || c == '\r' || c == ',' || c == ']' || c == '}' || c == '#'

def scalarOf? (cs : List Char) : Option Value :=
  if cs = "true".toList then some (.boolean true)
  else if cs = "false".toList then some (.boolean false)
  else
    match integer? cs with
    | some n => some (.integer n)
    | none =>
      if isFloat cs then some (.float cs)
      else if isMoment cs then some (.moment cs)
      else none

def scalar? (cs : List Char) : Option (Value × List Char) :=
  let first := cs.takeWhile (!endsScalar ·)
  let rest := cs.dropWhile (!endsScalar ·)
  match date? first, rest with
  | some [], ' ' :: after =>
    let second := after.takeWhile (!endsScalar ·)
    if second.head?.any Char.isDigit then
      (scalarOf? (first ++ ' ' :: second)).map (·, after.dropWhile (!endsScalar ·))
    else (scalarOf? first).map (·, rest)
  | _, _ => (scalarOf? first).map (·, rest)

end StaticSite.Toml
