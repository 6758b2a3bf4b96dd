import Clausal.Decimal.Binary64

/-!
# Reading decimal numbers

`nearest` rounds a positive quotient to the nearest binary number, to an even coefficient when
two are equally near. A decimal text denotes such a quotient exactly, so reading rounds once.
-/
namespace Clausal.Decimal

/-- Rounds to the nearest integer, a half to the even one. -/
def roundHalfEven (num den : Nat) : Nat :=
  let q := num / den
  let r := num % den
  if 2 * r < den then q
  else if den < 2 * r then q + 1
  else q + q % 2

/-- Multiplies a quotient by a power of two. -/
def shifted (num den : Nat) (power : Int) : Nat × Nat :=
  if 0 ≤ power then (num * Nat.pow 2 power.toNat, den) else (num, den * Nat.pow 2 (-power).toNat)

/-- The magnitude of the binary number nearest to `num / den`. -/
def nearest (num den : Nat) : Nat :=
  if num = 0 then 0
  else
    let guess : Int := (num.log2 : Int) - den.log2
    let (n, d) := shifted num den (-guess)
    -- the power of two at or below the quotient
    let top := if n < d then guess - 1 else guess
    let unit := max (top - 52) (-1074)
    let (n, d) := shifted num den (-unit)
    min ((unit + 1074).toNat * Nat.pow 2 52 + roundHalfEven n d) Binary64.infiniteMagnitude

/-- The value of a run of decimal digits. -/
def digitsValue (digits : List Char) : Nat :=
  digits.foldl (fun n c => 10 * n + (c.toNat - '0'.toNat)) 0

/-- The magnitude nearest to `digits * 10 ^ power`. Beyond the range of finite numbers, and below
half of the least one, the power of ten is not computed. -/
def nearestDecimal (digits : List Char) (power : Int) : Nat :=
  let digits := digits.dropWhile (· == '0')
  let top := (digits.length : Int) + power
  if digits.isEmpty then 0
  else if 310 < top then Binary64.infiniteMagnitude
  else if top < -330 then 0
  else if 0 ≤ power then nearest (digitsValue digits * Nat.pow 10 power.toNat) 1
  else nearest (digitsValue digits) (Nat.pow 10 (-power).toNat)

/-- Splits off a run of digits. -/
def spanDigits (text : List Char) : List Char × List Char := text.span Char.isDigit

/-- Splits off a leading sign; true for a minus. -/
def spanSign : List Char → Bool × List Char
  | '-' :: rest => (true, rest)
  | '+' :: rest => (false, rest)
  | text => (false, text)

/-- Digits with an optional point among or around them, then an optional exponent. -/
def readUnsigned (text : List Char) : Option Nat :=
  let (whole, rest) := spanDigits text
  let (part, rest) :=
    match rest with
    | '.' :: rest => spanDigits rest
    | rest => ([], rest)
  let power : Int := -(part.length : Int)
  if whole.isEmpty && part.isEmpty then none
  else
    match rest with
    | [] => some (nearestDecimal (whole ++ part) power)
    | e :: rest =>
      if e = 'e' ∨ e = 'E' then
        let (negative, rest) := spanSign rest
        let (digits, rest) := spanDigits rest
        if digits.isEmpty || !rest.isEmpty then none
        else
          let exponent : Int := digitsValue digits
          some (nearestDecimal (whole ++ part) (power + if negative then -exponent else exponent))
      else none

/-- Reads a signed decimal number, an infinity or a not-a-number. -/
def read? (text : String) : Option Binary64 :=
  let (negative, body) := spanSign text.toList
  let word := String.ofList (body.map Char.toLower)
  if word = "inf" ∨ word = "infinity" then some (.infinity negative)
  else if word = "nan" then some (.nan negative)
  else (readUnsigned body).map (.ofMagnitude negative)

end Clausal.Decimal
