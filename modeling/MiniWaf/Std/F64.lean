import MiniWaf.Std.Decimal

/-! IEEE 754 binary64 by its bits, with the conversions Rust gives `f64`:
correctly rounded decimal parsing, shortest round-trip `Display`, and the
saturating `as i64` cast. The rule language has no float arithmetic.
-/

set_option autoImplicit false

namespace MiniWaf

structure F64 where
  bits : BitVec 64
  deriving DecidableEq, Repr

namespace F64

def negative (f : F64) : Bool := f.bits.msb

def exponent (f : F64) : Nat := (f.bits.toNat / 2 ^ 52) % 2 ^ 11

def fraction (f : F64) : Nat := f.bits.toNat % 2 ^ 52

def isNaN (f : F64) : Bool := f.exponent == 2047 && f.fraction != 0

def isInfinite (f : F64) : Bool := f.exponent == 2047 && f.fraction == 0

def isZero (f : F64) : Bool := f.exponent == 0 && f.fraction == 0

/-- `==` on `f64`: NaN differs from itself and both zeros are equal. -/
def eq (f g : F64) : Bool := !f.isNaN && !g.isNaN && (f == g || (f.isZero && g.isZero))

def significand (f : F64) : Nat := if f.exponent = 0 then f.fraction else 2 ^ 52 + f.fraction

def scale (f : F64) : Int := (max f.exponent 1 : Nat) - 1075

def numerator (f : F64) : Nat := f.significand * 2 ^ f.scale.toNat

def denominator (f : F64) : Nat := 2 ^ (-f.scale).toNat

/-- `as i64`: truncates, saturates, and sends NaN to zero. -/
def toI64 (f : F64) : Int64 :=
  if f.isNaN then 0
  else
    let magnitude := if f.isInfinite then 2 ^ 63 else f.numerator / f.denominator
    if f.negative then Int64.ofInt (-(min magnitude (2 ^ 63) : Nat))
    else Int64.ofInt (min magnitude (2 ^ 63 - 1) : Nat)

def floorLog2 (num den : Nat) : Int :=
  let estimate : Int := (Nat.log2 num : Int) - (Nat.log2 den : Int)
  if den * 2 ^ estimate.toNat ≤ num * 2 ^ (-estimate).toNat then estimate else estimate - 1

/-- Round the non-negative rational `num / den` to the nearest double, ties to even. -/
def ofRatio (num den : Nat) : F64 :=
  if num = 0 then ⟨0⟩
  else
    let unit := max (floorLog2 num den - 52) (-1074)
    let n := num * 2 ^ (-unit).toNat
    let d := den * 2 ^ unit.toNat
    let quotient := n / d
    let remainder := n % d
    let rounded :=
      if d < 2 * remainder ∨ (2 * remainder = d ∧ quotient % 2 = 1) then quotient + 1 else quotient
    let encoded :=
      if rounded < 2 ^ 52 then rounded else (unit + 1075).toNat * 2 ^ 52 + (rounded - 2 ^ 52)
    ⟨BitVec.ofNat 64 (min encoded (2047 * 2 ^ 52))⟩

def neg (f : F64) : F64 := ⟨f.bits ^^^ BitVec.ofNat 64 (2 ^ 63)⟩

def ofDecimal (digits : Nat) (place : Int) : F64 :=
  ofRatio (digits * 10 ^ place.toNat) (10 ^ (-place).toNat)

/-- `str::parse::<f64>` on the texts the grammar's `float` rule admits. -/
def parse (s : Text) : Option F64 :=
  let (sign, body) := match s with
    | '-' :: rest => (true, rest)
    | rest => (false, rest)
  match Text.splitOnce '.' body with
  | none => none
  | some (whole, part) =>
    match Text.parseNat whole, Text.parseNat part with
    | some _, some _ =>
      let value := ofDecimal (Text.digitsValue (whole ++ part)) (-(part.length : Int))
      some (if sign then value.neg else value)
    | _, _ => none

def candidates (f : F64) (point : Int) (count : Nat) : List (Nat × Int) :=
  let place := point - count
  let lower := f.numerator * 10 ^ (-place).toNat / (f.denominator * 10 ^ place.toNat)
  [lower, lower + 1].filterMap fun digits =>
    if ofDecimal digits place = ⟨f.bits &&& BitVec.ofNat 64 (2 ^ 63 - 1)⟩ then some (digits, place) else none

def distance (f : F64) (candidate : Nat × Int) : Nat :=
  let exact := f.numerator * 10 ^ (-candidate.2).toNat
  let decimal := candidate.1 * 10 ^ candidate.2.toNat * f.denominator
  (exact - decimal) + (decimal - exact)

def decimalPoint (f : F64) : Int :=
  let whole := f.numerator / f.denominator
  if 0 < whole then (Text.ofNat whole).length
  else
    let shift := (List.range 400).find? (fun k => f.denominator ≤ f.numerator * 10 ^ (k + 1))
    Int.neg (shift.getD 0 : Nat)

/-- Shortest decimal that reads back as the magnitude, the closest one among equals. -/
def shortest (f : F64) : Nat × Int :=
  let tries := (List.range 17).map fun k => f.candidates f.decimalPoint (k + 1)
  match tries.find? (· ≠ []) with
  | some [one, two] => if f.distance two < f.distance one then two else one
  | some (one :: _) => one
  | _ => (0, 0)

/-- `Display` for `f64`: positional, without an exponent. -/
def display (f : F64) : Text :=
  let sign := if f.negative then ['-'] else []
  if f.isNaN then "NaN".toList
  else if f.isInfinite then sign ++ "inf".toList
  else if f.isZero then sign ++ ['0']
  else
    let (digits, place) := f.shortest
    if 0 ≤ place then sign ++ Text.ofNat digits ++ List.replicate place.toNat '0'
    else
      let shift := (-place).toNat
      let padded := List.replicate (shift + 1 - (Text.ofNat digits).length) '0' ++ Text.ofNat digits
      sign ++ padded.take (padded.length - shift) ++ ['.'] ++ padded.drop (padded.length - shift)

example : (parse "0.5".toList).map display = some "0.5".toList := by decide +kernel

end F64

end MiniWaf
