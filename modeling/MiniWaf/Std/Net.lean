import Mathlib.Data.BitVec
import MiniWaf.Std.Decimal

/-! `std::net::IpAddr` and its parser. -/

set_option autoImplicit false

namespace MiniWaf

inductive IpAddr where
  | v4 (bits : BitVec 32)
  | v6 (bits : BitVec 128)
  deriving DecidableEq, Repr

namespace IpAddr

def hexDigit (c : Char) : Option Nat :=
  if c.isDigit then some (c.toNat - '0'.toNat)
  else if 'a' ≤ c ∧ c ≤ 'f' then some (c.toNat - 'a'.toNat + 10)
  else if 'A' ≤ c ∧ c ≤ 'F' then some (c.toNat - 'A'.toNat + 10)
  else none

def leadingDigits (digit : Char → Option Nat) : Text → List Nat × Text
  | [] => ([], [])
  | c :: rest =>
    match digit c with
    | some d => let (more, left) := leadingDigits digit rest; (d :: more, left)
    | none => ([], c :: rest)

/-- An octet: up to three digits, below 256, without a leading zero. -/
def readOctet (s : Text) : Option (Nat × Text) :=
  let (digits, rest) := leadingDigits (fun c => if c.isDigit then some (c.toNat - '0'.toNat) else none) s
  let value := digits.foldl (fun v d => 10 * v + d) 0
  if digits = [] ∨ 3 < digits.length ∨ (digits.head? = some 0 ∧ 1 < digits.length) ∨ 256 ≤ value then none
  else some (value, rest)

/-- A group of an IPv6 address: up to four hexadecimal digits. -/
def readGroup (s : Text) : Option (Nat × Text) :=
  let (digits, rest) := leadingDigits hexDigit s
  if digits = [] ∨ 4 < digits.length then none else some (digits.foldl (fun v d => 16 * v + d) 0, rest)

def readSeparated {A : Type} (separator : Char) (first : Bool) (inner : Text → Option (A × Text)) (s : Text) :
    Option (A × Text) :=
  if first then inner s
  else
    match s with
    | c :: rest => if c = separator then inner rest else none
    | [] => none

def readIpv4 (s : Text) : Option (BitVec 32 × Text) := do
  let (a, s) ← readOctet s
  let (b, s) ← readSeparated '.' false readOctet s
  let (c, s) ← readSeparated '.' false readOctet s
  let (d, s) ← readSeparated '.' false readOctet s
  pure (BitVec.ofNat 32 (((a * 256 + b) * 256 + c) * 256 + d), s)

/-- Up to `limit` groups, the last two of them perhaps as an IPv4 address; whether they were. -/
def readGroups : (limit : Nat) → (first : Bool) → Text → List Nat × Bool × Text
  | 0, _, s => ([], false, s)
  | limit + 1, first, s =>
    match if limit = 0 then none else readSeparated ':' first readIpv4 s with
    | some (bits, rest) => ([bits.toNat / 65536, bits.toNat % 65536], true, rest)
    | none =>
      match readSeparated ':' first readGroup s with
      | some (group, rest) =>
        let (more, embedded, left) := readGroups limit false rest
        (group :: more, embedded, left)
      | none => ([], false, s)

def ofGroups (groups : List Nat) : BitVec 128 := BitVec.ofNat 128 (groups.foldl (fun v g => v * 65536 + g) 0)

def readIpv6 (s : Text) : Option (BitVec 128 × Text) :=
  let (head, embedded, rest) := readGroups 8 true s
  if head.length = 8 then some (ofGroups head, rest)
  else if embedded then none
  else
    match rest with
    | ':' :: ':' :: rest =>
      let (tail, _, rest) := readGroups (7 - head.length) true rest
      some (ofGroups (head ++ List.replicate (8 - head.length - tail.length) 0 ++ tail), rest)
    | _ => none

/-- `str::parse::<IpAddr>`. -/
def parse (s : Text) : Option IpAddr :=
  match readIpv4 s with
  | some (bits, []) => some (.v4 bits)
  | some (_, _ :: _) => none
  | none =>
    match readIpv6 s with
    | some (bits, []) => some (.v6 bits)
    | _ => none

example : parse "10.0.0.255".toList = some (.v4 0x0A0000FF) ∧ parse "10.0.0.256".toList = none ∧
    parse "::ffff:1.2.3.4".toList = some (.v6 0xFFFF01020304) ∧ parse "1::2:3".toList = some (.v6 (2 * 65536 + 3 + 2 ^ 112)) := by
  decide +kernel

end IpAddr

/-- Masking off the last `n` bits compares the others. -/
theorem mask_eq_iff {width : Nat} (x y : BitVec width) (n : Nat) :
    x &&& (BitVec.allOnes width <<< n) = y &&& (BitVec.allOnes width <<< n) ↔ x >>> n = y >>> n := by
  constructor
  · intro same
    apply BitVec.eq_of_getLsbD_eq
    intro i bound
    have bit := congrArg (fun v => v.getLsbD (n + i)) same
    simp only [BitVec.getLsbD_and, BitVec.getLsbD_shiftLeft, BitVec.getLsbD_allOnes] at bit
    simp only [BitVec.getLsbD_ushiftRight]
    by_cases inside : n + i < width
    · simpa [inside, bound, show ¬ n + i < n by omega] using bit
    · rw [BitVec.getLsbD_of_ge _ _ (by omega), BitVec.getLsbD_of_ge _ _ (by omega)]
  · intro same
    apply BitVec.eq_of_getLsbD_eq
    intro i bound
    simp only [BitVec.getLsbD_and, BitVec.getLsbD_shiftLeft, BitVec.getLsbD_allOnes]
    by_cases low : i < n
    · simp [low]
    · have bit := congrArg (fun v => v.getLsbD (i - n)) same
      simp only [BitVec.getLsbD_ushiftRight] at bit
      rw [show n + (i - n) = i by omega] at bit
      rw [bit]

/-- `str::parse::<IpNet>` of the `ipnet` crate, with a network represented by its `contains`. -/
abbrev IpNetParser := String → Option (IpAddr → Bool)

namespace Text

def parseU8 (s : Text) : Option UInt8 :=
  let digits := match s with
    | '+' :: digits => digits
    | digits => digits
  match parseNat digits with
  | some n => if n < 256 then some (UInt8.ofNat n) else none
  | none => none

theorem parseU8_of_digits {digits : Text} {n : Nat} (number : parseNat digits = some n) (small : n < 256) :
    parseU8 digits = some (UInt8.ofNat n) := by
  have unsigned : parseU8 digits = match parseNat digits with
      | some m => if m < 256 then some (UInt8.ofNat m) else none
      | none => none := by
    rw [parseU8]
    intro rest plus
    rw [plus, parseNat] at number
    simp at number
  rw [unsigned, number]
  exact if_pos small

theorem parseU8_ofNat {n : Nat} (small : n < 256) : parseU8 (ofNat n) = some (UInt8.ofNat n) :=
  parseU8_of_digits (parseNat_ofNat n) small

end Text

end MiniWaf
