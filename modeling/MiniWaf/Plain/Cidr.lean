import MiniWaf.Optimized.Agreement

/-! The plain engine's address blocks. A prefix length that is no number counts as 0,
and one that is too large as the whole address.
-/

set_option autoImplicit false

namespace MiniWaf.Plain

open Optimized (inBlock addressBits small_of_fits masked_eq)

/-- The address is the text's, or in the block that the text spells: an address, a slash and a decimal prefix length
within the address family. -/
def InCidr (cidr ip : String) : Prop :=
  ∃ a, IpAddr.parse ip.toList = some a ∧
    (('/' ∉ cidr.toList ∧ IpAddr.parse cidr.toList = some a) ∨
      ∃ addr digits net n, '/' ∉ addr ∧ cidr.toList = addr ++ '/' :: digits ∧ IpAddr.parse addr = some net ∧
        Text.parseNat digits = some n ∧ n ≤ addressBits net ∧ inBlock net n a = true)

def takenBits (net : IpAddr) (bits : Text) : Nat := min ((Text.parseU8 bits).getD 0).toNat (addressBits net)

/-- A text behind the slash that is no prefix length of the family, for which the code takes one the address agrees on. -/
def Stray (cidr ip : String) : Prop :=
  ∃ a addr bits net, IpAddr.parse ip.toList = some a ∧ '/' ∉ addr ∧ cidr.toList = addr ++ '/' :: bits ∧
    IpAddr.parse addr = some net ∧ (∀ n, Text.parseNat bits = some n → addressBits net < n) ∧
    inBlock net (takenBits net bits) a = true

theorem takenBits_of_digits {net : IpAddr} {digits : Text} {n : Nat} (number : Text.parseNat digits = some n)
    (fits : n ≤ addressBits net) : takenBits net digits = n := by
  have small := small_of_fits fits
  rw [takenBits, Text.parseU8_of_digits number small, Option.getD_some, Text.toNat_byte small, Nat.min_eq_left fits]

theorem cidrContains_of_slash {cidr ip : String} {a net : IpAddr} {addr bits : Text} (isAddr : IpAddr.parse ip.toList = some a)
    (noSlash : '/' ∉ addr) (spelled : cidr.toList = addr ++ '/' :: bits) (isNet : IpAddr.parse addr = some net) :
    cidrContains cidr ip = inBlock net (takenBits net bits) a := by
  unfold cidrContains
  rw [isAddr, spelled, Text.splitOnce_append noSlash]
  simp only [isNet]
  cases net with
  | v4 x =>
    cases a with
    | v4 y => exact masked_eq _ x y
    | v6 y => rfl
  | v6 x =>
    cases a with
    | v4 y => rfl
    | v6 y => exact masked_eq _ x y

/-- Where the code says yes: to what is in the block, and to strays. -/
theorem cidrContains_iff (cidr ip : String) : cidrContains cidr ip = true ↔ InCidr cidr ip ∨ Stray cidr ip := by
  constructor
  · intro contained
    cases isAddr : IpAddr.parse ip.toList with
    | none => simp [cidrContains, isAddr] at contained
    | some a =>
      cases split : Text.splitOnce '/' cidr.toList with
      | none =>
        have same : IpAddr.parse cidr.toList = some a := by
          simp only [cidrContains, isAddr, split] at contained
          cases isCidr : IpAddr.parse cidr.toList with
          | none => simp [isCidr] at contained
          | some b => simpa [isCidr] using contained
        exact .inl ⟨a, isAddr, .inl ⟨Text.splitOnce_none split, same⟩⟩
      | some parts =>
        obtain ⟨addr, bits⟩ := parts
        obtain ⟨noSlash, spelled⟩ := Text.splitOnce_some split
        cases isNet : IpAddr.parse addr with
        | none => simp [cidrContains, isAddr, split, isNet] at contained
        | some net =>
          rw [cidrContains_of_slash isAddr noSlash spelled isNet] at contained
          by_cases proper : ∃ n, Text.parseNat bits = some n ∧ n ≤ addressBits net
          · obtain ⟨n, number, fits⟩ := proper
            rw [takenBits_of_digits number fits] at contained
            exact .inl ⟨a, isAddr, .inr ⟨addr, bits, net, n, noSlash, spelled, isNet, number, fits, contained⟩⟩
          · refine .inr ⟨a, addr, bits, net, isAddr, noSlash, spelled, isNet, ?_, contained⟩
            intro n number
            by_contra fits
            exact proper ⟨n, number, Nat.le_of_not_lt fits⟩
  · rintro (⟨a, isAddr, ⟨noSlash, same⟩ | ⟨addr, digits, net, n, noSlash, spelled, isNet, number, fits, inside⟩⟩ |
      ⟨a, addr, bits, net, isAddr, noSlash, spelled, isNet, -, inside⟩)
    · cases split : Text.splitOnce '/' cidr.toList with
      | none => simp [cidrContains, isAddr, split, same]
      | some parts =>
        have spelled := (Text.splitOnce_some split).2
        exact absurd (spelled ▸ List.mem_append_right _ List.mem_cons_self) noSlash
    · rw [cidrContains_of_slash isAddr noSlash spelled isNet, takenBits_of_digits number fits]
      exact inside
    · rw [cidrContains_of_slash isAddr noSlash spelled isNet]
      exact inside

theorem not_inCidr_of_stray {cidr ip : String} (stray : Stray cidr ip) : ¬ InCidr cidr ip := by
  obtain ⟨-, addr, bits, net, -, noSlash, spelled, isNet, improper, -⟩ := stray
  have split : Text.splitOnce '/' cidr.toList = some (addr, bits) := spelled ▸ Text.splitOnce_append noSlash bits
  rintro ⟨-, -, ⟨none, -⟩ | ⟨addr', digits, net', n, noSlash', spelled', isNet', number, fits, -⟩⟩
  · exact none (spelled ▸ List.mem_append_right _ List.mem_cons_self)
  · rw [spelled', Text.splitOnce_append noSlash', Option.some.injEq, Prod.mk.injEq] at split
    obtain ⟨rfl, rfl⟩ := split
    rw [isNet, Option.some.injEq] at isNet'
    subst isNet'
    exact absurd fits (Nat.not_le.mpr (improper n number))

/-- The code decides block membership except on strays, and its shifts stay below the width of the address. -/
theorem cidr_exact_iff (cidr ip : String) :
    ((cidrContains cidr ip = true ↔ InCidr cidr ip) ↔ ¬ Stray cidr ip) ∧
      ∀ width : Nat, 0 < width → ∀ bits : UInt8, bits ≠ 0 →
        networkMask width bits = BitVec.allOnes width <<< (width - min bits.toNat width) ∧
          width - min bits.toNat width < width := by
  refine ⟨?_, ?_⟩
  · rw [cidrContains_iff]
    constructor
    · exact fun agrees stray => not_inCidr_of_stray stray (agrees.mp (.inr stray))
    · exact fun none => or_iff_left none
  · intro width positive bits nonzero
    have bitsPositive : 0 < bits.toNat := by
      rw [Nat.pos_iff_ne_zero]
      exact fun zero => nonzero (UInt8.toNat_inj.mp zero)
    exact ⟨rfl, by omega⟩

/-- A misspelt prefix length lets every address of the family in. -/
theorem typo_matches_all :
    cidrContains "10.0.0.0/2x" "203.0.113.9" = true ∧ ¬ InCidr "10.0.0.0/2x" "203.0.113.9" := by
  refine ⟨by decide +kernel, ?_⟩
  apply not_inCidr_of_stray
  refine ⟨.v4 0xCB007109, "10.0.0.0".toList, "2x".toList, .v4 0x0A000000, by decide +kernel, by decide, by decide,
    by decide +kernel, ?_, by decide +kernel⟩
  have noNumber : Text.parseNat "2x".toList = none := by decide
  intro n number
  rw [noNumber] at number
  cases number

end MiniWaf.Plain
