import MiniWaf.Crs.Transform

/-! The two decoders of backslash escapes, one of which writes characters and the
other bytes. They read the same escapes, and differ only in what they take a byte
outside ASCII for.
-/

set_option autoImplicit false

namespace MiniWaf.Crs

open Rete (hexVal)

theorem hexVal_lt {b v : UInt8} (digit : hexVal b = some v) : v.toNat < 16 := by
  simp only [hexVal, Bool.and_eq_true, decide_eq_true_eq, UInt8.le_iff_toNat_le, UInt8.reduceToNat] at digit
  by_cases number : 48 ≤ b.toNat ∧ b.toNat ≤ 57
  · rw [if_pos number] at digit
    cases digit
    simp only [UInt8.toNat_sub, UInt8.reduceToNat]
    omega
  rw [if_neg number] at digit
  by_cases lower : 97 ≤ b.toNat ∧ b.toNat ≤ 102
  · rw [if_pos lower] at digit
    cases digit
    simp only [UInt8.toNat_add, UInt8.toNat_sub, UInt8.reduceToNat]
    omega
  rw [if_neg lower] at digit
  by_cases upper : 65 ≤ b.toNat ∧ b.toNat ≤ 70
  · rw [if_pos upper] at digit
    cases digit
    simp only [UInt8.toNat_add, UInt8.toNat_sub, UInt8.reduceToNat]
    omega
  · rw [if_neg upper] at digit
    cases digit

-- Codes

theorem or_code {k a b : Nat} (low : b < 2 ^ k) : 2 ^ k * a ||| b = 2 ^ k * a + b :=
  (Nat.two_pow_add_eq_or_of_lt low a).symm

theorem code_or {h1 h2 l1 l2 : UInt8} (one : h1.toNat < 16) (two : h2.toNat < 16) (three : l1.toNat < 16)
    (four : l2.toNat < 16) :
    ((h1.toUInt32 <<< 12) ||| (h2.toUInt32 <<< 8) ||| (l1.toUInt32 <<< 4) ||| l2.toUInt32).toNat =
      4096 * h1.toNat + 256 * h2.toNat + 16 * l1.toNat + l2.toNat := by
  have shifted (v : UInt8) (k : UInt32) (small : v.toNat < 16) (short : k.toNat ≤ 12) :
      (v.toUInt32 <<< k).toNat = 2 ^ k.toNat * v.toNat := by
    have power : 2 ^ k.toNat ≤ 2 ^ 12 := Nat.pow_le_pow_right (by decide) short
    have product : v.toNat * 2 ^ k.toNat ≤ 15 * 2 ^ 12 := Nat.mul_le_mul (by omega) power
    rw [UInt32.toNat_shiftLeft, UInt8.toNat_toUInt32, Nat.mod_eq_of_lt (by omega : k.toNat < 32), Nat.shiftLeft_eq,
      Nat.mod_eq_of_lt (by omega), Nat.mul_comm]
  rw [UInt32.toNat_or, UInt32.toNat_or, UInt32.toNat_or, shifted h1 12 one (by decide), shifted h2 8 two (by decide),
    shifted l1 4 three (by decide), UInt8.toNat_toUInt32, Nat.or_assoc, Nat.or_assoc]
  change 2 ^ 12 * h1.toNat ||| (2 ^ 8 * h2.toNat ||| (2 ^ 4 * l1.toNat ||| l2.toNat)) = _
  have low : 2 ^ 4 * l1.toNat ||| l2.toNat = 2 ^ 4 * l1.toNat + l2.toNat := or_code (by omega)
  have middle : 2 ^ 8 * h2.toNat ||| (2 ^ 4 * l1.toNat + l2.toNat) = 2 ^ 8 * h2.toNat + (2 ^ 4 * l1.toNat + l2.toNat) :=
    or_code (by omega)
  rw [low, middle, or_code (by omega)]
  omega

theorem code_step {acc : UInt16} {v : UInt8} (room : acc.toNat < 4096) (digit : v.toNat < 16) :
    ((acc <<< 4) ||| v.toUInt16).toNat = 16 * acc.toNat + v.toNat := by
  have shift : (4 : UInt16).toNat % 16 = 4 := rfl
  rw [UInt16.toNat_or, UInt16.toNat_shiftLeft, UInt8.toNat_toUInt16, shift, Nat.shiftLeft_eq,
    Nat.mod_eq_of_lt (by omega), Nat.mul_comm]
  exact or_code (by omega)

theorem foldCode_cons {acc : UInt16} {b v : UInt8} (digit : hexVal b = some v) (rest : List UInt8) :
    foldCode acc (b :: rest) = foldCode ((acc <<< 4) ||| v.toUInt16) rest := by
  rw [foldCode, digit, Option.bind_some]

theorem escapeCode_eq (h1 h2 l1 l2 : UInt8) :
    escapeCode h1 h2 l1 l2 = (foldCode 0 [h1, h2, l1, l2]).bind fun n => fromU32 n.toNat := by
  unfold escapeCode
  cases first : hexVal h1 with
  | none => simp only [foldCode, first, Option.bind_none]
  | some a =>
    cases second : hexVal h2 with
    | none => simp only [foldCode, first, second, Option.bind_none, Option.bind_some]
    | some b =>
      cases third : hexVal l1 with
      | none => simp only [foldCode, first, second, third, Option.bind_none, Option.bind_some]
      | some c =>
        cases fourth : hexVal l2 with
        | none => simp only [foldCode, first, second, third, fourth, Option.bind_none, Option.bind_some]
        | some d =>
          have one := hexVal_lt first
          have two := hexVal_lt second
          have three := hexVal_lt third
          have four := hexVal_lt fourth
          simp only [foldCode_cons first, foldCode_cons second, foldCode_cons third, foldCode_cons fourth]
          rw [code_or one two three four, foldCode, Option.bind_some]
          congr 1
          have r1 : (((0 : UInt16) <<< 4) ||| a.toUInt16).toNat = 16 * 0 + a.toNat := code_step (by decide) one
          generalize ((0 : UInt16) <<< 4) ||| a.toUInt16 = n1 at r1 ⊢
          have r2 : ((n1 <<< 4) ||| b.toUInt16).toNat = 16 * n1.toNat + b.toNat := code_step (by omega) two
          generalize (n1 <<< 4) ||| b.toUInt16 = n2 at r2 ⊢
          have r3 : ((n2 <<< 4) ||| c.toUInt16).toNat = 16 * n2.toNat + c.toNat := code_step (by omega) three
          generalize (n2 <<< 4) ||| c.toUInt16 = n3 at r3 ⊢
          have r4 : ((n3 <<< 4) ||| d.toUInt16).toNat = 16 * n3.toNat + d.toNat := code_step (by omega) four
          omega

-- One escape

/-- What `\xHH` after a backslash must be for both decoders to take it for one character. -/
def AsciiByte (rest : List UInt8) : Prop :=
  ∀ high low byte, [0x78, high, low] <+: rest → hexByte high low = some byte → byte.toNat < 128

def encodeFound (found : Char × Nat) : List UInt8 × Nat := (String.utf8EncodeChar found.1, found.2)

theorem escapeSeqAt_x {tail : List UInt8} (ascii : AsciiByte (0x78 :: tail)) :
    escapeSeqAt (0x78 :: tail) = (jsAt (0x78 :: tail)).map encodeFound := by
  cases tail with
  | nil => rfl
  | cons high tail =>
    cases tail with
    | nil => rfl
    | cons low more =>
      change (hexByte high low).map _ = ((hexByte high low).map _).map _
      cases found : hexByte high low with
      | none => rfl
      | some byte =>
        have small := ascii high low byte ⟨more, rfl⟩ found
        rw [Option.map_some, Option.map_some, Option.map_some, encodeFound, asChar, Text.encodeChar_ascii small]

theorem escapeSeqAt_u (tail : List UInt8) :
    escapeSeqAt (0x75 :: tail) = (jsAt (0x75 :: tail)).map encodeFound := by
  cases tail with
  | nil => rfl
  | cons h1 tail =>
    cases tail with
    | nil => rfl
    | cons h2 tail =>
      cases tail with
      | nil => rfl
      | cons l1 tail =>
        cases tail with
        | nil => rfl
        | cons l2 more =>
          change (escapeCode h1 h2 l1 l2).map _ = (((foldCode 0 [h1, h2, l1, l2]).bind _).map _).map _
          rw [escapeCode_eq, Option.map_map]
          rfl

/-- Both decoders read the same escape. -/
theorem escapeSeqAt_eq {rest : List UInt8} (ascii : AsciiByte rest) :
    escapeSeqAt rest = (jsAt rest).map encodeFound := by
  cases rest with
  | nil => rfl
  | cons kind tail =>
    by_cases isX : kind = 0x78
    · subst isX
      exact escapeSeqAt_x ascii
    by_cases isU : kind = 0x75
    · subst isU
      exact escapeSeqAt_u tail
    by_cases isN : kind = 0x6E
    · subst isN
      rfl
    by_cases isR : kind = 0x72
    · subst isR
      rfl
    by_cases isT : kind = 0x74
    · subst isT
      rfl
    unfold escapeSeqAt jsAt
    simp only [if_neg isX, if_neg isU, if_neg isN, if_neg isR, if_neg isT, Option.map_none]

-- Runs

/-- A text whose `\xHH` are ASCII, and which is ASCII itself. -/
structure AsciiEscapes (bytes : List UInt8) : Prop where
  ascii : ∀ b ∈ bytes, b.toNat < 128
  escapes : ∀ high low byte, [0x5C, 0x78, high, low] <:+: bytes → hexByte high low = some byte → byte.toNat < 128

theorem AsciiEscapes.suffix {bytes rest : List UInt8} (plain : AsciiEscapes bytes) (suffix : rest <:+ bytes) :
    AsciiEscapes rest where
  ascii := fun b member => plain.ascii b (suffix.subset member)
  escapes := fun high low byte inside => plain.escapes high low byte (inside.trans suffix.isInfix)

theorem AsciiEscapes.here {b : UInt8} {rest : List UInt8} (plain : AsciiEscapes (b :: rest)) (backslash : b = 0x5C) :
    AsciiByte rest := by
  intro high low byte front
  subst backslash
  exact plain.escapes high low byte (List.cons_prefix_cons.mpr ⟨rfl, front⟩).isInfix

theorem escapeSeqBytes_eq {bytes : List UInt8} (plain : AsciiEscapes bytes) :
    escapeSeqBytes bytes = Text.utf8 (jsChars bytes) := by
  induction length : bytes.length using Nat.strongRecOn generalizing bytes with
  | ind n ih =>
    cases bytes with
    | nil => rw [escapeSeqBytes, jsChars]; rfl
    | cons b rest =>
      rw [List.length_cons] at length
      have same : (if b = 0x5C then escapeSeqAt rest else none) =
          (if b = 0x5C then jsAt rest else none).map encodeFound := by
        by_cases backslash : b = 0x5C
        · rw [if_pos backslash, if_pos backslash]
          exact escapeSeqAt_eq (plain.here backslash)
        · rw [if_neg backslash, if_neg backslash]
          rfl
      rw [escapeSeqBytes, jsChars, same]
      cases found : if b = 0x5C then jsAt rest else none with
      | none =>
        have byte := Text.encodeChar_ascii (plain.ascii b List.mem_cons_self)
        simp only [Option.map_none]
        rw [ih rest.length (by omega) (plain.suffix (List.suffix_cons b rest)) rfl, Text.utf8_cons, asChar, byte]
        rfl
      | some escape =>
        obtain ⟨c, width⟩ := escape
        have shorter : (rest.drop width).length < n := by
          rw [List.length_drop]
          omega
        have later := (List.drop_suffix width rest).trans (List.suffix_cons b rest)
        simp only [Option.map_some, encodeFound]
        rw [ih _ shorter (plain.suffix later) rfl, Text.utf8_cons]

-- Texts

theorem toNat_asChar (b : UInt8) : (asChar b).toNat = b.toNat := by
  have valid : b.toNat.isValidChar := .inl (by have := b.toNat_lt; omega)
  rw [asChar, Char.ofNat, dif_pos valid]
  rfl

theorem utf8_asChar {b : UInt8} (ascii : b.toNat < 128) (s : Text) : Text.utf8 (asChar b :: s) = b :: Text.utf8 s := by
  rw [Text.utf8_cons, asChar, Text.encodeChar_ascii ascii, List.singleton_append]

theorem ascii_utf8 {s : Text} (ascii : ∀ c ∈ s, c.toNat < 128) : ∀ b ∈ Text.utf8 s, b.toNat < 128 := by
  intro b member
  obtain ⟨c, inside, encoded⟩ := List.mem_flatMap.mp member
  rw [Text.encodeChar_of_ascii (ascii c inside), List.mem_singleton] at encoded
  have small := ascii c inside
  rw [encoded, Text.toNat_byte (by omega)]
  exact small

theorem infix_of_bytes {s : Text} {high low : UInt8} (h : high.toNat < 128) (l : low.toNat < 128)
    (inside : [0x5C, 0x78, high, low] <:+: Text.utf8 s) : ['\\', 'x', asChar high, asChar low] <:+: s := by
  have digits : Text.utf8 [asChar high, asChar low] = [high, low] := by
    rw [utf8_asChar h, utf8_asChar l]
    rfl
  have encoded : Text.utf8 ['\\', 'x', asChar high, asChar low] = [0x5C, 0x78, high, low] := by
    have backslash : Text.utf8 ['\\', 'x', asChar high, asChar low] = _ := utf8_asChar (b := 0x5C) (by decide) _
    have x : Text.utf8 ['x', asChar high, asChar low] = _ := utf8_asChar (b := 0x78) (by decide) _
    rw [backslash, x, digits]
  apply Text.infix_utf8 _ (by rwa [encoded])
  simp [toNat_asChar, h, l]

/-- The two decoders of backslash escapes agree on ASCII text, provided every `\xHH` in it stands for a byte that
is ASCII, for the one takes the byte for a character and the other for a part of one. -/
theorem jsDecode_eq_escapeSeqDecode (s : Text) (ascii : ∀ c ∈ s, c.toNat < 128)
    (escapes : ∀ high low byte, ['\\', 'x', high, low] <:+: s →
      hexByte (UInt8.ofNat high.toNat) (UInt8.ofNat low.toNat) = some byte → byte.toNat < 128) :
    jsDecode s = escapeSeqDecode s := by
  have bytes := ascii_utf8 ascii
  have plain : AsciiEscapes (Text.utf8 s) := by
    refine ⟨bytes, fun high low byte inside found => ?_⟩
    have h := bytes high (inside.subset (by simp))
    have l := bytes low (inside.subset (by simp))
    apply escapes _ _ byte (infix_of_bytes h l inside)
    rwa [toNat_asChar, toNat_asChar, UInt8.ofNat_toNat, UInt8.ofNat_toNat]
  rw [jsDecode, escapeSeqDecode, escapeSeqBytes_eq plain, Text.fromUtf8Lossy_utf8]

theorem jsDecode_eq_escapeSeqDecode_doubled :
    jsDecode "\\\\x41\\n\\u00e9\\uD800\\u12\\xG1\\".toList =
      escapeSeqDecode "\\\\x41\\n\\u00e9\\uD800\\u12\\xG1\\".toList := by
  apply jsDecode_eq_escapeSeqDecode
  · simp
  · intro high low byte inside found
    have digits : high = '4' ∧ low = '1' ∨ high = 'G' ∧ low = '1' := by simpa [List.infix_cons_iff] using inside
    rcases digits with ⟨rfl, rfl⟩ | ⟨rfl, rfl⟩
    · have letter : hexByte (UInt8.ofNat '4'.toNat) (UInt8.ofNat '1'.toNat) = some 0x41 := by decide
      rw [← Option.some.inj (letter.symm.trans found)]
      decide
    · have refused : hexByte (UInt8.ofNat 'G'.toNat) (UInt8.ofNat '1'.toNat) = none := by decide
      rw [refused] at found
      cases found

end MiniWaf.Crs
