import MiniWaf.Rete.WorkingMemory

/-! Percent escapes read back. The characters of a text are written as themselves or
as the escapes of their bytes, and the decoder does not mind which.
-/

set_option autoImplicit false

namespace MiniWaf.Rete

def HexDigit (n : Nat) (d : Char) : Prop := d = n.digitChar ∨ d = n.digitChar.toUpper

def IsEscape (b : UInt8) (w : Text) : Prop :=
  ∃ high low, HexDigit (b.toNat / 16) high ∧ HexDigit (b.toNat % 16) low ∧ w = ['%', high, low]

/-- A text of which each character is written as is allowed, or as the escapes of its bytes. -/
inductive Escaped (written : Char → Char → Prop) : Text → Text → Prop where
  | nil : Escaped written [] []
  | plain {c d : Char} {t e : Text} : written c d → Escaped written t e → Escaped written (c :: t) (d :: e)
  | escape {c : Char} {escapes : List Text} {t e : Text} :
    List.Forall₂ IsEscape (String.utf8EncodeChar c) escapes → Escaped written t e →
      Escaped written (c :: t) (escapes.flatten ++ e)

structure KeepsEscapes (f : Char → Char) : Prop where
  percent : f '%' = '%'
  digit : ∀ n d, n < 16 → HexDigit n d → f d = d

theorem keepsEscapes_id : KeepsEscapes id := ⟨rfl, fun _ _ _ _ => rfl⟩

def Reads (n : Nat) (d : Char) : Prop := d.toNat < 128 ∧ d.isAlphanum = true ∧ hexVal (UInt8.ofNat d.toNat) = some (UInt8.ofNat n)

instance (n : Nat) (d : Char) : Decidable (Reads n d) := inferInstanceAs (Decidable (_ ∧ _))

theorem digit_of_small (n : Nat) (small : n < 16) (d : Char) (digit : HexDigit n d) : Reads n d := by
  have table : ∀ m : Fin 16, Reads m.val m.val.digitChar ∧ Reads m.val m.val.digitChar.toUpper := by decide +kernel
  obtain ⟨lower, upper⟩ := table ⟨n, small⟩
  rcases digit with rfl | rfl
  · exact lower
  · exact upper

theorem percentDecode_escape {high low h l : UInt8} (first : hexVal high = some h) (second : hexVal low = some l)
    (rest : List UInt8) : percentDecode (0x25 :: high :: low :: rest) = ((h <<< 4) ||| l) :: percentDecode rest := by
  rw [percentDecode]
  simp only [if_true, first, second]

theorem nibbles (b : UInt8) : (UInt8.ofNat (b.toNat / 16) <<< 4) ||| UInt8.ofNat (b.toNat % 16) = b := by
  have table : ∀ n : Fin 256, (UInt8.ofNat (n.val / 16) <<< 4) ||| UInt8.ofNat (n.val % 16) = UInt8.ofNat n.val := by
    decide +kernel
  have here := table ⟨b.toNat, b.toNat_lt⟩
  rwa [UInt8.ofNat_toNat] at here

theorem percentDecode_append {block : List UInt8} (none : 0x25 ∉ block) (rest : List UInt8) :
    percentDecode (block ++ rest) = block ++ percentDecode rest := by
  induction block with
  | nil => rfl
  | cons b block ih =>
    rw [List.mem_cons, not_or] at none
    rw [List.cons_append, percentDecode.eq_def]
    simp only [if_neg (Ne.symm none.1)]
    rw [ih none.2, List.cons_append]

theorem percentDecode_char {c : Char} (other : c ≠ '%') (rest : List UInt8) :
    percentDecode (String.utf8EncodeChar c ++ rest) = String.utf8EncodeChar c ++ percentDecode rest := by
  apply percentDecode_append
  intro member
  have percent : c.toNat = 0x25 := Text.char_of_ascii_byte member (by decide)
  exact other (Char.toNat_inj.mp percent)

theorem not_mem_escapes {x : Char} (notPercent : x ≠ '%') (notAlphanum : x.isAlphanum = false) {bytes : List UInt8}
    {escapes : List Text} (each : List.Forall₂ IsEscape bytes escapes) : x ∉ escapes.flatten := by
  induction each with
  | nil => exact List.not_mem_nil
  | @cons b w bytes escapes here _ ih =>
    obtain ⟨high, low, isHigh, isLow, rfl⟩ := here
    have bound := b.toNat_lt
    obtain ⟨-, highDigit, -⟩ := digit_of_small _ (by omega) high isHigh
    obtain ⟨-, lowDigit, -⟩ := digit_of_small _ (by omega) low isLow
    have notDigit (d : Char) (digit : d.isAlphanum = true) : x ≠ d := by
      rintro rfl
      rw [digit] at notAlphanum
      cases notAlphanum
    rw [List.flatten_cons, List.mem_append, not_or]
    refine ⟨?_, ih⟩
    simp [notPercent, notDigit high highDigit, notDigit low lowDigit]

theorem Escaped.not_mem {written : Char → Char → Prop} {x : Char} (notPercent : x ≠ '%') (notAlphanum : x.isAlphanum = false)
    (never : ∀ c, ¬ written c x) {t e : Text} (escaped : Escaped written t e) : x ∉ e := by
  induction escaped with
  | nil => exact List.not_mem_nil
  | plain here _ ih =>
    rw [List.mem_cons, not_or]
    refine ⟨?_, ih⟩
    rintro rfl
    exact never _ here
  | escape each _ ih =>
    rw [List.mem_append, not_or]
    exact ⟨not_mem_escapes notPercent notAlphanum each, ih⟩

section
variable {f : Char → Char}

theorem percentDecode_isEscape (keeps : KeepsEscapes f) {b : UInt8} {w : Text} (escape : IsEscape b w)
    (rest : List UInt8) : percentDecode (Text.utf8 (w.map f) ++ rest) = b :: percentDecode rest := by
  obtain ⟨high, low, isHigh, isLow, rfl⟩ := escape
  have bound := b.toNat_lt
  have highSmall : b.toNat / 16 < 16 := by omega
  have lowSmall : b.toNat % 16 < 16 := by omega
  obtain ⟨highAscii, -, first⟩ := digit_of_small _ highSmall high isHigh
  obtain ⟨lowAscii, -, second⟩ := digit_of_small _ lowSmall low isLow
  have bytes : Text.utf8 (['%', high, low].map f) ++ rest =
      0x25 :: UInt8.ofNat high.toNat :: UInt8.ofNat low.toNat :: rest := by
    simp only [List.map_cons, List.map_nil, keeps.percent, keeps.digit _ _ highSmall isHigh, keeps.digit _ _ lowSmall isLow,
      Text.utf8_cons, Text.encodeChar_of_ascii highAscii, Text.encodeChar_of_ascii lowAscii]
    rfl
  rw [bytes, percentDecode_escape first second, nibbles]

theorem percentDecode_escapes (keeps : KeepsEscapes f) {bytes : List UInt8} {escapes : List Text}
    (each : List.Forall₂ IsEscape bytes escapes) (rest : List UInt8) :
    percentDecode (Text.utf8 (escapes.flatten.map f) ++ rest) = bytes ++ percentDecode rest := by
  induction each with
  | nil => rfl
  | cons here _ ih =>
    rw [List.flatten_cons, List.map_append, Text.utf8_append, List.append_assoc, percentDecode_isEscape keeps here, ih]
    rfl

/-- Whatever is escaped, decoding what a change of characters makes of the writing gives the bytes of the text. -/
theorem percentDecode_escaped (keeps : KeepsEscapes f) {written : Char → Char → Prop}
    (plain : ∀ c d, written c d → f d = c ∧ c ≠ '%') {t e : Text} (escaped : Escaped written t e) :
    percentDecode (Text.utf8 (e.map f)) = Text.utf8 t := by
  induction escaped with
  | nil => rfl
  | plain here _ ih =>
    obtain ⟨same, other⟩ := plain _ _ here
    rw [List.map_cons, Text.utf8_cons, Text.utf8_cons, same, percentDecode_char other, ih]
  | escape each _ ih =>
    rw [List.map_append, Text.utf8_append, percentDecode_escapes keeps each, ih, Text.utf8_cons]

end

end MiniWaf.Rete
