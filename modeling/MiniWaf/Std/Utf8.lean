import MiniWaf.Std.Text

/-! UTF-8 bytes of text and Rust's `String::from_utf8_lossy`. -/

set_option autoImplicit false

namespace MiniWaf

namespace Text

def utf8 (s : Text) : List UInt8 := s.flatMap String.utf8EncodeChar

def isContinuation (b : UInt8) : Bool := 0x80 ≤ b && b ≤ 0xBF

def secondOfThree (lead b : UInt8) : Bool :=
  if lead = 0xE0 then 0xA0 ≤ b && b ≤ 0xBF
  else if lead = 0xED then 0x80 ≤ b && b ≤ 0x9F
  else isContinuation b

def secondOfFour (lead b : UInt8) : Bool :=
  if lead = 0xF0 then 0x90 ≤ b && b ≤ 0xBF
  else if lead = 0xF4 then 0x80 ≤ b && b ≤ 0x8F
  else isContinuation b

def payload (b : UInt8) (modulus : Nat) : Nat := b.toNat % modulus

def replacementChar : Char := Char.ofNat 0xFFFD

/-- Each maximal invalid prefix becomes one U+FFFD. -/
def fromUtf8Lossy : List UInt8 → Text
  | [] => []
  | a :: rest =>
    if a < 0x80 then Char.ofNat a.toNat :: fromUtf8Lossy rest
    else if 0xC2 ≤ a && a ≤ 0xDF then
      match rest with
      | b :: rest' =>
        if isContinuation b then
          Char.ofNat (payload a 32 * 64 + payload b 64) :: fromUtf8Lossy rest'
        else replacementChar :: fromUtf8Lossy (b :: rest')
      | [] => [replacementChar]
    else if 0xE0 ≤ a && a ≤ 0xEF then
      match rest with
      | b :: rest' =>
        if secondOfThree a b then
          match rest' with
          | c :: rest'' =>
            if isContinuation c then
              Char.ofNat (payload a 16 * 4096 + payload b 64 * 64 + payload c 64) :: fromUtf8Lossy rest''
            else replacementChar :: fromUtf8Lossy (c :: rest'')
          | [] => [replacementChar]
        else replacementChar :: fromUtf8Lossy (b :: rest')
      | [] => [replacementChar]
    else if 0xF0 ≤ a && a ≤ 0xF4 then
      match rest with
      | b :: rest' =>
        if secondOfFour a b then
          match rest' with
          | c :: rest'' =>
            if isContinuation c then
              match rest'' with
              | d :: rest''' =>
                if isContinuation d then
                  Char.ofNat (payload a 8 * 262144 + payload b 64 * 4096 + payload c 64 * 64 + payload d 64)
                    :: fromUtf8Lossy rest'''
                else replacementChar :: fromUtf8Lossy (d :: rest''')
              | [] => [replacementChar]
            else replacementChar :: fromUtf8Lossy (c :: rest'')
          | [] => [replacementChar]
        else replacementChar :: fromUtf8Lossy (b :: rest')
      | [] => [replacementChar]
    else replacementChar :: fromUtf8Lossy rest

example : fromUtf8Lossy (utf8 "é€".toList) = "é€".toList := by decide

/-- `str::from_utf8`: bytes are valid when they are the encoding of the text read from them. -/
def fromUtf8 (bytes : List UInt8) : Option Text :=
  if utf8 (fromUtf8Lossy bytes) = bytes then some (fromUtf8Lossy bytes) else none

-- What is read back from the bytes of a text

theorem ascii_iff (b : UInt8) : b < 0x80 ↔ b.toNat < 128 := UInt8.lt_iff_toNat_lt

theorem between_iff (low b high : UInt8) :
    (decide (low ≤ b) && decide (b ≤ high)) = decide (low.toNat ≤ b.toNat ∧ b.toNat ≤ high.toNat) := by
  simp only [UInt8.le_iff_toNat_le, Bool.decide_and]

theorem isContinuation_iff (b : UInt8) : isContinuation b = true ↔ 128 ≤ b.toNat ∧ b.toNat ≤ 191 := by
  rw [isContinuation, between_iff, decide_eq_true_eq]
  rfl

theorem second_of {lead low high least most b : UInt8} (continues : 128 ≤ b.toNat ∧ b.toNat ≤ 191)
    (above : lead.toNat = low.toNat → least.toNat ≤ b.toNat) (below : lead.toNat = high.toNat → b.toNat ≤ most.toNat) :
    (if lead = low then decide (least ≤ b) && decide (b ≤ 0xBF)
      else if lead = high then decide (0x80 ≤ b) && decide (b ≤ most) else isContinuation b) = true := by
  by_cases short : lead = low
  · rw [if_pos short, between_iff, decide_eq_true_eq]
    exact ⟨above (congrArg UInt8.toNat short), continues.2⟩
  rw [if_neg short]
  by_cases long : lead = high
  · rw [if_pos long, between_iff, decide_eq_true_eq]
    exact ⟨continues.1, below (congrArg UInt8.toNat long)⟩
  · rw [if_neg long]
    exact (isContinuation_iff b).mpr continues

theorem secondOfThree_of (lead b : UInt8) (continues : 128 ≤ b.toNat ∧ b.toNat ≤ 191)
    (notShort : lead.toNat = 224 → 160 ≤ b.toNat) (notSurrogate : lead.toNat = 237 → b.toNat ≤ 159) :
    secondOfThree lead b = true := second_of continues notShort notSurrogate

theorem secondOfFour_of (lead b : UInt8) (continues : 128 ≤ b.toNat ∧ b.toNat ≤ 191)
    (notShort : lead.toNat = 240 → 144 ≤ b.toNat) (notBeyond : lead.toNat = 244 → b.toNat ≤ 143) :
    secondOfFour lead b = true := second_of continues notShort notBeyond

theorem fromUtf8Lossy_one {a : UInt8} (ascii : a.toNat < 128) (rest : List UInt8) :
    fromUtf8Lossy (a :: rest) = Char.ofNat a.toNat :: fromUtf8Lossy rest := by
  rw [fromUtf8Lossy.eq_def]
  simp only [if_pos ((ascii_iff a).mpr ascii)]

theorem fromUtf8Lossy_two {a b : UInt8} (lead : 194 ≤ a.toNat ∧ a.toNat ≤ 223) (second : isContinuation b = true)
    (rest : List UInt8) : fromUtf8Lossy (a :: b :: rest) =
      Char.ofNat (payload a 32 * 64 + payload b 64) :: fromUtf8Lossy rest := by
  have notAscii : ¬ a < 0x80 := by
    rw [ascii_iff]
    omega
  rw [fromUtf8Lossy.eq_def]
  simp only [if_neg notAscii, between_iff, second]
  simp [lead]

theorem fromUtf8Lossy_three {a b c : UInt8} (lead : 224 ≤ a.toNat ∧ a.toNat ≤ 239) (second : secondOfThree a b = true)
    (third : isContinuation c = true) (rest : List UInt8) : fromUtf8Lossy (a :: b :: c :: rest) =
      Char.ofNat (payload a 16 * 4096 + payload b 64 * 64 + payload c 64) :: fromUtf8Lossy rest := by
  have notAscii : ¬ a < 0x80 := by
    rw [ascii_iff]
    omega
  have notTwo : ¬ a.toNat ≤ 223 := by omega
  rw [fromUtf8Lossy.eq_def]
  simp only [if_neg notAscii, between_iff, second, third]
  simp [lead, notTwo]

theorem fromUtf8Lossy_four {a b c d : UInt8} (lead : 240 ≤ a.toNat ∧ a.toNat ≤ 244) (second : secondOfFour a b = true)
    (third : isContinuation c = true) (fourth : isContinuation d = true) (rest : List UInt8) :
    fromUtf8Lossy (a :: b :: c :: d :: rest) =
      Char.ofNat (payload a 8 * 262144 + payload b 64 * 4096 + payload c 64 * 64 + payload d 64) ::
        fromUtf8Lossy rest := by
  have notAscii : ¬ a < 0x80 := by
    rw [ascii_iff]
    omega
  have notTwo : ¬ a.toNat ≤ 223 := by omega
  have notThree : ¬ a.toNat ≤ 239 := by omega
  rw [fromUtf8Lossy.eq_def]
  simp only [if_neg notAscii, between_iff, second, third, fourth]
  simp [lead, notTwo, notThree]

theorem toNat_byte {n : Nat} (small : n < 256) : (UInt8.ofNat n).toNat = n := by
  rw [UInt8.toNat_ofNat', Nat.mod_eq_of_lt small]

theorem scalarValue (c : Char) : c.toNat < 0xD800 ∨ 0xDFFF < c.toNat ∧ c.toNat < 0x110000 := c.valid

theorem fromUtf8Lossy_char (c : Char) (rest : List UInt8) :
    fromUtf8Lossy (String.utf8EncodeChar c ++ rest) = c :: fromUtf8Lossy rest := by
  have valid := scalarValue c
  have continues : ∀ n, isContinuation (UInt8.ofNat (n % 64 + 128)) = true := by
    intro n
    rw [isContinuation_iff, toNat_byte (by omega)]
    omega
  have bits : ∀ n, payload (UInt8.ofNat (n % 64 + 128)) 64 = n % 64 := by
    intro n
    rw [payload, toNat_byte (by omega)]
    omega
  unfold String.utf8EncodeChar
  simp only [Char.toNat_val]
  split
  · rename_i one
    change fromUtf8Lossy (UInt8.ofNat c.toNat :: rest) = _
    rw [fromUtf8Lossy_one (by rw [toNat_byte (by omega)]; omega), toNat_byte (by omega), Char.ofNat_toNat]
  · split
    · rename_i notOne two
      have lead : (UInt8.ofNat (c.toNat / 64 % 0x20 + 0xc0)).toNat = c.toNat / 64 % 32 + 192 := toNat_byte (by omega)
      refine (fromUtf8Lossy_two (by rw [lead]; omega) (continues _) rest).trans ?_
      have number : payload (UInt8.ofNat (c.toNat / 64 % 0x20 + 0xc0)) 32 * 64 + c.toNat % 64 = c.toNat := by
        rw [payload, lead]
        omega
      rw [bits, number, Char.ofNat_toNat]
    · split
      · rename_i notOne notTwo three
        have lead : (UInt8.ofNat (c.toNat / 4096 % 0x10 + 0xe0)).toNat = c.toNat / 4096 % 16 + 224 := toNat_byte (by omega)
        have second : (UInt8.ofNat (c.toNat / 64 % 0x40 + 0x80)).toNat = c.toNat / 64 % 64 + 128 := toNat_byte (by omega)
        refine (fromUtf8Lossy_three (by rw [lead]; omega) (secondOfThree_of _ _ ?_ ?_ ?_) (continues _) rest).trans ?_
        · rw [second]
          omega
        · rw [second, lead]
          omega
        · rw [second, lead]
          omega
        · have number : payload (UInt8.ofNat (c.toNat / 4096 % 0x10 + 0xe0)) 16 * 4096 + c.toNat / 64 % 64 * 64 +
              c.toNat % 64 = c.toNat := by
            rw [payload, lead]
            omega
          rw [bits, bits, number, Char.ofNat_toNat]
      · rename_i notOne notTwo notThree
        have lead : (UInt8.ofNat (c.toNat / 262144 % 0x08 + 0xf0)).toNat = c.toNat / 262144 % 8 + 240 :=
          toNat_byte (by omega)
        have second : (UInt8.ofNat (c.toNat / 4096 % 0x40 + 0x80)).toNat = c.toNat / 4096 % 64 + 128 :=
          toNat_byte (by omega)
        refine (fromUtf8Lossy_four (by rw [lead]; omega) (secondOfFour_of _ _ ?_ ?_ ?_) (continues _) (continues _)
          rest).trans ?_
        · rw [second]
          omega
        · rw [second, lead]
          omega
        · rw [second, lead]
          omega
        · have number : payload (UInt8.ofNat (c.toNat / 262144 % 0x08 + 0xf0)) 8 * 262144 +
              c.toNat / 4096 % 64 * 4096 + c.toNat / 64 % 64 * 64 + c.toNat % 64 = c.toNat := by
            rw [payload, lead]
            omega
          rw [bits, bits, bits, number, Char.ofNat_toNat]

theorem encodeChar_ascii {b : UInt8} (ascii : b.toNat < 128) : String.utf8EncodeChar (Char.ofNat b.toNat) = [b] := by
  have valid : b.toNat.isValidChar := .inl (by omega)
  have number : (Char.ofNat b.toNat).toNat = b.toNat := by
    rw [Char.ofNat, dif_pos valid]
    rfl
  unfold String.utf8EncodeChar
  simp only [Char.toNat_val, number]
  rw [if_pos (by omega), UInt8.ofNat_toNat]

/-- Text survives its own bytes. -/
theorem fromUtf8Lossy_utf8 (s : Text) : fromUtf8Lossy (utf8 s) = s := by
  induction s with
  | nil => rfl
  | cons c s ih =>
    change fromUtf8Lossy (String.utf8EncodeChar c ++ utf8 s) = c :: s
    rw [fromUtf8Lossy_char, ih]

theorem fromUtf8_eq_some (bytes : List UInt8) (t : Text) : fromUtf8 bytes = some t ↔ bytes = utf8 t := by
  unfold fromUtf8
  constructor
  · intro read
    split at read
    · rename_i valid
      rw [← Option.some.inj read, valid]
    · cases read
  · rintro rfl
    rw [fromUtf8Lossy_utf8, if_pos rfl]

theorem char_of_ascii_byte {c : Char} {b : UInt8} (member : b ∈ String.utf8EncodeChar c) (ascii : b.toNat < 128) :
    c.toNat = b.toNat := by
  have high : ∀ n m, 128 ≤ m → m + n ≤ 255 → b = UInt8.ofNat (n + m) → False := by
    intro n m large small same
    rw [same, toNat_byte (by omega)] at ascii
    omega
  unfold String.utf8EncodeChar at member
  simp only [Char.toNat_val] at member
  split at member
  · rename_i one
    rw [List.mem_singleton.mp member, toNat_byte (by omega)]
  · exfalso
    split at member
    · simp only [List.mem_cons, List.not_mem_nil, or_false] at member
      rcases member with same | same <;> exact high _ _ (by omega) (by omega) same
    · split at member
      · simp only [List.mem_cons, List.not_mem_nil, or_false] at member
        rcases member with same | same | same <;> exact high _ _ (by omega) (by omega) same
      · simp only [List.mem_cons, List.not_mem_nil, or_false] at member
        rcases member with same | same | same | same <;> exact high _ _ (by omega) (by omega) same

-- ASCII characters are bytes of their own, and the bytes of the others are none of theirs

theorem utf8_cons (c : Char) (s : Text) : utf8 (c :: s) = String.utf8EncodeChar c ++ utf8 s := List.flatMap_cons

theorem utf8_append (s t : Text) : utf8 (s ++ t) = utf8 s ++ utf8 t := List.flatMap_append

theorem encodeChar_of_ascii {c : Char} (ascii : c.toNat < 128) : String.utf8EncodeChar c = [UInt8.ofNat c.toNat] := by
  have number : (UInt8.ofNat c.toNat).toNat = c.toNat := toNat_byte (by omega)
  have encoded := encodeChar_ascii (b := UInt8.ofNat c.toNat) (by omega)
  rwa [number, Char.ofNat_toNat] at encoded

theorem high_of_mem {c : Char} (high : 128 ≤ c.toNat) {b : UInt8} (member : b ∈ String.utf8EncodeChar c) :
    128 ≤ b.toNat := by
  by_contra low
  have same := char_of_ascii_byte member (by omega)
  omega

theorem byte_injective {c d : Char} (first : c.toNat < 128) (second : d.toNat < 128)
    (same : UInt8.ofNat c.toNat = UInt8.ofNat d.toNat) : c = d := by
  have numbers := congrArg UInt8.toNat same
  rw [toNat_byte (by omega), toNat_byte (by omega)] at numbers
  exact Char.toNat_inj.mp numbers

theorem cons_prefix_utf8 {c : Char} (ascii : c.toNat < 128) {bytes : List UInt8} {s : Text}
    (front : UInt8.ofNat c.toNat :: bytes <+: utf8 s) : ∃ rest, s = c :: rest ∧ bytes <+: utf8 rest := by
  cases s with
  | nil => simp [utf8] at front
  | cons d s =>
    rw [utf8_cons] at front
    by_cases low : d.toNat < 128
    · rw [encodeChar_of_ascii low, List.singleton_append, List.cons_prefix_cons] at front
      exact ⟨s, by rw [byte_injective ascii low front.1], front.2⟩
    · have inside : UInt8.ofNat c.toNat ∈ String.utf8EncodeChar d := by
        obtain ⟨b, more, block⟩ := List.exists_cons_of_ne_nil (String.utf8EncodeChar_ne_nil (c := d))
        rw [block, List.cons_append, List.cons_prefix_cons] at front
        rw [block, front.1]
        exact List.mem_cons_self
      have high := high_of_mem (by omega) inside
      rw [toNat_byte (by omega)] at high
      omega

theorem prefix_utf8 {needle s : Text} (ascii : ∀ c ∈ needle, c.toNat < 128) (front : utf8 needle <+: utf8 s) :
    needle <+: s := by
  induction needle generalizing s with
  | nil => exact List.nil_prefix
  | cons c needle ih =>
    obtain ⟨here, later⟩ := List.forall_mem_cons.mp ascii
    rw [utf8_cons, encodeChar_of_ascii here] at front
    obtain ⟨rest, rfl, tail⟩ := cons_prefix_utf8 here front
    exact List.cons_prefix_cons.mpr ⟨rfl, ih later tail⟩

theorem infix_utf8 {needle s : Text} (allAscii : (needle.all fun c => c.toNat < 128) = true)
    (inside : utf8 needle <:+: utf8 s) : needle <:+: s := by
  have ascii : ∀ c ∈ needle, c.toNat < 128 := by simpa using allAscii
  clear allAscii
  cases needle with
  | nil => exact List.nil_infix
  | cons c needle =>
    have here : c.toNat < 128 := ascii c List.mem_cons_self
    induction s with
    | nil =>
      rw [utf8_cons, encodeChar_of_ascii here] at inside
      simp [utf8] at inside
    | cons d s ih =>
      by_cases low : d.toNat < 128
      · rw [utf8_cons d, encodeChar_of_ascii low, List.singleton_append, List.infix_cons_iff] at inside
        rw [List.infix_cons_iff]
        refine inside.imp (fun front => ?_) ih
        apply prefix_utf8 ascii
        rwa [utf8_cons d, encodeChar_of_ascii low]
      · rw [utf8_cons c, encodeChar_of_ascii here, utf8_cons d] at inside
        have absent : UInt8.ofNat c.toNat ∉ String.utf8EncodeChar d := by
          intro member
          have high := high_of_mem (by omega) member
          rw [toNat_byte (by omega)] at high
          omega
        have later := infix_of_infix_append absent inside
        rw [← List.singleton_append, ← encodeChar_of_ascii here] at later
        exact List.infix_cons_iff.mpr (.inr (ih later))

theorem length_le_utf8 (s : Text) :
    s.length ≤ (utf8 s).length ∧ ((utf8 s).length = s.length → ∀ c ∈ s, c.toNat < 128) := by
  induction s with
  | nil => exact ⟨Nat.le_refl _, fun _ c member => absurd member List.not_mem_nil⟩
  | cons c s ih =>
    have size : 0 < (String.utf8EncodeChar c).length := List.length_pos_of_ne_nil String.utf8EncodeChar_ne_nil
    rw [utf8_cons, List.length_append, List.length_cons]
    refine ⟨by omega, ?_⟩
    intro same
    have one : (String.utf8EncodeChar c).length = 1 := by omega
    rw [String.length_utf8EncodeChar, Char.utf8Size_eq_one_iff, UInt32.le_iff_toNat_le, Char.toNat_val] at one
    have small : c.toNat ≤ 127 := one
    exact List.forall_mem_cons.mpr ⟨by omega, ih.2 (by omega)⟩

-- Bytes without a replacement

theorem toNat_ofNat {n : Nat} (valid : n.isValidChar) : (Char.ofNat n).toNat = n := by
  rw [Char.ofNat, dif_pos valid]
  rfl

theorem byte_eq {n : Nat} {b : UInt8} (same : n = b.toNat) : UInt8.ofNat n = b := by
  rw [same, UInt8.ofNat_toNat]

theorem encodeChar_two {a b : UInt8} (lead : 194 ≤ a.toNat ∧ a.toNat ≤ 223) (second : isContinuation b = true) :
    String.utf8EncodeChar (Char.ofNat (payload a 32 * 64 + payload b 64)) = [a, b] := by
  rw [isContinuation_iff] at second
  simp only [payload]
  have number := toNat_ofNat (n := a.toNat % 32 * 64 + b.toNat % 64) (.inl (by omega))
  unfold String.utf8EncodeChar
  simp only [Char.toNat_val, number]
  rw [if_neg (by omega), if_pos (by omega), byte_eq (b := a) (by omega), byte_eq (b := b) (by omega)]

theorem secondOfThree_iff (lead b : UInt8) : secondOfThree lead b = true ↔ (128 ≤ b.toNat ∧ b.toNat ≤ 191) ∧
    (lead.toNat = 224 → 160 ≤ b.toNat) ∧ (lead.toNat = 237 → b.toNat ≤ 159) := by
  refine ⟨fun second => ?_, fun ⟨continues, notShort, notSurrogate⟩ => secondOfThree_of lead b continues notShort notSurrogate⟩
  unfold secondOfThree at second
  split at second
  · rename_i short
    rw [between_iff, decide_eq_true_eq] at second
    subst short
    simp at second ⊢
    omega
  · rename_i notShort
    have other : lead.toNat ≠ 224 := fun same => notShort (UInt8.toNat_inj.mp same)
    split at second
    · rename_i surrogate
      rw [between_iff, decide_eq_true_eq] at second
      subst surrogate
      simp at second ⊢
      omega
    · rename_i notSurrogate
      have plain : lead.toNat ≠ 237 := fun same => notSurrogate (UInt8.toNat_inj.mp same)
      rw [isContinuation_iff] at second
      exact ⟨second, fun same => absurd same other, fun same => absurd same plain⟩

theorem secondOfFour_iff (lead b : UInt8) : secondOfFour lead b = true ↔ (128 ≤ b.toNat ∧ b.toNat ≤ 191) ∧
    (lead.toNat = 240 → 144 ≤ b.toNat) ∧ (lead.toNat = 244 → b.toNat ≤ 143) := by
  refine ⟨fun second => ?_, fun ⟨continues, notShort, notBeyond⟩ => secondOfFour_of lead b continues notShort notBeyond⟩
  unfold secondOfFour at second
  split at second
  · rename_i short
    rw [between_iff, decide_eq_true_eq] at second
    subst short
    simp at second ⊢
    omega
  · rename_i notShort
    have other : lead.toNat ≠ 240 := fun same => notShort (UInt8.toNat_inj.mp same)
    split at second
    · rename_i beyond
      rw [between_iff, decide_eq_true_eq] at second
      subst beyond
      simp at second ⊢
      omega
    · rename_i notBeyond
      have plain : lead.toNat ≠ 244 := fun same => notBeyond (UInt8.toNat_inj.mp same)
      rw [isContinuation_iff] at second
      exact ⟨second, fun same => absurd same other, fun same => absurd same plain⟩

theorem encodeChar_three {a b c : UInt8} (lead : 224 ≤ a.toNat ∧ a.toNat ≤ 239) (second : secondOfThree a b = true)
    (third : isContinuation c = true) :
    String.utf8EncodeChar (Char.ofNat (payload a 16 * 4096 + payload b 64 * 64 + payload c 64)) = [a, b, c] := by
  rw [secondOfThree_iff] at second
  rw [isContinuation_iff] at third
  simp only [payload]
  have number := toNat_ofNat (n := a.toNat % 16 * 4096 + b.toNat % 64 * 64 + c.toNat % 64) (by
    rw [Nat.isValidChar]
    omega)
  unfold String.utf8EncodeChar
  simp only [Char.toNat_val, number]
  rw [if_neg (by omega), if_neg (by omega), if_pos (by omega), byte_eq (b := a) (by omega), byte_eq (b := b) (by omega),
    byte_eq (b := c) (by omega)]

theorem encodeChar_four {a b c d : UInt8} (lead : 240 ≤ a.toNat ∧ a.toNat ≤ 244) (second : secondOfFour a b = true)
    (third : isContinuation c = true) (fourth : isContinuation d = true) : String.utf8EncodeChar
      (Char.ofNat (payload a 8 * 262144 + payload b 64 * 4096 + payload c 64 * 64 + payload d 64)) = [a, b, c, d] := by
  rw [secondOfFour_iff] at second
  rw [isContinuation_iff] at third fourth
  simp only [payload]
  have number := toNat_ofNat
    (n := a.toNat % 8 * 262144 + b.toNat % 64 * 4096 + c.toNat % 64 * 64 + d.toNat % 64) (by
      rw [Nat.isValidChar]
      omega)
  unfold String.utf8EncodeChar
  simp only [Char.toNat_val, number]
  rw [if_neg (by omega), if_neg (by omega), if_neg (by omega), byte_eq (b := a) (by omega), byte_eq (b := b) (by omega),
    byte_eq (b := c) (by omega), byte_eq (b := d) (by omega)]

/-- Bytes that are read without a replacement are the text's own. -/
theorem utf8_of_whole {bytes : List UInt8} (whole : replacementChar ∉ fromUtf8Lossy bytes) :
    utf8 (fromUtf8Lossy bytes) = bytes := by
  have split {c : Char} {s : Text} (absent : replacementChar ∉ c :: s) : replacementChar ∉ s :=
    fun member => absent (List.mem_cons_of_mem c member)
  have lost {s : Text} (absent : replacementChar ∉ replacementChar :: s) : False := absent List.mem_cons_self
  fun_induction fromUtf8Lossy bytes with
  | case1 => rfl
  | case2 a rest ascii ih =>
    rw [utf8_cons, encodeChar_ascii ((ascii_iff a).mp ascii), ih (split whole)]
    rfl
  | case3 a notAscii lead b rest second ih =>
    rw [between_iff, decide_eq_true_eq] at lead
    rw [utf8_cons, encodeChar_two lead second, ih (split whole)]
    rfl
  | case6 a notAscii notTwo lead b second c rest third ih =>
    rw [between_iff, decide_eq_true_eq] at lead
    rw [utf8_cons, encodeChar_three lead second third, ih (split whole)]
    rfl
  | case11 a notAscii notTwo notThree lead b second c third d rest fourth ih =>
    rw [between_iff, decide_eq_true_eq] at lead
    rw [utf8_cons, encodeChar_four lead second third fourth, ih (split whole)]
    rfl
  | _ => exact (lost whole).elim

/-- A replacement character tells bytes that are no text, or a text that has one itself. -/
theorem replacement_iff (bytes : List UInt8) :
    replacementChar ∈ fromUtf8Lossy bytes ↔ ∀ t, bytes = utf8 t → replacementChar ∈ t := by
  constructor
  · rintro member t rfl
    rwa [fromUtf8Lossy_utf8] at member
  · intro every
    by_contra absent
    exact absent (every _ (utf8_of_whole absent).symm)

end Text

end MiniWaf
