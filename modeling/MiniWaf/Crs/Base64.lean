import MiniWaf.Crs.Transform
import MiniWaf.Std.Base64

/-! The base64 decoder reads an encoding back, whatever is inserted into it. -/

set_option autoImplicit false

namespace MiniWaf.Crs

def keeps (b : UInt8) : Bool := (sextet b).isSome || b == 0x3D

-- The table

def codes : List Nat := List.range' 65 26 ++ List.range' 97 26 ++ List.range' 48 10 ++ [43, 47]

theorem alphabet_eq : alphabet = codes.map UInt8.ofNat := by decide

theorem findIdx?_bytes {numbers : List Nat} {n : Nat} (bytes : ∀ m ∈ numbers, m < 256) (byte : n < 256) :
    (numbers.map UInt8.ofNat).findIdx? (· == UInt8.ofNat n) = numbers.findIdx? (· == n) := by
  induction numbers with
  | nil => rfl
  | cons m numbers ih =>
    obtain ⟨here, later⟩ := List.forall_mem_cons.mp bytes
    have same : (UInt8.ofNat m == UInt8.ofNat n) = (m == n) := by
      rw [Bool.eq_iff_iff, beq_iff_eq, beq_iff_eq, ← UInt8.toNat_inj, Text.toNat_byte here, Text.toNat_byte byte]
    rw [List.map_cons, List.findIdx?_cons, List.findIdx?_cons, same, ih later]

theorem sextet_ofNat {n : Nat} (byte : n < 256) :
    sextet (UInt8.ofNat n) = (codes.findIdx? (· == n)).map UInt8.ofNat := by
  have bytes : ∀ m ∈ codes, m < 256 := by
    simp only [codes, List.mem_append, List.mem_range'_1, List.mem_cons, List.not_mem_nil, or_false]
    omega
  rw [sextet, alphabet_eq, findIdx?_bytes bytes byte]

theorem digit_table {n : Nat} (small : n < 64) :
    (Base64.digit n).toNat < 128 ∧ Base64.isUsed (Base64.digit n) = true ∧
      codes.findIdx? (· == (Base64.digit n).toNat) = some n := by
  have table : ∀ m : Fin 64, (Base64.digit m.val).toNat < 128 ∧ Base64.isUsed (Base64.digit m.val) = true ∧
      codes.findIdx? (· == (Base64.digit m.val).toNat) = some m.val := by decide
  exact table ⟨n, small⟩

theorem sextet_digit {n : Nat} (small : n < 64) :
    sextet (UInt8.ofNat (Base64.digit n).toNat) = some (UInt8.ofNat n) := by
  obtain ⟨ascii, _, index⟩ := digit_table small
  rw [sextet_ofNat (by omega), index, Option.map_some]

theorem keeps_ofNat {n : Nat} (byte : n < 256) :
    keeps (UInt8.ofNat n) = ((codes.findIdx? (· == n)).isSome || n == 0x3D) := by
  have padding : (UInt8.ofNat n == 0x3D) = (n == 0x3D) := by
    rw [Bool.eq_iff_iff, beq_iff_eq, beq_iff_eq, ← UInt8.toNat_inj, Text.toNat_byte byte]
    rfl
  rw [keeps, sextet_ofNat byte, Option.isSome_map, padding]

theorem isSome_codes (n : Nat) :
    (codes.findIdx? (· == n)).isSome = true ↔
      (65 ≤ n ∧ n < 91) ∨ (97 ≤ n ∧ n < 123) ∨ (48 ≤ n ∧ n < 58) ∨ n = 43 ∨ n = 47 := by
  rw [List.findIdx?_isSome, List.any_beq']
  simp [codes, List.mem_range'_1]

theorem keeps_ascii {c : Char} (ascii : c.toNat < 128) : keeps (UInt8.ofNat c.toNat) = Base64.isUsed c := by
  have char (d : Char) : c = d ↔ c.toNat = d.toNat := Char.toNat_inj.symm
  have upper : c.isUpper = true ↔ 65 ≤ c.toNat ∧ c.toNat ≤ 90 := decide_eq_true_iff
  have range (least most : Char) :
      (decide (least.val ≤ c.val) && decide (c.val ≤ most.val)) = true ↔ least.toNat ≤ c.toNat ∧ c.toNat ≤ most.toNat := by
    rw [Bool.and_eq_true, decide_eq_true_iff, decide_eq_true_iff]
    rfl
  have lower : c.isLower = true ↔ 97 ≤ c.toNat ∧ c.toNat ≤ 122 := range 'a' 'z'
  have number : c.isDigit = true ↔ 48 ≤ c.toNat ∧ c.toNat ≤ 57 := range '0' '9'
  have letters : c.isAlphanum = ((c.isUpper || c.isLower) || c.isDigit) := rfl
  rw [keeps_ofNat (by omega), Bool.eq_iff_iff, Bool.or_eq_true, isSome_codes, Base64.isUsed, letters]
  simp only [Bool.or_eq_true, upper, lower, number, beq_iff_eq, char, Char.reduceToNat]
  omega

theorem not_keeps_high {b : UInt8} (high : 128 ≤ b.toNat) : keeps b = false := by
  have kept := keeps_ofNat b.toNat_lt
  rw [UInt8.ofNat_toNat] at kept
  rw [← Bool.not_eq_true, kept, Bool.or_eq_true, isSome_codes, beq_iff_eq]
  omega

theorem filter_utf8_ascii {c : Char} (ascii : c.toNat < 128) (s : Text) :
    (Text.utf8 (c :: s)).filter keeps =
      if Base64.isUsed c then UInt8.ofNat c.toNat :: (Text.utf8 s).filter keeps else (Text.utf8 s).filter keeps := by
  rw [Text.utf8_cons, Text.encodeChar_of_ascii ascii, List.singleton_append, List.filter_cons, keeps_ascii ascii]

theorem filter_utf8_high {c : Char} (high : 128 ≤ c.toNat) (s : Text) :
    (Text.utf8 (c :: s)).filter keeps = (Text.utf8 s).filter keeps := by
  have none : (String.utf8EncodeChar c).filter keeps = [] := by
    rw [List.filter_eq_nil_iff]
    intro b member
    rw [not_keeps_high (Text.high_of_mem high member)]
    exact Bool.false_ne_true
  rw [Text.utf8_cons, List.filter_append, none, List.nil_append]

theorem filter_noisy {e noisy : Text} (isNoisy : Base64.Noisy e noisy) :
    (Text.utf8 noisy).filter keeps = (Text.utf8 e).filter keeps := by
  induction isNoisy with
  | nil => rfl
  | keep c _ ih => rw [Text.utf8_cons, Text.utf8_cons, List.filter_append, List.filter_append, ih]
  | @insert c e noisy unused _ ih =>
    by_cases ascii : c.toNat < 128
    · rw [filter_utf8_ascii ascii, unused, if_neg Bool.false_ne_true, ih]
    · rw [filter_utf8_high (by omega), ih]

theorem filter_encode (bytes : List UInt8) :
    (Text.utf8 (Base64.encode bytes)).filter keeps = (Base64.encode bytes).map fun c => UInt8.ofNat c.toNat := by
  have each : ∀ c ∈ Base64.encode bytes, c.toNat < 128 ∧ Base64.isUsed c = true :=
    Base64.forall_mem_encode (by decide) (fun n small => ⟨(digit_table small).1, (digit_table small).2.1⟩) bytes
  generalize Base64.encode bytes = e at each
  induction e with
  | nil => rfl
  | cons c e ih =>
    obtain ⟨⟨ascii, isUsed⟩, later⟩ := List.forall_mem_cons.mp each
    rw [filter_utf8_ascii ascii, isUsed, if_pos rfl, ih later, List.map_cons]

-- Bits

theorem or_byte {k a b : Nat} (low : b < 2 ^ k) (fits : 2 ^ k * a + b < 256) :
    UInt8.ofNat (2 ^ k * a) ||| UInt8.ofNat b = UInt8.ofNat (2 ^ k * a + b) := by
  apply UInt8.toNat_inj.mp
  rw [UInt8.toNat_or, Text.toNat_byte (by omega), Text.toNat_byte (by omega), Text.toNat_byte fits,
    Nat.two_pow_add_eq_or_of_lt low]

theorem sextet_parts {v : Nat} (small : v < 64) :
    (UInt8.ofNat v <<< 2 = UInt8.ofNat (2 ^ 2 * v) ∧ (UInt8.ofNat v &&& 0x30) >>> 4 = UInt8.ofNat (v / 16)) ∧
      ((UInt8.ofNat v &&& 0x0F) <<< 4 = UInt8.ofNat (2 ^ 4 * (v % 16)) ∧
        (UInt8.ofNat v &&& 0x3C) >>> 2 = UInt8.ofNat (v / 4)) ∧
      (UInt8.ofNat v &&& 0x03) <<< 6 = UInt8.ofNat (2 ^ 6 * (v % 4)) := by
  have table : ∀ m : Fin 64,
      (UInt8.ofNat m.val <<< 2 = UInt8.ofNat (2 ^ 2 * m.val) ∧
        (UInt8.ofNat m.val &&& 0x30) >>> 4 = UInt8.ofNat (m.val / 16)) ∧
      ((UInt8.ofNat m.val &&& 0x0F) <<< 4 = UInt8.ofNat (2 ^ 4 * (m.val % 16)) ∧
        (UInt8.ofNat m.val &&& 0x3C) >>> 2 = UInt8.ofNat (m.val / 4)) ∧
      (UInt8.ofNat m.val &&& 0x03) <<< 6 = UInt8.ofNat (2 ^ 6 * (m.val % 4)) := by decide
  exact table ⟨v, small⟩

theorem first_byte {v w : Nat} (first : v < 64) (second : w < 64) :
    (UInt8.ofNat v <<< 2) ||| ((UInt8.ofNat w &&& 0x30) >>> 4) = UInt8.ofNat (4 * v + w / 16) := by
  rw [(sextet_parts first).1.1, (sextet_parts second).1.2]
  exact or_byte (by omega) (by omega)

theorem second_byte {v w : Nat} (first : v < 64) (second : w < 64) :
    ((UInt8.ofNat v &&& 0x0F) <<< 4) ||| ((UInt8.ofNat w &&& 0x3C) >>> 2) = UInt8.ofNat (16 * (v % 16) + w / 4) := by
  rw [(sextet_parts first).2.1.1, (sextet_parts second).2.1.2]
  exact or_byte (by omega) (by omega)

theorem third_byte {v w : Nat} (first : v < 64) (second : w < 64) :
    ((UInt8.ofNat v &&& 0x03) <<< 6) ||| UInt8.ofNat w = UInt8.ofNat (64 * (v % 4) + w) := by
  rw [(sextet_parts first).2.2]
  exact or_byte (by omega) (by omega)

/-- Groups of an encoding are decoded to the bytes they are of. -/
theorem base64Groups_encode (bytes : List UInt8) :
    base64Groups ((Base64.encode bytes).map fun c => UInt8.ofNat c.toNat) = bytes := by
  have padding : sextet (UInt8.ofNat '='.toNat) = none := sextet_ofNat (by decide)
  induction bytes using Base64.encode.induct with
  | case1 => rfl
  | case2 x =>
    have bound := x.toNat_lt
    have one : x.toNat / 4 < 64 := by omega
    have two : x.toNat % 4 * 16 < 64 := by omega
    have byte : 4 * (x.toNat / 4) + x.toNat % 4 * 16 / 16 = x.toNat := by omega
    simp only [Base64.encode, List.map_cons, List.map_nil, base64Groups, sextet_digit one, sextet_digit two, padding,
      first_byte one two, byte, UInt8.ofNat_toNat]
    rfl
  | case3 x y =>
    have bound := x.toNat_lt
    have bound' := y.toNat_lt
    have one : x.toNat / 4 < 64 := by omega
    have two : x.toNat % 4 * 16 + y.toNat / 16 < 64 := by omega
    have three : y.toNat % 16 * 4 < 64 := by omega
    have byte : 4 * (x.toNat / 4) + (x.toNat % 4 * 16 + y.toNat / 16) / 16 = x.toNat := by omega
    have byte' : 16 * ((x.toNat % 4 * 16 + y.toNat / 16) % 16) + y.toNat % 16 * 4 / 4 = y.toNat := by omega
    simp only [Base64.encode, List.map_cons, List.map_nil, base64Groups, sextet_digit one, sextet_digit two,
      sextet_digit three, padding, first_byte one two, second_byte two three, byte, byte', UInt8.ofNat_toNat]
    rfl
  | case4 x y z rest ih =>
    have bound := x.toNat_lt
    have bound' := y.toNat_lt
    have bound'' := z.toNat_lt
    have one : x.toNat / 4 < 64 := by omega
    have two : x.toNat % 4 * 16 + y.toNat / 16 < 64 := by omega
    have three : y.toNat % 16 * 4 + z.toNat / 64 < 64 := by omega
    have four : z.toNat % 64 < 64 := by omega
    have byte : 4 * (x.toNat / 4) + (x.toNat % 4 * 16 + y.toNat / 16) / 16 = x.toNat := by omega
    have byte' : 16 * ((x.toNat % 4 * 16 + y.toNat / 16) % 16) + (y.toNat % 16 * 4 + z.toNat / 64) / 4 = y.toNat := by
      omega
    have byte'' : 64 * ((y.toNat % 16 * 4 + z.toNat / 64) % 4) + z.toNat % 64 = z.toNat := by omega
    simp only [Base64.encode, List.map_cons, base64Groups, sextet_digit one, sextet_digit two, sextet_digit three,
      sextet_digit four, first_byte one two, second_byte two three, third_byte three four, byte, byte', byte'',
      UInt8.ofNat_toNat, ih]
    rfl

/-- Decoding reads the encoding of a text back, with whatever unused characters are inserted. -/
theorem base64Decode_noisy {t noisy : Text} (isNoisy : Base64.Noisy (Base64.encode (Text.utf8 t)) noisy) :
    base64Decode noisy = t := by
  have kept : (Text.utf8 noisy).filter keeps =
      (Base64.encode (Text.utf8 t)).map fun c => UInt8.ofNat c.toNat := by
    rw [filter_noisy isNoisy, filter_encode]
  change Text.fromUtf8Lossy (base64Groups ((Text.utf8 noisy).filter keeps)) = t
  rw [kept, base64Groups_encode, Text.fromUtf8Lossy_utf8]

theorem base64Decode_noisy_accent : base64Decode "w \n6-k=é".toList = ['é'] := by
  have encoded : Base64.encode (Text.utf8 ['é']) = "w6k=".toList := by decide
  have isNoisy : Base64.Noisy (Base64.encode (Text.utf8 ['é'])) "w \n6-k=é".toList := by
    rw [encoded]
    exact .keep 'w' (.insert rfl (.insert rfl (.keep '6' (.insert rfl (.keep 'k' (.keep '=' (.insert rfl .nil)))))))
  exact base64Decode_noisy isNoisy

end MiniWaf.Crs
