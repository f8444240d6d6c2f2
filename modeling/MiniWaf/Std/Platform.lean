import MiniWaf.Std.Text

/-! What the model takes from outside the repository: the `regex` crate and the
Unicode tables behind case mapping and `Debug` escaping. ASCII is concrete, so
only the behaviour on other characters is left open.
-/

set_option autoImplicit false

namespace MiniWaf

structure Platform where
  /-- `Regex::new`, with a compiled regex represented by its `is_match`. -/
  regexNew : String → Option (String → Bool)
  /-- `str::to_lowercase` on text with a character outside ASCII. -/
  unicodeLower : Text → Text
  /-- `str::to_uppercase` on text with a character outside ASCII. -/
  unicodeUpper : Text → Text
  /-- The characters outside ASCII that `Debug` writes as an escape. -/
  debugEscaped : Char → Bool

namespace Platform

def plain : Platform := ⟨fun _ => none, id, id, fun _ => false⟩

def isAscii (s : Text) : Bool := s.all fun c => c.toNat < 128

variable (platform : Platform)

def toLowercase (s : String) : String :=
  String.ofList (if isAscii s.toList then s.toList.map Char.toLower else platform.unicodeLower s.toList)

def toUppercase (s : String) : String :=
  String.ofList (if isAscii s.toList then s.toList.map Char.toUpper else platform.unicodeUpper s.toList)

-- Letter case

def Casing (word : String) (t : Text) : Prop := t.map Char.toLower = word.toList

theorem toLower_of_not_capital {c : Char} (other : c.toNat < 65 ∨ 90 < c.toNat) : c.toLower = c := by
  apply dif_neg
  rintro ⟨low, high⟩
  have least : 65 ≤ c.toNat := low
  have most : c.toNat ≤ 90 := high
  omega

theorem not_mem_of_casing {word : String} {t : Text} {c : Char} (casing : Casing word t) (fixed : c.toLower = c)
    (absent : c ∉ word.toList) : c ∉ t := by
  intro member
  have lowered : c.toLower ∈ word.toList := casing ▸ List.mem_map_of_mem member
  exact absent (fixed ▸ lowered)

theorem isAscii_of_casing {word : String} {t : Text} (casing : Casing word t) (ascii : isAscii word.toList = true) :
    isAscii t = true := by
  apply List.all_eq_true.mpr
  intro c member
  rw [decide_eq_true_eq]
  by_contra high
  have inWord : c ∈ word.toList := by
    by_contra absent
    exact not_mem_of_casing casing (toLower_of_not_capital (by omega)) absent member
  exact high (by simpa using List.all_eq_true.mp ascii c inWord)

theorem toLowercase_of_casing {word : String} {t : Text} (casing : Casing word t) (ascii : isAscii word.toList = true) :
    platform.toLowercase (String.ofList t) = word := by
  rw [toLowercase, String.toList_ofList, if_pos (isAscii_of_casing casing ascii), casing, String.ofList_toList]

/-- What is used of lower-casing on text outside ASCII: to do it twice changes nothing more, and a character becomes
one or more, as many whatever is around it. -/
structure CaseFolding : Prop where
  idempotent : ∀ s : String, platform.toLowercase (platform.toLowercase s) = platform.toLowercase s
  length_append : ∀ s t : Text, (platform.toLowercase (String.ofList (s ++ t))).length =
    (platform.toLowercase (String.ofList s)).length + (platform.toLowercase (String.ofList t)).length
  length_pos : ∀ c : Char, 0 < (platform.toLowercase (String.ofList [c])).length

theorem CaseFolding.eq_nil {platform : Platform} (folding : platform.CaseFolding) {s : Text}
    (empty : platform.toLowercase (String.ofList s) = "") : s = [] := by
  cases s with
  | nil => rfl
  | cons c rest =>
    have sum := folding.length_append [c] rest
    have some := folding.length_pos c
    rw [List.singleton_append, empty, String.length_empty] at sum
    omega

theorem length_toLowercase_plain (s : String) : (plain.toLowercase s).length = s.length := by
  rw [toLowercase, String.length_ofList]
  split
  · rw [List.length_map, String.length_toList]
  · exact String.length_toList

theorem toLower_toLower (c : Char) : c.toLower.toLower = c.toLower := by
  by_cases capital : 65 ≤ c.toNat ∧ c.toNat ≤ 90
  · have table : ∀ n : Fin 26, (Char.ofNat (n.val + 65)).toLower.toLower = (Char.ofNat (n.val + 65)).toLower := by
      decide
    have same := table ⟨c.toNat - 65, by omega⟩
    have number : c.toNat - 65 + 65 = c.toNat := by omega
    rwa [number, Char.ofNat_toNat] at same
  · rw [toLower_of_not_capital (c := c) (by omega), toLower_of_not_capital (by omega)]

theorem plain_caseFolding : plain.CaseFolding where
  idempotent := by
    intro s
    rw [toLowercase, toLowercase, String.toList_ofList]
    split
    · split
      · rw [List.map_map]
        exact congrArg String.ofList (List.map_congr_left fun c _ => toLower_toLower c)
      · rfl
    · rw [if_neg (by assumption)]
      rfl
  length_append := by
    intro s t
    rw [length_toLowercase_plain, length_toLowercase_plain, length_toLowercase_plain, String.length_ofList,
      String.length_ofList, String.length_ofList, List.length_append]
  length_pos := by
    intro c
    rw [length_toLowercase_plain, String.length_ofList]
    exact Nat.one_pos

/-- `Regex::new(pattern).map(|r| r.is_match(hay)).unwrap_or(false)`. -/
def isMatch (pattern hay : String) : Bool :=
  match platform.regexNew pattern with
  | some re => re hay
  | none => false

def unicodeEscape (c : Char) : Text := "\\u".toList ++ '\x7b' :: Nat.toDigits 16 c.toNat ++ ['\x7d']

theorem hexDigit_of_mem (n : Nat) : ∀ c ∈ Nat.toDigits 16 n, ∃ d < 16, c = d.digitChar := by
  induction n using Nat.strongRecOn with
  | ind n ih =>
    intro c member
    rw [Nat.toDigits_eq_if (by decide)] at member
    split at member
    · rename_i small
      exact ⟨n, small, List.mem_singleton.mp member⟩
    · rename_i large
      rcases List.mem_append.mp member with front | last
      · exact ih (n / 16) (by omega) c front
      · exact ⟨n % 16, Nat.mod_lt _ (by decide), List.mem_singleton.mp last⟩

/-- `char::escape_debug` as `Debug` for `str` applies it. -/
def debugChar (c : Char) : Text :=
  if c = '\x00' then ['\\', '0']
  else if c = '\t' then ['\\', 't']
  else if c = '\r' then ['\\', 'r']
  else if c = '\n' then ['\\', 'n']
  else if c = '"' then ['\\', '"']
  else if c = '\\' then ['\\', '\\']
  else if c.toNat < 128 then
    if 0x20 ≤ c.toNat ∧ c.toNat ≠ 0x7F then [c] else unicodeEscape c
  else if platform.debugEscaped c then unicodeEscape c else [c]

def debugBody (s : String) : Text := s.toList.flatMap platform.debugChar

/-- `format!("{:?}", s)`. -/
def debug (s : String) : Text := '"' :: platform.debugBody s ++ ['"']

def plainChar (c : Char) : Bool := 0x20 ≤ c.toNat && c.toNat < 0x7F && c ≠ '"' && c ≠ '\\'

theorem debugChar_of_plain {c : Char} (ordinary : plainChar c = true) : platform.debugChar c = [c] := by
  simp only [plainChar, Bool.and_eq_true, decide_eq_true_eq] at ordinary
  obtain ⟨⟨⟨low, high⟩, notQuote⟩, notBackslash⟩ := ordinary
  have notControl : ∀ d : Char, d.toNat < 0x20 → c ≠ d := by
    rintro d small rfl
    omega
  rw [debugChar, if_neg (notControl _ (by decide)), if_neg (notControl _ (by decide)),
    if_neg (notControl _ (by decide)), if_neg (notControl _ (by decide)), if_neg notQuote, if_neg notBackslash,
    if_pos (by omega), if_pos (by omega)]

theorem debugBody_of_plain {s : String} (ordinary : s.toList.all plainChar = true) :
    platform.debugBody s = s.toList := by
  rw [debugBody, List.flatMap_congr fun c member =>
    platform.debugChar_of_plain (List.all_eq_true.mp ordinary c member)]
  simp

end Platform

end MiniWaf
