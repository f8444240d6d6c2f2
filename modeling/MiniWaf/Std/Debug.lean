import MiniWaf.Std.Platform

/-! Strings as `{:?}` writes them: one piece for a character, and the pieces tell the
characters.
-/

set_option autoImplicit false

namespace MiniWaf.Platform

variable {platform : Platform}

-- Hexadecimal numbers

theorem digitChar_inj {m n : Nat} (first : m < 16) (second : n < 16) (same : m.digitChar = n.digitChar) : m = n := by
  have table : ∀ a b : Fin 16, a.val.digitChar = b.val.digitChar → a = b := by decide
  exact congrArg Fin.val (table ⟨m, first⟩ ⟨n, second⟩ same)

theorem toDigits_inj {m n : Nat} (same : Nat.toDigits 16 m = Nat.toDigits 16 n) : m = n := by
  induction m using Nat.strongRecOn generalizing n with
  | ind m ih =>
    have oneDigit {a b : Nat} (few : [a.digitChar] = Nat.toDigits 16 (b / 16) ++ [(b % 16).digitChar]) : False := by
      have lengths := congrArg List.length few
      have some := List.length_pos_iff.mpr (Nat.toDigits_ne_nil (b := 16) (n := b / 16))
      simp only [List.length_append, List.length_singleton] at lengths
      omega
    by_cases smallM : m < 16
    · rw [Nat.toDigits_of_lt_base smallM] at same
      by_cases smallN : n < 16
      · rw [Nat.toDigits_of_lt_base smallN] at same
        exact digitChar_inj smallM smallN (List.singleton_inj.mp same)
      · rw [Nat.toDigits_of_base_le (by decide) (by omega)] at same
        exact (oneDigit same).elim
    · rw [Nat.toDigits_of_base_le (by decide) (by omega)] at same
      by_cases smallN : n < 16
      · rw [Nat.toDigits_of_lt_base smallN] at same
        exact (oneDigit same.symm).elim
      · rw [Nat.toDigits_of_base_le (by decide) (by omega : 16 ≤ n)] at same
        obtain ⟨front, last⟩ := List.append_inj' same rfl
        have high := ih (m / 16) (by omega) front
        have low := digitChar_inj (Nat.mod_lt m (by decide)) (Nat.mod_lt n (by decide)) (List.singleton_inj.mp last)
        omega

theorem unicodeEscape_inj {c d : Char} (same : unicodeEscape c = unicodeEscape d) : c = d := by
  rw [unicodeEscape, unicodeEscape, List.append_assoc, List.append_assoc, List.append_cancel_left_eq] at same
  have digits := List.append_cancel_right (List.cons.inj same).2
  exact Char.toNat_inj.mp (toDigits_inj digits)

-- Pieces

def shortEscapes : List (Char × Char) :=
  [('0', '\x00'), ('t', '\t'), ('r', '\r'), ('n', '\n'), ('"', '"'), ('\\', '\\')]

variable (platform) in
theorem debugChar_cases (c : Char) : (platform.debugChar c = [c] ∧ c ≠ '"' ∧ c ≠ '\\') ∨
    (∃ x, (x, c) ∈ shortEscapes ∧ platform.debugChar c = ['\\', x]) ∨ platform.debugChar c = unicodeEscape c := by
  unfold debugChar
  by_cases null : c = '\x00'
  · exact .inr (.inl ⟨'0', by simp [shortEscapes, null], by simp [null]⟩)
  by_cases tab : c = '\t'
  · exact .inr (.inl ⟨'t', by simp [shortEscapes, tab], by simp [tab]⟩)
  by_cases carriage : c = '\r'
  · exact .inr (.inl ⟨'r', by simp [shortEscapes, carriage], by simp [carriage]⟩)
  by_cases newline : c = '\n'
  · exact .inr (.inl ⟨'n', by simp [shortEscapes, newline], by simp [newline]⟩)
  by_cases quote : c = '"'
  · exact .inr (.inl ⟨'"', by simp [shortEscapes, quote], by simp [quote]⟩)
  by_cases backslash : c = '\\'
  · exact .inr (.inl ⟨'\\', by simp [shortEscapes, backslash], by simp [backslash]⟩)
  rw [if_neg null, if_neg tab, if_neg carriage, if_neg newline, if_neg quote, if_neg backslash]
  split
  · split
    · exact .inl ⟨rfl, quote, backslash⟩
    · exact .inr (.inr rfl)
  · split
    · exact .inr (.inr rfl)
    · exact .inl ⟨rfl, quote, backslash⟩

def piece : Text → Text
  | '\\' :: 'u' :: rest => '\\' :: 'u' :: (rest.takeWhile (· ≠ '\x7d') ++ ['\x7d'])
  | '\\' :: c :: _ => ['\\', c]
  | c :: _ => [c]
  | [] => []

theorem piece_debugChar (c : Char) (s : Text) : piece (platform.debugChar c ++ s) = platform.debugChar c := by
  obtain ⟨itself, -, notBackslash⟩ | ⟨x, short, escape⟩ | unicode := platform.debugChar_cases c
  · rw [itself, List.singleton_append, piece]
    · exact fun _ isBackslash _ => notBackslash isBackslash
    · exact fun _ _ isBackslash _ => notBackslash isBackslash
  · have notU : x ≠ 'u' := by
      rintro rfl
      simp [shortEscapes] at short
    rw [escape]
    exact piece.eq_2 x s fun isU => notU isU
  · have closed : (Nat.toDigits 16 c.toNat ++ '\x7d' :: s).takeWhile (· ≠ '\x7d') = Nat.toDigits 16 c.toNat := by
      rw [List.takeWhile_append_of_pos, List.takeWhile_cons_of_neg (by simp), List.append_nil]
      intro d member
      obtain ⟨value, -, rfl⟩ := hexDigit_of_mem _ d member
      simp
    have spelled : unicodeEscape c ++ s = '\\' :: 'u' :: '\x7b' :: (Nat.toDigits 16 c.toNat ++ '\x7d' :: s) := by
      simp [unicodeEscape]
    rw [unicode, spelled, piece, List.takeWhile_cons_of_pos (by simp), closed]
    simp [unicodeEscape]

theorem debugChar_inj {c d : Char} (same : platform.debugChar c = platform.debugChar d) : c = d := by
  have unicode_short (a : Char) {x : Char} (escape : unicodeEscape a = ['\\', x]) : False := by
    have lengths := congrArg List.length escape
    simp [unicodeEscape] at lengths
  obtain ⟨first, -, plainC⟩ | ⟨x, shortC, first⟩ | first := platform.debugChar_cases c <;>
    obtain ⟨second, -, plainD⟩ | ⟨y, shortD, second⟩ | second := platform.debugChar_cases d <;>
    rw [first, second] at same
  · exact List.singleton_inj.mp same
  · cases same
  · exact absurd (List.cons.inj same).1 plainC
  · cases same
  · obtain rfl : x = y := by simpa using same
    have single : ∀ a ∈ shortEscapes, ∀ b ∈ shortEscapes, a.1 = b.1 → a.2 = b.2 := by decide
    exact single (x, c) shortC (x, d) shortD rfl
  · exact (unicode_short d same.symm).elim
  · exact absurd (List.cons.inj same).1.symm plainD
  · exact (unicode_short c same).elim
  · exact unicodeEscape_inj same

theorem debugBody_inj {s t : String} (same : platform.debugBody s = platform.debugBody t) : s = t := by
  rw [← String.toList_inj]
  unfold debugBody at same
  generalize s.toList = s, t.toList = t at same
  have some (c : Char) : platform.debugChar c ≠ [] := by
    obtain ⟨itself, -, -⟩ | ⟨x, -, escape⟩ | unicode := platform.debugChar_cases c
    · simp [itself]
    · simp [escape]
    · simp [unicode, unicodeEscape]
  induction s generalizing t with
  | nil =>
    cases t with
    | nil => rfl
    | cons d t =>
      rw [List.flatMap_cons] at same
      exact absurd (List.append_eq_nil_iff.mp same.symm).1 (some d)
  | cons c s ih =>
    cases t with
    | nil =>
      rw [List.flatMap_cons] at same
      exact absurd (List.append_eq_nil_iff.mp same).1 (some c)
    | cons d t =>
      rw [List.flatMap_cons, List.flatMap_cons] at same
      have pieces := congrArg piece same
      rw [piece_debugChar, piece_debugChar] at pieces
      obtain rfl := debugChar_inj pieces
      rw [ih t (List.append_cancel_left same)]

-- Quotes

theorem quote_escaped {s : Text} {before after : Text} (split : s.flatMap platform.debugChar = before ++ '"' :: after) :
    ∃ front, before = front ++ ['\\'] := by
  induction s generalizing before with
  | nil => simp at split
  | cons c s ih =>
    rw [List.flatMap_cons] at split
    rcases List.append_eq_append_iff.mp split with ⟨more, inFront, rest⟩ | ⟨more, whole, rest⟩
    · obtain ⟨front, same⟩ := ih rest
      exact ⟨platform.debugChar c ++ front, by rw [inFront, same, List.append_assoc]⟩
    · cases more with
      | nil =>
        have again : s.flatMap platform.debugChar = [] ++ '"' :: after := rest.symm
        obtain ⟨front, same⟩ := ih again
        simp at same
      | cons x more =>
        obtain ⟨rfl, -⟩ := List.cons.inj rest
        obtain ⟨itself, notQuote, -⟩ | ⟨x, -, escape⟩ | unicode := platform.debugChar_cases c
        · rw [itself] at whole
          have isQuote : '"' ∈ [c] := by
            rw [whole]
            simp
          exact absurd (List.mem_singleton.mp isQuote).symm notQuote
        · rw [escape] at whole
          cases before with
          | nil => simp at whole
          | cons a before =>
            obtain ⟨rfl, tail⟩ := List.cons.inj whole
            cases before with
            | nil => exact ⟨[], rfl⟩
            | cons b before => simp at tail
        · have inside : '"' ∈ unicodeEscape c := by
            rw [← unicode, whole]
            simp
          have digits : ∀ d ∈ Nat.toDigits 16 c.toNat, d ≠ '"' := by
            intro d member
            obtain ⟨value, bound, rfl⟩ := hexDigit_of_mem _ d member
            have plain : ∀ n < 16, n.digitChar ≠ '"' := by decide
            exact plain value bound
          simp only [unicodeEscape, List.mem_append, List.mem_cons, List.not_mem_nil, or_false] at inside
          rcases inside with (front | isBrace | member) | isBrace
          · simp at front
          · cases isBrace
          · exact absurd rfl (digits _ member)
          · cases isBrace

/-- Texts that end in a string are told apart: the last quote that no backslash stands in front of is its first. -/
theorem string_unique {p q : Text} {mark : Char} (noBackslash : mark ≠ '\\') {s t : String}
    (same : p ++ mark :: platform.debug s = q ++ mark :: platform.debug t) : p = q ∧ s = t := by
  have aligned {p q : Text} {s t : String} (same : p ++ [mark] ++ '"' :: platform.debugBody s =
      q ++ [mark] ++ '"' :: platform.debugBody t) (longer : (platform.debugBody s).length ≤ (platform.debugBody t).length) :
      platform.debugBody s = platform.debugBody t := by
    rcases List.append_eq_append_iff.mp same with ⟨more, inFront, rest⟩ | ⟨more, inFront, rest⟩
    · cases more with
      | nil => exact (List.cons.inj rest).2
      | cons x more =>
        have lengths : (platform.debugBody s).length = (more ++ '"' :: platform.debugBody t).length :=
          congrArg List.length (List.cons.inj rest).2
        rw [List.length_append, List.length_cons] at lengths
        omega
    · cases more with
      | nil => exact (List.cons.inj rest).2.symm
      | cons x more =>
        obtain ⟨rfl, tail⟩ := List.cons.inj rest
        obtain ⟨front, escaped⟩ := quote_escaped tail
        rw [escaped, ← List.cons_append, ← List.append_assoc] at inFront
        exact absurd (List.append_inj_right' inFront rfl) (by simpa using noBackslash)
  have bodies : p ++ [mark] ++ '"' :: platform.debugBody s = q ++ [mark] ++ '"' :: platform.debugBody t := by
    have closed : p ++ [mark] ++ '"' :: platform.debugBody s ++ ['"'] = q ++ [mark] ++ '"' :: platform.debugBody t ++ ['"'] := by
      simpa [debug] using same
    exact List.append_cancel_right closed
  have strings : platform.debugBody s = platform.debugBody t := by
    rcases Nat.le_total (platform.debugBody s).length (platform.debugBody t).length with shorter | longer
    · exact aligned bodies shorter
    · exact (aligned bodies.symm longer).symm
  rw [strings] at bodies
  exact ⟨List.append_cancel_right (List.append_cancel_right bodies), debugBody_inj strings⟩

end MiniWaf.Platform
