import Mathlib.Algebra.Group.Nat.Even
import MiniWaf.Crs.Actions
import MiniWaf.Crs.Quotes

/-! The rough check for `chain` beside the parser of action lists. The check looks at
what is after the last double quote and at every comma; the parser knows of single quotes.
-/

set_option autoImplicit false

namespace MiniWaf.Crs

open Platform (Casing not_mem_of_casing)

-- Pieces outside single quotes

/-- One of the pieces is as wanted and has an even number of single quotes before it, `n` of them before the first. -/
def Unquoted (wanted : Text → Prop) (n : Nat) (pieces : List Text) : Prop :=
  ∃ front piece back, pieces = front ++ piece :: back ∧ wanted piece ∧ Even (n + front.flatten.count '\'')

section
variable {wanted : Text → Prop}

theorem unquoted_nil (n : Nat) : ¬ Unquoted wanted n [] := by
  rintro ⟨front, piece, back, shape, -, -⟩
  simp at shape

theorem unquoted_cons (n : Nat) (piece : Text) (more : List Text) :
    Unquoted wanted n (piece :: more) ↔ wanted piece ∧ Even n ∨ Unquoted wanted (n + piece.count '\'') more := by
  constructor
  · rintro ⟨front, other, back, shape, holds, even⟩
    cases front with
    | nil =>
      cases shape
      exact .inl ⟨holds, even⟩
    | cons first front =>
      cases shape
      rw [List.flatten_cons, List.count_append, ← Nat.add_assoc] at even
      exact .inr ⟨front, other, back, rfl, holds, even⟩
  · rintro (⟨holds, even⟩ | ⟨front, other, back, rfl, holds, even⟩)
    · exact ⟨[], piece, more, rfl, holds, even⟩
    · refine ⟨piece :: front, other, back, rfl, holds, ?_⟩
      rwa [List.flatten_cons, List.count_append, ← Nat.add_assoc]

/-- What has neither a quote nor a comma in it is a token exactly if it is a piece outside quotes. The text in front is
the start of a token, and `n` quotes have been read. -/
theorem exists_token_iff (clear : ∀ t, wanted t → '\'' ∉ t ∧ ',' ∉ t) (some : ¬ wanted []) {s piece : Text}
    {more : List Text} (pieces : Text.split ',' s = piece :: more) {inSq : Bool} {n : Nat}
    (parity : inSq = true ↔ Odd n) {cur : Text} (opened : inSq = true → '\'' ∈ cur) :
    (∃ token ∈ splitActionsFrom inSq cur s, wanted token) ↔
      wanted (cur ++ piece) ∨ Unquoted wanted (n + piece.count '\'') more := by
  induction s generalizing inSq n cur piece more with
  | nil =>
    cases pieces
    rw [splitActionsFrom, List.append_nil, or_iff_left (unquoted_nil _)]
    by_cases empty : cur = []
    · simp [empty, some]
    · simp [empty]
  | cons c s ih =>
    obtain ⟨next, later, split⟩ := Text.exists_split ',' s
    by_cases quote : c = '\''
    · subst quote
      rw [Text.split_cons_of_ne (by decide) split] at pieces
      cases pieces
      have flipped : (!inSq) = true ↔ Odd (n + 1) := by
        rw [Nat.odd_add_one, ← parity, Bool.not_eq_true', Bool.not_eq_true]
      have count : ('\'' :: next).count '\'' = next.count '\'' + 1 := List.count_cons_self
      rw [splitActionsFrom, if_pos rfl, ih split flipped fun _ => by simp, List.append_assoc, List.singleton_append,
        count, Nat.add_assoc, Nat.add_comm 1]
    have notQuote (word : Text) : (c :: word).count '\'' = word.count '\'' := List.count_cons_of_ne quote
    by_cases comma : c = ','
    · subst comma
      rw [Text.split_cons_self, split] at pieces
      cases pieces
      rw [List.append_nil, List.count_nil, Nat.add_zero, unquoted_cons]
      cases inSq with
      | true =>
        have odd : ¬ Even n := by
          rw [Nat.not_even_iff_odd]
          exact parity.mp rfl
        have inCur : ¬ wanted cur := fun holds => (clear _ holds).1 (opened rfl)
        have inToken : ¬ wanted (cur ++ ',' :: next) := fun holds => (clear _ holds).2 (by simp)
        rw [splitActionsFrom, if_neg quote, if_neg fun outside => Bool.noConfusion outside.2,
          ih split parity fun _ => List.mem_append_left _ (opened rfl)]
        simp [odd, inCur, inToken]
      | false =>
        have even : Even n := by
          rw [← Nat.not_odd_iff_even, ← parity]
          exact Bool.false_ne_true
        rw [splitActionsFrom, if_neg quote, if_pos ⟨rfl, rfl⟩, List.exists_mem_cons_iff,
          ih split parity fun inside => Bool.noConfusion inside]
        simp [even]
    · rw [Text.split_cons_of_ne comma split] at pieces
      cases pieces
      rw [splitActionsFrom, if_neg quote, if_neg fun outside => comma outside.1,
        ih split parity fun inside => List.mem_append_left _ (opened inside), notQuote, List.append_assoc,
        List.singleton_append]

end

-- The word

def SpellsChain (token : Text) : Prop := Casing "chain" (Text.trim token)

theorem not_mem_of_spellsChain {token : Text} (spelt : SpellsChain token) {c : Char} (fixed : c.toLower = c)
    (black : Text.isWhitespace c = false) (other : c ∉ "chain".toList) : c ∉ token :=
  fun member => not_mem_of_casing spelt fixed other (Text.mem_trim member black)

theorem clear_of_spellsChain (token : Text) (spelt : SpellsChain token) : '\'' ∉ token ∧ ',' ∉ token :=
  ⟨not_mem_of_spellsChain spelt rfl rfl (by decide), not_mem_of_spellsChain spelt rfl rfl (by decide)⟩

theorem not_spellsChain_nil : ¬ SpellsChain [] := by
  intro spelt
  cases spelt

section
variable {platform : Platform}

theorem keyedAction_isChain (ra : RawActions) (key rest : Text) :
    (keyedAction platform ra key rest).isChain = ra.isChain := by
  rw [keyedAction]
  generalize lowercase platform key = word
  generalize parseSetvar platform (Text.trimMatches '\'' (Text.trim rest)) = setvar
  generalize lowercase platform (unquote rest) = name
  split
  · rfl
  · rfl
  · rfl
  · rfl
  · rfl
  · cases setvar <;> rfl
  · split
    · rfl
    · split <;> rfl
  · rfl

-- No text with a character outside ASCII is `chain` in lower case
variable (foreign : ∀ t, Platform.isAscii t = false → lowercase platform t ≠ "chain")
include foreign

theorem spellsChain_of_lowercase {token : Text} :
    lowercase platform (Text.trim token) = "chain" ↔ SpellsChain token := by
  constructor
  · intro lowered
    cases ascii : Platform.isAscii (Text.trim token) with
    | false => exact absurd lowered (foreign _ ascii)
    | true =>
      rw [lowercase, Platform.toLowercase, String.toList_ofList, if_pos ascii] at lowered
      rw [SpellsChain, Casing, ← lowered, String.toList_ofList]
  · exact fun spelt => platform.toLowercase_of_casing spelt rfl

theorem parseAction_isChain (ra : RawActions) (token : Text) :
    (parseAction platform ra token).isChain = true ↔ SpellsChain token ∨ ra.isChain = true := by
  rw [parseAction]
  by_cases empty : Text.trim token = []
  · have silent : ¬ SpellsChain token := by
      intro spelt
      rw [SpellsChain, empty] at spelt
      cases spelt
    simp [empty, silent]
  · rw [if_neg empty]
    cases colon : Text.splitOnce ':' (Text.trim token) with
    | some parts =>
      obtain ⟨key, rest⟩ := parts
      have silent : ¬ SpellsChain token := by
        intro spelt
        have absent := not_mem_of_casing spelt (c := ':') rfl (by decide)
        have shape := (Text.splitOnce_some colon).2
        exact absent (by simp [shape])
      simp [keyedAction_isChain, silent]
    | none =>
      rw [← spellsChain_of_lowercase foreign]
      generalize lowercase platform (Text.trim token) = word
      dsimp only
      split
      case h_8 notChain _ _ _ => exact (or_iff_right notChain).symm
      all_goals simp

theorem parseActions_isChain (actions : Text) :
    (parseActions platform actions).isChain = true ↔ Unquoted SpellsChain 0 (Text.split ',' actions) := by
  obtain ⟨piece, more, pieces⟩ := Text.exists_split ',' actions
  have outside : false = true ↔ Odd 0 := by decide
  have tokens : (∃ token ∈ splitActions actions, SpellsChain token) ↔
      SpellsChain ([] ++ piece) ∨ Unquoted SpellsChain (0 + piece.count '\'') more :=
    exists_token_iff clear_of_spellsChain not_spellsChain_nil pieces outside fun inside => Bool.noConfusion inside
  have even : Even 0 := by decide
  rw [parseActions, foldl_any (parseAction_isChain foreign), tokens, pieces, unquoted_cons, and_iff_left even,
    List.nil_append]
  exact or_iff_left Bool.false_ne_true

end

-- The check

def lastPart (actions : Text) : Text := ((Text.rsplitOnce '"' actions).map Prod.snd).getD actions

/-- The check sees every piece between commas, but of the last part only. -/
theorem hasChainAction_quoted (front actions : Text) :
    hasChainAction (front ++ '"' :: (actions ++ ['"'])) = true ↔
      ∃ piece ∈ Text.split ',' (lastPart actions), SpellsChain piece := by
  have closing : Text.rsplitOnce '"' (front ++ '"' :: (actions ++ ['"'])) = some (front ++ '"' :: actions, []) := by
    have last : Text.rsplitOnce '"' ((front ++ '"' :: actions) ++ '"' :: []) = some (front ++ '"' :: actions, []) :=
      Text.rsplitOnce_append List.not_mem_nil _
    rwa [List.append_assoc, List.cons_append] at last
  have opening : ∃ ahead, Text.rsplitOnce '"' (front ++ '"' :: actions) = some (ahead, lastPart actions) := by
    rw [lastPart]
    cases found : Text.rsplitOnce '"' actions with
    | none => exact ⟨front, Text.rsplitOnce_append (Text.rsplitOnce_none found) front⟩
    | some parts =>
      obtain ⟨before, back⟩ := parts
      obtain ⟨absent, rfl⟩ := Text.rsplitOnce_some found
      have last := Text.rsplitOnce_append absent (front ++ '"' :: before)
      rw [List.append_assoc, List.cons_append] at last
      exact ⟨_, last⟩
  obtain ⟨ahead, opening⟩ := opening
  simp only [hasChainAction, closing, opening, List.any_eq_true, beq_iff_eq]
  rfl

/-- The text of a rule that ends with its actions, cut into its parts. -/
def Cut (s targets op actions : Text) : Prop :=
  ∃ afterTargets afterOp, Text.splitSpace s = some (targets, afterTargets) ∧
    parseDquoted (Text.trimStart afterTargets) = some (op, afterOp) ∧
    parseDquoted (Text.trimStart afterOp) = some (actions, [])

theorem Cut.quoted {s targets op actions : Text} (cut : Cut s targets op actions) :
    ∃ front, s = front ++ '"' :: (actions ++ ['"']) := by
  obtain ⟨afterTargets, afterOp, word, quotedOp, quotedActions⟩ := cut
  obtain ⟨white, first⟩ := Text.exists_trimStart afterTargets
  obtain ⟨opened, second⟩ := parseDquoted_sound quotedOp
  obtain ⟨gap, third⟩ := Text.exists_trimStart afterOp
  obtain ⟨reopened, fourth⟩ := parseDquoted_sound quotedActions
  refine ⟨targets ++ (white ++ (opened ++ '"' :: (op ++ '"' :: (gap ++ reopened)))), ?_⟩
  rw [Text.splitSpace_some word, first, second, third, fourth]
  simp

theorem lastPart_of_not_mem {actions : Text} (absent : '"' ∉ actions) : lastPart actions = actions := by
  rw [lastPart]
  cases found : Text.rsplitOnce '"' actions with
  | none => rfl
  | some parts =>
    have shape := (Text.rsplitOnce_some found).2
    exact absurd (by simp [shape]) absent

/-- The check and the parser agree where no double quote is in the actions and no `chain` is inside single quotes. Of
other rules the check goes by what is after the last quote, and the parser by what is outside single quotes. -/
theorem hasChainAction_agrees {platform : Platform}
    (foreign : ∀ t, Platform.isAscii t = false → lowercase platform t ≠ "chain") {s targets op actions : Text}
    (cut : Cut s targets op actions) :
    (hasChainAction s = true ↔ ∃ piece ∈ Text.split ',' (lastPart actions), SpellsChain piece) ∧
      ((parseActions platform actions).isChain = true ↔ Unquoted SpellsChain 0 (Text.split ',' actions)) ∧
      ('"' ∉ actions → (parseActions platform actions).isChain = true → hasChainAction s = true) ∧
      ('"' ∉ actions →
        (∀ front piece back, Text.split ',' actions = front ++ piece :: back → SpellsChain piece →
          Even (front.flatten.count '\'')) →
        hasChainAction s = (parseActions platform actions).isChain) := by
  obtain ⟨front, shape⟩ := cut.quoted
  have check := hasChainAction_quoted front actions
  rw [← shape] at check
  have parser := parseActions_isChain foreign actions
  have seen (absent : '"' ∉ actions) (chained : (parseActions platform actions).isChain = true) :
      hasChainAction s = true := by
    obtain ⟨before, piece, after, pieces, spelt, -⟩ := parser.mp chained
    rw [check, lastPart_of_not_mem absent, pieces]
    exact ⟨piece, List.mem_append_right _ List.mem_cons_self, spelt⟩
  refine ⟨check, parser, seen, ?_⟩
  intro absent unquoted
  rw [Bool.eq_iff_iff]
  refine ⟨?_, seen absent⟩
  intro rough
  rw [check, lastPart_of_not_mem absent] at rough
  obtain ⟨piece, member, spelt⟩ := rough
  obtain ⟨before, after, pieces⟩ := List.append_of_mem member
  have even := unquoted before piece after pieces spelt
  rw [← Nat.zero_add (before.flatten.count '\'')] at even
  exact parser.mpr ⟨before, piece, after, pieces, spelt, even⟩

theorem plain_foreign (t : Text) (other : Platform.isAscii t = false) : lowercase .plain t ≠ "chain" := by
  intro lowered
  rw [lowercase, Platform.toLowercase, String.toList_ofList, if_neg (by simp [other])] at lowered
  have same : t = "chain".toList := by
    rw [← lowered, String.toList_ofList]
    rfl
  subst same
  cases other

theorem hasChainAction_agrees_capitals :
    hasChainAction "ARGS \"@rx a\" \"id:1,msg:'a,b', CHAIN \"".toList = true ∧
      (parseActions .plain "id:1,msg:'a,b', CHAIN ".toList).isChain = true := by
  have cut : Cut "ARGS \"@rx a\" \"id:1,msg:'a,b', CHAIN \"".toList "ARGS".toList "@rx a".toList
      "id:1,msg:'a,b', CHAIN ".toList := ⟨_, _, rfl, rfl, rfl⟩
  obtain ⟨check, parser, -, -⟩ := hasChainAction_agrees plain_foreign cut
  constructor
  · exact check.mpr ⟨" CHAIN ".toList, by decide, rfl⟩
  · exact parser.mpr ⟨["id:1".toList, "msg:'a".toList, "b'".toList], _, [], rfl, rfl, by decide⟩

/-- An escaped quote hides the word from the check, and single quotes do not hide it. -/
theorem hasChainAction_misled :
    Cut "ARGS \"@rx a\" \"chain,msg:'\\\"b'\"".toList "ARGS".toList "@rx a".toList "chain,msg:'\\\"b'".toList ∧
      hasChainAction "ARGS \"@rx a\" \"chain,msg:'\\\"b'\"".toList = false ∧
      (parseActions .plain "chain,msg:'\\\"b'".toList).isChain = true ∧
      Cut "ARGS \"@rx a\" \"msg:'a,chain,b'\"".toList "ARGS".toList "@rx a".toList "msg:'a,chain,b'".toList ∧
      hasChainAction "ARGS \"@rx a\" \"msg:'a,chain,b'\"".toList = true ∧
      (parseActions .plain "msg:'a,chain,b'".toList).isChain = false :=
  ⟨⟨_, _, rfl, rfl, rfl⟩, by decide, by decide, ⟨_, _, rfl, rfl, rfl⟩, by decide, by decide⟩

end MiniWaf.Crs
