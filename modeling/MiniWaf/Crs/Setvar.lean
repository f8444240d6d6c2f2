import MiniWaf.Crs.Parser
import MiniWaf.Crs.Tx
import MiniWaf.Std.Integer

/-! The texts `tx.var=n`, `tx.var=+n` and `tx.var=-n` of a `setvar`, with a number or the
value of a variable on the right. What they do to the variables depends on the case in
which `tx` is written.
-/

set_option autoImplicit false

namespace MiniWaf.Crs

open Platform (Casing not_mem_of_casing)

-- Texts

/-- The right side of a `setvar`. -/
inductive RhsText where
  | number (digits : Text)
  | reference (scope name : Text)

def RhsText.text : RhsText → Text
  | .number digits => digits
  | .reference scope name => '%' :: '\x7b' :: (scope ++ '.' :: (name ++ ['\x7d']))

/-- A number has digits only, and the scope of a reference is `tx` in some letter case. -/
def RhsText.WellFormed : RhsText → Prop
  | .number digits => digits ≠ [] ∧ digits.all Char.isDigit = true
  | .reference scope _ => Casing "tx" scope

def VarOp.sign : VarOp → Text
  | .assign => []
  | .incrBy => ['+']
  | .decrBy => ['-']

def setvarText (scope var : Text) (op : VarOp) (rhs : RhsText) : Text :=
  scope ++ '.' :: (var ++ '=' :: (op.sign ++ rhs.text))

theorem scope_iff {scope : Text} (casing : Casing "tx" scope) (rest : Text) :
    "tx.".toList <+: scope ++ '.' :: rest ↔ scope = "tx".toList := by
  have length : scope.length = 2 := by
    have same := congrArg List.length casing
    rwa [List.length_map] at same
  constructor
  · rintro ⟨more, same⟩
    have front := congrArg (List.take 2) same
    rw [← length, List.take_left, length] at front
    exact front.symm
  · rintro rfl
    exact ⟨rest, rfl⟩

section
variable (platform : Platform)

-- Reading

def RhsText.read : RhsText → Option SetVarRhs
  | .number digits =>
    if Text.digitsValue digits < 2 ^ 63 then some (.int (Int64.ofInt (Text.digitsValue digits))) else none
  | .reference scope name => if scope = "tx".toList then some (.txRef (lowercase platform name)) else none

theorem txRef_digit {c : Char} (digit : c.isDigit = true) (rest : Text) : txRef platform (c :: rest) = none := by
  have other : ¬ "%\x7btx.".toList <+: c :: rest := by
    intro front
    have same := (List.cons_prefix_cons.mp front).1
    subst same
    cases digit
  rw [txRef, Text.stripStart_of_not other]
  rfl

theorem txRef_reference {scope : Text} (casing : Casing "tx" scope) (name : Text) :
    txRef platform (RhsText.reference scope name).text =
      if scope = "tx".toList then some (lowercase platform name) else none := by
  by_cases straight : scope = "tx".toList
  · subst straight
    have stripped : Text.stripStart "%\x7btx.".toList (RhsText.reference "tx".toList name).text =
        some (name ++ ['\x7d']) :=
      Text.stripStart_append "%\x7btx.".toList _
    have inner : Text.stripSuffix ['\x7d'] (name ++ ['\x7d']) = some name := (Text.stripSuffix_eq_some _ _ _).mpr rfl
    rw [txRef, stripped, if_pos rfl, Option.bind_some, inner, Option.map_some]
  · have other : ¬ "%\x7btx.".toList <+: (RhsText.reference scope name).text := by
      intro front
      have second := (List.cons_prefix_cons.mp front).2
      exact straight ((scope_iff casing _).mp (List.cons_prefix_cons.mp second).2)
    rw [txRef, Text.stripStart_of_not other, if_neg straight]
    rfl

def parseRhs (s : Text) : Option SetVarRhs :=
  match txRef platform s with
  | some inner => some (.txRef inner)
  | none => (Text.parseI64 s).map .int

theorem RhsText.WellFormed.digit {digits : Text} (well : (RhsText.number digits).WellFormed) :
    ∃ c rest, digits = c :: rest ∧ c.isDigit = true := by
  obtain ⟨nonempty, all⟩ := well
  obtain ⟨c, rest, rfl⟩ := List.exists_cons_of_ne_nil nonempty
  exact ⟨c, rest, rfl, List.all_eq_true.mp all c List.mem_cons_self⟩

theorem parseRhs_text {rhs : RhsText} (well : rhs.WellFormed) : parseRhs platform rhs.text = rhs.read platform := by
  cases rhs with
  | number digits =>
    obtain ⟨c, rest, rfl, digit⟩ := well.digit
    rw [parseRhs, RhsText.text, txRef_digit platform digit, Text.parseI64_digits well.2, RhsText.read,
      apply_ite (Option.map _)]
    rfl
  | reference scope name =>
    rw [parseRhs, txRef_reference platform well, RhsText.read]
    by_cases straight : scope = "tx".toList
    · rw [if_pos straight, if_pos straight]
    · rw [if_neg straight, if_neg straight]
      have refused : Text.parseI64 (RhsText.reference scope name).text = none :=
        Text.parseI64_none (by decide) (by decide) (by decide) _
      rw [refused]
      rfl

def splitSign : Text → VarOp × Text
  | '+' :: rest => (.incrBy, rest)
  | '-' :: rest => (.decrBy, rest)
  | rest => (.assign, rest)

theorem splitSign_text {rhs : RhsText} (well : rhs.WellFormed) (op : VarOp) :
    splitSign (op.sign ++ rhs.text) = (op, rhs.text) := by
  cases op with
  | incrBy => rfl
  | decrBy => rfl
  | assign =>
    cases rhs with
    | number digits =>
      obtain ⟨c, rest, rfl, digit⟩ := well.digit
      have other {sign : Char} (noDigit : sign.isDigit = false) (more : Text) : c :: rest ≠ sign :: more := by
        intro same
        rw [(List.cons.inj same).1, noDigit] at digit
        cases digit
      change splitSign (c :: rest) = _
      rw [splitSign]
      · rfl
      · exact other rfl
      · exact other rfl
    | reference scope name => rfl

theorem parseSetvar_append {front : Text} (absent : '=' ∉ front) (back : Text) :
    parseSetvar platform (front ++ '=' :: back) =
      if (lowercase platform (Text.trimStartMatches "tx.".toList front)).isEmpty then none
      else (parseRhs platform (splitSign back).2).map fun value =>
        ⟨lowercase platform (Text.trimStartMatches "tx.".toList front), (splitSign back).1, value⟩ := by
  rw [parseSetvar, Text.splitOnce_append absent]
  simp only
  by_cases empty : (lowercase platform (Text.trimStartMatches "tx.".toList front)).isEmpty = true
  · rw [if_pos empty, if_pos empty]
  · rw [if_neg empty, if_neg empty]
    fun_cases splitSign back with
    | case1 rest =>
      simp only [parseRhs]
      cases txRef platform rest with
      | some inner => rfl
      | none => simp only [Option.map_map]; rfl
    | case2 rest =>
      simp only [parseRhs]
      cases txRef platform rest with
      | some inner => rfl
      | none => simp only [Option.map_map]; rfl
    | case3 notPlus notMinus =>
      simp only [parseRhs]
      cases txRef platform back with
      | some inner => rfl
      | none => simp only [Option.map_map]; rfl

theorem parseSetvar_text {scope var : Text} {rhs : RhsText} (casing : Casing "tx" scope) (name : '=' ∉ var)
    (well : rhs.WellFormed) (op : VarOp) :
    parseSetvar platform (setvarText scope var op rhs) =
      if (lowercase platform (Text.trimStartMatches "tx.".toList (scope ++ '.' :: var))).isEmpty then none
      else (rhs.read platform).map fun value =>
        ⟨lowercase platform (Text.trimStartMatches "tx.".toList (scope ++ '.' :: var)), op, value⟩ := by
  have absent : '=' ∉ scope ++ '.' :: var := by
    have inScope := not_mem_of_casing (c := '=') casing (by decide) (by decide)
    simp [inScope, name]
  have text : setvarText scope var op rhs = (scope ++ '.' :: var) ++ '=' :: (op.sign ++ rhs.text) := by
    simp [setvarText]
  rw [text, parseSetvar_append platform absent, splitSign_text well, parseRhs_text platform well]

-- Operations

/-- What a variable becomes, in numbers without bounds. -/
def VarOp.result (op : VarOp) (old rhs : Int) : Int :=
  match op with
  | .assign => rhs
  | .incrBy => old + rhs
  | .decrBy => old - rhs

def VarOp.apply (op : VarOp) (old rhs : Int64) : Int64 :=
  match op with
  | .assign => rhs
  | .incrBy => old + rhs
  | .decrBy => old - rhs

theorem toInt_apply (op : VarOp) {old rhs : Int64} (fits : FitsI64 (op.result old.toInt rhs.toInt)) :
    (op.apply old rhs).toInt = op.result old.toInt rhs.toInt := by
  have exact : op.apply old rhs = Int64.ofInt (op.result old.toInt rhs.toInt) := by
    cases op with
    | assign => exact (Int64.ofInt_toInt _).symm
    | incrBy => rw [VarOp.result, Int64.ofInt_add, Int64.ofInt_toInt, Int64.ofInt_toInt]; rfl
    | decrBy => rw [VarOp.result, Int64.ofInt_sub, Int64.ofInt_toInt, Int64.ofInt_toInt]; rfl
  rw [exact, toInt_ofI64 fits]

def RhsText.value (tx : TxState) : RhsText → Int
  | .number digits => Text.digitsValue digits
  | .reference _ name => (tx.get platform (String.ofList name)).toInt

/-- The variables after `var` has been set to `value`, if that is a number of 64 bits; no other variable is touched. -/
structure VarSet (tx after : TxState) (var : String) (value : Int) : Prop where
  result : ∀ casing, platform.toLowercase casing = platform.toLowercase var → FitsI64 value →
    (after.get platform casing).toInt = value
  others : ∀ key, key ≠ platform.toLowercase var → after.vars.get key = tx.vars.get key
  texts : after.strVars = tx.strVars

/-- A `setvar` is read, and sets its variable whatever the variables are. -/
def Obeyed (scope var : Text) (op : VarOp) (rhs : RhsText) : Prop :=
  ∃ operation, parseSetvar platform (setvarText scope var op rhs) = some operation ∧
    ∀ tx : TxState, VarSet platform tx (tx.apply platform operation) (String.ofList var)
      (op.result (tx.get platform (String.ofList var)).toInt (rhs.value platform tx))

def RhsText.Readable : RhsText → Prop
  | .number digits => Text.digitsValue digits < 2 ^ 63
  | .reference scope _ => scope = "tx".toList

theorem read_isSome (rhs : RhsText) : (rhs.read platform).isSome = true ↔ rhs.Readable := by
  cases rhs with
  | number digits => simp [RhsText.read, RhsText.Readable]
  | reference scope name => simp [RhsText.read, RhsText.Readable]

theorem rhsValue_read {rhs : RhsText} {value : SetVarRhs} (folding : platform.CaseFolding)
    (read : rhs.read platform = some value) (tx : TxState) :
    (tx.rhsValue platform value).toInt = rhs.value platform tx := by
  cases rhs with
  | number digits =>
    rw [RhsText.read] at read
    by_cases fits : Text.digitsValue digits < 2 ^ 63
    · rw [if_pos fits] at read
      cases read
      exact toInt_ofI64 ⟨by omega, by omega⟩
    · rw [if_neg fits] at read
      cases read
  | reference scope name =>
    rw [RhsText.read] at read
    by_cases straight : scope = "tx".toList
    · rw [if_pos straight] at read
      cases read
      rw [TxState.rhsValue, TxState.get, lowercase, folding.idempotent]
      rfl
    · rw [if_neg straight] at read
      cases read

theorem apply_vars (tx : TxState) (operation : SetVarOp) :
    (tx.apply platform operation).vars = tx.vars.insert (platform.toLowercase operation.var)
      (operation.op.apply (tx.get platform operation.var) (tx.rhsValue platform operation.rhs)) := by
  cases operation with
  | mk var op rhs => cases op <;> rfl

end

-- Names

theorem lower_tx : Casing "tx" "tx".toList := rfl

section
variable {platform : Platform} (folding : platform.CaseFolding)
include folding

theorem length_lower_scope {scope : Text} (casing : Casing "tx" scope) (var : Text) :
    (lowercase platform (scope ++ '.' :: var)).length = 3 + (lowercase platform var).length := by
  have dotted : Casing "tx." (scope ++ ['.']) := by
    rw [Casing, List.map_append, casing]
    rfl
  have lowered : platform.toLowercase (String.ofList (scope ++ ['.'])) = "tx." :=
    platform.toLowercase_of_casing dotted rfl
  have sum := folding.length_append (scope ++ ['.']) var
  rwa [lowered, List.append_assoc] at sum

theorem length_lower_trim (s : Text) :
    (lowercase platform (Text.trimStartMatches "tx.".toList s)).length ≤ (lowercase platform s).length := by
  induction length : s.length using Nat.strongRecOn generalizing s with
  | ind n ih =>
    by_cases front : "tx.".toList <+: s
    · obtain ⟨rest, rfl⟩ := front
      have shorter : rest.length < n := by
        rw [← length, List.length_append]
        exact Nat.lt_add_of_pos_left (by decide)
      have longer : (lowercase platform ("tx.".toList ++ rest)).length = 3 + (lowercase platform rest).length :=
        length_lower_scope folding lower_tx rest
      rw [Text.trimStartMatches_append (by decide), longer]
      have le := ih _ shorter rest rfl
      omega
    · rw [Text.trimStartMatches_of_not front]

/-- The name that is stored is the one that was written, and no part of it was taken for the scope. -/
theorem straight_of_stored {scope var : Text} (casing : Casing "tx" scope)
    (stored : lowercase platform (Text.trimStartMatches "tx.".toList (scope ++ '.' :: var)) = lowercase platform var) :
    scope = "tx".toList ∧ ¬ "tx.".toList <+: var := by
  by_cases straight : scope = "tx".toList
  · refine ⟨straight, ?_⟩
    rintro ⟨rest, rfl⟩
    subst straight
    have trimmed : Text.trimStartMatches "tx.".toList ("tx".toList ++ '.' :: ("tx.".toList ++ rest)) =
        Text.trimStartMatches "tx.".toList rest :=
      (Text.trimStartMatches_append (by decide) _).trans (Text.trimStartMatches_append (by decide) rest)
    have longer : (lowercase platform ("tx.".toList ++ rest)).length = 3 + (lowercase platform rest).length :=
      length_lower_scope folding lower_tx rest
    have le := length_lower_trim folding rest
    rw [trimmed] at stored
    rw [stored] at le
    omega
  · have other : ¬ "tx.".toList <+: scope ++ '.' :: var := fun front => straight ((scope_iff casing var).mp front)
    have longer := length_lower_scope folding casing var
    rw [Text.trimStartMatches_of_not other] at stored
    rw [stored] at longer
    omega

end

theorem trim_straight {var : Text} (other : ¬ "tx.".toList <+: var) :
    Text.trimStartMatches "tx.".toList ("tx".toList ++ '.' :: var) = var :=
  (Text.trimStartMatches_append (by decide) var).trans (Text.trimStartMatches_of_not other)

section
variable {platform : Platform}

theorem apply_varSet (folding : platform.CaseFolding) {var : Text} {op : VarOp} {rhs : RhsText} {value : SetVarRhs}
    (read : rhs.read platform = some value) (tx : TxState) :
    VarSet platform tx (tx.apply platform ⟨lowercase platform var, op, value⟩) (String.ofList var)
      (op.result (tx.get platform (String.ofList var)).toInt (rhs.value platform tx)) := by
  have key : platform.toLowercase (lowercase platform var) = lowercase platform var := folding.idempotent _
  have vars := apply_vars platform tx ⟨lowercase platform var, op, value⟩
  have old : tx.get platform (lowercase platform var) = tx.get platform (String.ofList var) := by
    rw [TxState.get, key]
    rfl
  simp only [key, old] at vars
  refine ⟨fun casing same fits => ?_, fun other distinct => ?_, rfl⟩
  · rw [TxState.get, vars, same]
    have stored := AssocMap.get_insert_self tx.vars (lowercase platform var)
      (op.apply (tx.get platform (String.ofList var)) (tx.rhsValue platform value))
    change (((tx.vars.insert (lowercase platform var) _).get (lowercase platform var)).getD 0).toInt = _
    rw [stored, Option.getD_some]
    rw [← rhsValue_read platform folding read tx] at fits ⊢
    exact toInt_apply op fits
  · rw [vars]
    exact AssocMap.get_insert_of_ne _ _ _ _ distinct

/-- A `setvar` does what it says if and only if `tx` is in lower case wherever it stands, its variable is named and does
not begin with another `tx.`, and its number has 64 bits. -/
theorem setvar_obeyed_iff (folding : platform.CaseFolding) {scope var : Text} {rhs : RhsText}
    (casing : Casing "tx" scope) (name : '=' ∉ var) (well : rhs.WellFormed) (op : VarOp) :
    Obeyed platform scope var op rhs ↔
      scope = "tx".toList ∧ var ≠ [] ∧ ¬ "tx.".toList <+: var ∧ rhs.Readable := by
  have parse := parseSetvar_text platform casing name well op
  constructor
  · rintro ⟨operation, parsed, sets⟩
    rw [parse] at parsed
    by_cases empty : (lowercase platform (Text.trimStartMatches "tx.".toList (scope ++ '.' :: var))).isEmpty = true
    · rw [if_pos empty] at parsed
      cases parsed
    · rw [if_neg empty, Option.map_eq_some_iff] at parsed
      obtain ⟨value, read, rfl⟩ := parsed
      have stored : lowercase platform (Text.trimStartMatches "tx.".toList (scope ++ '.' :: var)) =
          lowercase platform var := by
        by_contra elsewhere
        have after := (sets ⟨.empty, .empty⟩).others _ elsewhere
        rw [apply_vars] at after
        change (AssocMap.insert _ (platform.toLowercase (lowercase platform _)) _).get _ = none at after
        rw [lowercase, folding.idempotent, AssocMap.get_insert_self] at after
        cases after
      obtain ⟨straight, once⟩ := straight_of_stored folding casing stored
      refine ⟨straight, ?_, once, (read_isSome platform rhs).mp (by rw [read]; rfl)⟩
      rintro rfl
      rw [stored] at empty
      exact empty rfl
  · rintro ⟨rfl, some, once, readable⟩
    obtain ⟨value, read⟩ := Option.isSome_iff_exists.mp ((read_isSome platform rhs).mpr readable)
    have named : ¬ (lowercase platform var).isEmpty = true := by
      rw [String.isEmpty_iff]
      exact fun empty => some (folding.eq_nil empty)
    rw [trim_straight once, if_neg named, read, Option.map_some] at parse
    exact ⟨_, parse, apply_varSet folding read⟩

end

theorem setvar_obeyed_iff_casing :
    Obeyed .plain "tx".toList "Blocking_Score".toList .incrBy (.reference "tx".toList "CRITICAL_Anomaly_Score".toList) ↔
      "tx".toList = "tx".toList ∧ "Blocking_Score".toList ≠ [] ∧ ¬ "tx.".toList <+: "Blocking_Score".toList ∧
        RhsText.Readable (.reference "tx".toList "CRITICAL_Anomaly_Score".toList) := by
  have well : RhsText.WellFormed (.reference "tx".toList "CRITICAL_Anomaly_Score".toList) := lower_tx
  exact setvar_obeyed_iff Platform.plain_caseFolding lower_tx (by decide) well .incrBy

/-- A reference in capitals is not read, and a scope in capitals makes the value that of another variable. -/
theorem setvar_disobeyed_capitals :
    ¬ Obeyed .plain "tx".toList "detection_paranoia_level".toList .assign
        (.reference "TX".toList "blocking_paranoia_level".toList) ∧
      ¬ Obeyed .plain "TX".toList "xss_score".toList .assign (.number ['5']) := by
  constructor
  · rintro ⟨operation, parsed, _⟩
    have refused : parseSetvar .plain (setvarText "tx".toList "detection_paranoia_level".toList .assign
        (.reference "TX".toList "blocking_paranoia_level".toList)) = none := by decide +kernel
    rw [refused] at parsed
    cases parsed
  · rintro ⟨operation, parsed, sets⟩
    have read : parseSetvar .plain (setvarText "TX".toList "xss_score".toList .assign (.number ['5'])) =
        some ⟨"tx.xss_score", .assign, .int 5⟩ := by decide +kernel
    rw [read] at parsed
    cases parsed
    have result := (sets .new).result "xss_score" rfl (by decide +kernel)
    have zero :
        (TxState.get .plain (.apply .plain .new ⟨"tx.xss_score", .assign, .int 5⟩) "xss_score").toInt = 0 := by
      decide +kernel
    rw [zero] at result
    revert result
    decide +kernel

end MiniWaf.Crs
