import MiniWaf.Rete.Firing

/-! The settings of an outcome that several rules can write: the kind of a
challenge and the seconds of a rate limit. Each write replaces the one before.
-/

set_option autoImplicit false

namespace MiniWaf.Rete

open Grl

structure Setting (A : Type) where
  action : String
  read : Outcome → Option A
  value : List Value → A

namespace Setting

def challenge : Setting ChallengeReq where
  action := "challenge"
  read := Outcome.challenge
  value args := if firstText args = "pow" then .pow else .js

def rateLimit : Setting UInt64 where
  action := "rate_limit"
  read := Outcome.rateLimitSecs
  value args := (args.head?.map fun v => v.asInt.toUInt64).getD 60

variable {A : Type} (setting : Setting A) (platform : Platform)

def writtenBy (st : FireState) : Stmt → Option A
  | .call c => if c.name = setting.action then some (setting.value (evalArgs platform st.wm c.args)) else none
  | .assign _ _ => none

def written (st : FireState) : List Stmt → Option A
  | [] => none
  | s :: rest => (written (runStmt platform st s) rest).or (setting.writtenBy platform st s)

def setBy (st : FireState) (term : Terminal) : Option A := setting.written platform (st.record term) term.actions

def RunBy (term : Terminal) : Prop := ∃ c, Stmt.call c ∈ term.actions ∧ c.name = setting.action

/-- A statement leaves in the field what it writes, or else what was there. -/
structure Overwritten : Prop where
  recorded : ∀ (st : FireState) (term : Terminal),
    setting.read (st.record term).wm.outcome = setting.read st.wm.outcome
  statement : ∀ platform st s, setting.read (runStmt platform st s).wm.outcome =
    (setting.writtenBy platform st s).or (setting.read st.wm.outcome)

variable {setting} in
/-- It is enough that a call of the action writes the field, and that any other call leaves it. -/
theorem overwritten_of_calls
    (recorded : ∀ (st : FireState) (term : Terminal),
      setting.read (st.record term).wm.outcome = setting.read st.wm.outcome)
    (own : ∀ platform st (c : CallExpr), c.name = setting.action →
      setting.read (runAction platform st c).wm.outcome = some (setting.value (evalArgs platform st.wm c.args)))
    (other : ∀ platform st (c : CallExpr), c.name ≠ setting.action →
      setting.read (runAction platform st c).wm.outcome = setting.read st.wm.outcome) : setting.Overwritten := by
  refine ⟨recorded, ?_⟩
  intro platform st s
  cases s with
  | assign target value => rfl
  | call c =>
    by_cases named : c.name = setting.action
    · rw [writtenBy, if_pos named, Option.some_or]
      exact own platform st c named
    · rw [writtenBy, if_neg named, Option.none_or]
      exact other platform st c named

theorem challenge_overwritten : challenge.Overwritten := by
  apply overwritten_of_calls
  · exact fun _ _ => rfl
  · intro platform st c own
    have called : c.name = "challenge" := own
    simp only [runAction, called]
    rfl
  · intro platform st c other
    unfold runAction
    split
    case h_3 => contradiction
    all_goals rfl

theorem rateLimit_overwritten : rateLimit.Overwritten := by
  apply overwritten_of_calls
  · exact fun _ _ => rfl
  · intro platform st c own
    have called : c.name = "rate_limit" := own
    simp only [runAction, called]
    rfl
  · intro platform st c other
    unfold runAction
    split
    case h_4 => contradiction
    all_goals rfl

variable {setting platform}

theorem read_runStmts (overwritten : setting.Overwritten) (st : FireState) (actions : List Stmt) :
    setting.read (runStmts platform st actions).wm.outcome =
      (setting.written platform st actions).or (setting.read st.wm.outcome) := by
  induction actions generalizing st with
  | nil => rfl
  | cons s rest ih =>
    have unfolded : runStmts platform st (s :: rest) = runStmts platform (runStmt platform st s) rest := rfl
    rw [unfolded, ih, overwritten.statement, written, Option.or_assoc]

theorem written_none_iff (st : FireState) (actions : List Stmt) :
    setting.written platform st actions = none ↔ ∀ c, Stmt.call c ∈ actions → c.name ≠ setting.action := by
  induction actions generalizing st with
  | nil => simp [written]
  | cons s rest ih =>
    rw [written, Option.or_eq_none_iff, ih]
    cases s with
    | assign target value => simp [writtenBy]
    | call c => simp [writtenBy, or_imp, forall_and, and_comm]

theorem setBy_none_iff (st : FireState) (term : Terminal) :
    setting.setBy platform st term = none ↔ ¬ setting.RunBy term := by
  unfold setBy RunBy
  rw [written_none_iff]
  constructor
  · rintro silent ⟨c, member, named⟩
    exact silent c member named
  · intro silent c member named
    exact silent ⟨c, member, named⟩

theorem exists_setBy (st : FireState) {term : Terminal} (runs : setting.RunBy term) :
    ∃ v, setting.setBy platform st term = some v := by
  rw [← Option.isSome_iff_exists, Option.isSome_iff_ne_none]
  exact fun none => (setBy_none_iff st term).mp none runs

theorem read_fireTerminal (overwritten : setting.Overwritten) (st : FireState) (term : Terminal) :
    setting.read (fireTerminal platform st term).wm.outcome =
      (setting.setBy platform st term).or (setting.read st.wm.outcome) := by
  rw [fireTerminal, read_runStmts overwritten, overwritten.recorded, setBy]

-- Terminals fired in turn

variable (setting platform) (engine : Engine) (fact : RequestContext)

/-- Among the terminals fired in turn, this one sets the value. -/
def SetAmong (terms : List Terminal) (term : Terminal) (v : A) : Prop :=
  ∃ earlier later, terms = earlier ++ term :: later ∧
    setting.setBy platform (engine.stateAfter platform fact earlier) term = some v

def Foremost (terms : List Terminal) (term : Terminal) : Prop :=
  ∀ other ∈ terms, setting.RunBy other → other.salience ≤ term.salience

/-- The field holds what a terminal of the highest salience set. -/
def ByPriority (terms : List Terminal) : Prop :=
  (∃ term ∈ terms, setting.RunBy term) → ∃ term v, setting.SetAmong platform engine fact terms term v ∧
    setting.Foremost terms term ∧ setting.read (engine.stateAfter platform fact terms).wm.outcome = some v

/-- A terminal that may write after the others: none of them has a higher salience, or one of the highest salience
has set the same value. -/
def MayFollow (earlier : List Terminal) (term : Terminal) : Prop :=
  setting.Foremost earlier term ∨ ∃ other v, setting.SetAmong platform engine fact earlier other v ∧
    setting.Foremost earlier other ∧ setting.setBy platform (engine.stateAfter platform fact earlier) term = some v

variable {setting platform engine fact}

theorem concat_eq_split {l earlier later : List Terminal} {last term : Terminal} :
    l ++ [last] = earlier ++ term :: later ↔
      (earlier = l ∧ term = last ∧ later = []) ∨ ∃ rest, later = rest ++ [last] ∧ l = earlier ++ term :: rest := by
  constructor
  · intro split
    rcases List.eq_nil_or_concat later with rfl | ⟨rest, final, rfl⟩
    · obtain ⟨rfl, same⟩ := List.append_inj' split rfl
      cases same
      exact .inl ⟨rfl, rfl, rfl⟩
    · rw [List.concat_eq_append, ← List.cons_append, ← List.append_assoc] at split
      obtain ⟨front, same⟩ := List.append_inj' split rfl
      cases same
      exact .inr ⟨rest, List.concat_eq_append, front⟩
  · rintro (⟨rfl, rfl, rfl⟩ | ⟨rest, rfl, rfl⟩)
    · rfl
    · simp

theorem setAmong_concat {terms : List Terminal} {last term : Terminal} {v : A} :
    setting.SetAmong platform engine fact (terms ++ [last]) term v ↔
      setting.SetAmong platform engine fact terms term v ∨
        (term = last ∧ setting.setBy platform (engine.stateAfter platform fact terms) last = some v) := by
  constructor
  · rintro ⟨earlier, later, split, set⟩
    obtain ⟨rfl, rfl, -⟩ | ⟨rest, -, rfl⟩ := concat_eq_split.mp split
    · exact .inr ⟨rfl, set⟩
    · exact .inl ⟨earlier, rest, rfl, set⟩
  · rintro (⟨earlier, later, rfl, set⟩ | ⟨rfl, set⟩)
    · exact ⟨earlier, later ++ [last], by simp, set⟩
    · exact ⟨terms, [], rfl, set⟩

theorem foremost_concat {terms : List Terminal} {last term : Terminal} :
    setting.Foremost (terms ++ [last]) term ↔
      setting.Foremost terms term ∧ (setting.RunBy last → last.salience ≤ term.salience) := by
  unfold Foremost
  rw [List.forall_mem_append, List.forall_mem_singleton]

theorem read_concat (overwritten : setting.Overwritten) (terms : List Terminal) (last : Terminal) :
    setting.read (engine.stateAfter platform fact (terms ++ [last])).wm.outcome =
      (setting.setBy platform (engine.stateAfter platform fact terms) last).or
        (setting.read (engine.stateAfter platform fact terms).wm.outcome) := by
  rw [Engine.stateAfter, List.foldl_append]
  exact read_fireTerminal overwritten _ last

theorem byPriority_of_silent (overwritten : setting.Overwritten) {terms : List Terminal} {last : Terminal}
    (silent : ¬ setting.RunBy last) : setting.ByPriority platform engine fact (terms ++ [last]) ↔
      setting.ByPriority platform engine fact terms := by
  have unset (st : FireState) : setting.setBy platform st last = none := (setBy_none_iff st last).mpr silent
  simp only [ByPriority, setAmong_concat, foremost_concat, read_concat overwritten, unset]
  simp [silent, or_and_right, exists_or]

/-- A firing that runs the action is right exactly if it may follow. -/
theorem byPriority_of_runs (overwritten : setting.Overwritten) {terms : List Terminal} {last : Terminal}
    (runs : setting.RunBy last) : setting.ByPriority platform engine fact (terms ++ [last]) ↔
      setting.MayFollow platform engine fact terms last := by
  obtain ⟨v, set⟩ : ∃ v, setting.setBy platform (engine.stateAfter platform fact terms) last = some v :=
    exists_setBy _ runs
  have left : setting.read (engine.stateAfter platform fact (terms ++ [last])).wm.outcome = some v := by
    rw [read_concat overwritten, set, Option.some_or]
  constructor
  · intro prior
    obtain ⟨term, w, among, foremost, same⟩ := prior ⟨last, by simp, runs⟩
    rw [left] at same
    cases same
    rw [foremost_concat] at foremost
    rw [setAmong_concat] at among
    obtain among | ⟨rfl, -⟩ := among
    · exact .inr ⟨term, v, among, foremost.1, set⟩
    · exact .inl foremost.1
  · intro follows _
    by_cases highest : setting.Foremost terms last
    · exact ⟨last, v, setAmong_concat.mpr (.inr ⟨rfl, set⟩),
        foremost_concat.mpr ⟨highest, fun _ => Int32.le_refl _⟩, left⟩
    · obtain ⟨other, w, among, foremost, same⟩ := follows.resolve_left highest
      rw [set] at same
      cases same
      refine ⟨other, v, setAmong_concat.mpr (.inl among), foremost_concat.mpr ⟨foremost, fun _ => ?_⟩, left⟩
      by_contra above
      apply highest
      intro third member alsoRuns
      exact Int32.le_trans (foremost third member alsoRuns) (Int32.le_of_lt (Int32.not_le.mp above))

/-- The last firing that runs the action decides whether the priorities are kept. -/
theorem byPriority_iff (overwritten : setting.Overwritten) (terms : List Terminal) :
    setting.ByPriority platform engine fact terms ↔
      ∀ earlier term later, terms = earlier ++ term :: later → setting.RunBy term →
        (∀ other ∈ later, ¬ setting.RunBy other) → setting.MayFollow platform engine fact earlier term := by
  induction terms using List.reverseRecOn with
  | nil =>
    constructor
    · intro _ earlier term later split
      simp at split
    · rintro _ ⟨term, member, -⟩
      cases member
  | append_singleton terms last ih =>
    by_cases runs : setting.RunBy last
    · rw [byPriority_of_runs overwritten runs]
      constructor
      · intro follows earlier term later split _ silent
        obtain ⟨rfl, rfl, -⟩ | ⟨rest, rfl, -⟩ := concat_eq_split.mp split
        · exact follows
        · exact absurd runs (silent last (by simp))
      · intro lasts
        exact lasts terms last [] rfl runs (by simp)
    · rw [byPriority_of_silent overwritten runs, ih]
      constructor
      · intro lasts earlier term later split runsTerm silent
        obtain ⟨-, rfl, -⟩ | ⟨rest, rfl, whole⟩ := concat_eq_split.mp split
        · exact absurd runsTerm runs
        · exact lasts earlier term rest whole runsTerm fun other member => silent other (by simp [member])
      · rintro lasts earlier term later rfl runsTerm silent
        apply lasts earlier term (later ++ [last]) (by simp) runsTerm
        intro other member
        rw [List.mem_append, List.mem_singleton] at member
        obtain inLater | rfl := member
        · exact silent other inLater
        · exact runs

end Setting

namespace Engine

variable {A : Type} (setting : Setting A) (platform : Platform) (engine : Engine) (fact : RequestContext)

/-- Whenever fired terminals run the action, the outcome has what one of the highest salience among them set. -/
def Prioritised : Prop :=
  (∃ term ∈ engine.firedTerminals platform fact, setting.RunBy term) →
    ∃ term v, setting.SetAmong platform engine fact (engine.firedTerminals platform fact) term v ∧
      setting.Foremost (engine.firedTerminals platform fact) term ∧ setting.read (engine.fire platform fact) = some v

def LastMayFollow : Prop :=
  ∀ earlier term later, engine.firedTerminals platform fact = earlier ++ term :: later → setting.RunBy term →
    (∀ other ∈ later, ¬ setting.RunBy other) → setting.MayFollow platform engine fact earlier term

variable {setting}

theorem prioritised_iff (overwritten : setting.Overwritten) :
    Prioritised setting platform engine fact ↔ LastMayFollow setting platform engine fact := by
  unfold Prioritised LastMayFollow
  rw [fire, finalState_eq_stateAfter]
  exact Setting.byPriority_iff overwritten _

end Engine

/-- A challenge, and a rate limit, is decided by salience exactly if the last writer may follow. -/
theorem settings_prioritised_iff (platform : Platform) (engine : Engine) (fact : RequestContext) :
    (Engine.Prioritised .challenge platform engine fact ↔ Engine.LastMayFollow .challenge platform engine fact) ∧
      (Engine.Prioritised .rateLimit platform engine fact ↔ Engine.LastMayFollow .rateLimit platform engine fact) :=
  ⟨engine.prioritised_iff platform fact Setting.challenge_overwritten,
    engine.prioritised_iff platform fact Setting.rateLimit_overwritten⟩

def rivalRules : List RuleAst :=
  [⟨"strict", 20, .literal (.bool true), [.call ⟨"challenge", [.literal (.str "pow")]⟩]⟩,
    ⟨"lenient", 10, .literal (.bool true), [.call ⟨"challenge", [.literal (.str "js")]⟩]⟩]

/-- The rule of the lower salience fires last and its challenge stays. -/
theorem challenge_overruled :
    ¬ Engine.Prioritised .challenge .plain (.new .plain (Network.compile .plain rivalRules)) (.bare "GET" "/") := by
  let strict : Terminal := ⟨"strict", 20, .true, [.call ⟨"challenge", [.literal (.str "pow")]⟩]⟩
  let lenient : Terminal := ⟨"lenient", 10, .true, [.call ⟨"challenge", [.literal (.str "js")]⟩]⟩
  have fired : (Engine.new .plain (Network.compile .plain rivalRules)).firedTerminals .plain (.bare "GET" "/") =
      [strict] ++ [lenient] := rfl
  intro prioritised
  unfold Engine.Prioritised at prioritised
  rw [fired] at prioritised
  obtain ⟨term, v, among, foremost, left⟩ := prioritised ⟨strict, List.mem_cons_self, _, List.mem_cons_self, rfl⟩
  rw [Setting.setAmong_concat] at among
  obtain ⟨earlier, later, split, set⟩ | ⟨rfl, -⟩ := among
  · have alone : [] ++ [strict] = earlier ++ term :: later := split
    obtain ⟨rfl, rfl, -⟩ | ⟨rest, -, none⟩ := Setting.concat_eq_split.mp alone
    · have same : some ChallengeReq.pow = some .js := set.trans left.symm
      cases same
    · simp at none
  · have above := foremost strict List.mem_cons_self ⟨_, List.mem_cons_self, rfl⟩
    revert above
    decide

end MiniWaf.Rete
