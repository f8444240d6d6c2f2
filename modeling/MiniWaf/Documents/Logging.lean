import MiniWaf.Documents.Verdict

/-! Rules that only log: they decide nothing, as long as they leave the others a turn. -/

set_option autoImplicit false

namespace MiniWaf.Documents

open Grl Rete Yaml

def decides (v : Yaml) : Bool := ruleAction v ∈ ["block", "challenge", "rate_limit", "allow"]

theorem ends_of_logs {t : Tally} {v : Yaml} (logs : decides v = false) (id : String) : t.ends (ruleAction v) id = none := by
  simp only [decides, List.mem_cons, List.not_mem_nil, or_false, decide_eq_false_iff_not, not_or] at logs
  exact Tally.ends.eq_3 t _ id logs.1 logs.2.2.2

theorem after_of_logs {t : Tally} {v : Yaml} (logs : decides v = false) : t.after (ruleAction v) = t := by
  simp only [decides, List.mem_cons, List.not_mem_nil, or_false, decide_eq_false_iff_not, not_or] at logs
  exact Tally.after.eq_3 t _ logs.2.1 logs.2.2.1

/-- Two tallies ask for the same, and the items that decide are taken in one exactly if they are in the other. -/
structure SameAsked (items : List Yaml) (t t' : Tally) : Prop where
  challenged : t'.challenged = t.challenged
  limited : t'.limited = t.limited
  taken : ∀ v ∈ items, decides v = true → (itemId v ∈ t'.taken ↔ itemId v ∈ t.taken)

theorem SameAsked.decision {items : List Yaml} {t t' : Tally} (same : SameAsked items t t') : t'.decision = t.decision := by
  rw [Tally.decision, Tally.decision, same.challenged, same.limited]

theorem SameAsked.tail {v : Yaml} {items : List Yaml} {t t' : Tally} (same : SameAsked (v :: items) t t') :
    SameAsked items t t' :=
  ⟨same.challenged, same.limited, fun w member => same.taken w (List.mem_cons_of_mem _ member)⟩

theorem SameAsked.take {items : List Yaml} {t t' : Tally} (same : SameAsked items t t') (id : String) :
    SameAsked items (t.take id) (t'.take id) := by
  refine ⟨same.challenged, same.limited, fun v member decisive => ?_⟩
  rw [Tally.take, Tally.take, List.mem_append, List.mem_append, same.taken v member decisive]

theorem SameAsked.after {items : List Yaml} {t t' : Tally} (same : SameAsked items t t') (action : String) :
    SameAsked items (t.after action) (t'.after action) := by
  obtain ⟨challenged, limited, taken⟩ := same
  unfold Tally.after
  split
  · exact ⟨rfl, limited, taken⟩
  · exact ⟨challenged, rfl, taken⟩
  · exact ⟨challenged, limited, taken⟩

theorem SameAsked.ends {items : List Yaml} {t t' : Tally} (same : SameAsked items t t') (action id : String) :
    t'.ends action id = t.ends action id := by
  unfold Tally.ends
  rw [same.decision]

/-- Without the items that only log, the list comes to the same decision. -/
theorem verdict_of_deciding {meets : Yaml → Bool} {items : List Yaml}
    (apart : ∀ v ∈ items, ∀ w ∈ items, decides v = false → decides w = true → itemId v ≠ itemId w) {n n' : Nat}
    (enough : items.countP meets ≤ n) (enough' : (items.filter decides).countP meets ≤ n') {t t' : Tally}
    (same : SameAsked items t t') :
    (verdict meets n' t' (items.filter decides)).2 = (verdict meets n t items).2 := by
  induction items generalizing n n' t t' with
  | nil =>
    rw [List.filter_nil, verdict, verdict]
    exact same.decision
  | cons v rest ih =>
    have apartRest : ∀ v ∈ rest, ∀ w ∈ rest, decides v = false → decides w = true → itemId v ≠ itemId w :=
      fun v inRest w inRest' => apart v (List.mem_cons_of_mem _ inRest) w (List.mem_cons_of_mem _ inRest')
    cases decisive : decides v with
    | true =>
      rw [List.filter_cons_of_pos decisive] at enough' ⊢
      by_cases turn : (meets v && decide (itemId v ∉ t.taken)) = true
      · have turn' : (meets v && decide (itemId v ∉ t'.taken)) = true := by
          rw [Bool.and_eq_true, decide_eq_true_eq] at turn ⊢
          exact ⟨turn.1, fun taken => turn.2 ((same.taken v List.mem_cons_self decisive).mp taken)⟩
        have met : meets v = true := (Bool.and_eq_true_iff.mp turn).1
        rw [List.countP_cons_of_pos met] at enough enough'
        obtain ⟨n, rfl⟩ : ∃ m, n = m + 1 := ⟨n - 1, by omega⟩
        obtain ⟨n', rfl⟩ : ∃ m, n' = m + 1 := ⟨n' - 1, by omega⟩
        rw [verdict, verdict, if_pos turn, if_pos turn']
        have next := same.take (itemId v)
        dsimp only
        rw [next.ends]
        cases (t.take (itemId v)).ends (ruleAction v) (itemId v) with
        | some d => rfl
        | none => exact ih apartRest (by omega) (by omega) (next.after _).tail
      · have turn' : ¬ (meets v && decide (itemId v ∉ t'.taken)) = true := by
          rw [Bool.and_eq_true, decide_eq_true_eq] at turn ⊢
          exact fun both => turn ⟨both.1, fun taken => both.2 ((same.taken v List.mem_cons_self decisive).mpr taken)⟩
        rw [verdict_skip turn, verdict_skip turn']
        have fewer : rest.countP meets ≤ (v :: rest).countP meets := List.Sublist.countP_le (List.sublist_cons_self v rest)
        have fewer' : (rest.filter decides).countP meets ≤ (v :: rest.filter decides).countP meets :=
          List.Sublist.countP_le (List.sublist_cons_self v _)
        exact ih apartRest (by omega) (by omega) same.tail
    | false =>
      rw [List.filter_cons_of_neg (by simp [decisive])] at enough' ⊢
      by_cases turn : (meets v && decide (itemId v ∉ t.taken)) = true
      · have met : meets v = true := (Bool.and_eq_true_iff.mp turn).1
        rw [List.countP_cons_of_pos met] at enough
        obtain ⟨n, rfl⟩ : ∃ m, n = m + 1 := ⟨n - 1, by omega⟩
        rw [verdict, if_pos turn]
        dsimp only
        rw [ends_of_logs decisive, after_of_logs decisive]
        refine ih apartRest (by omega) enough' ⟨same.challenged, same.limited, fun w member decisiveW => ?_⟩
        have other := apart v List.mem_cons_self w (List.mem_cons_of_mem _ member) decisive decisiveW
        rw [Tally.take, List.mem_append, List.mem_singleton, or_iff_left (Ne.symm other)]
        exact same.taken w (List.mem_cons_of_mem _ member) decisiveW
      · rw [verdict_skip turn]
        have fewer : rest.countP meets ≤ (v :: rest).countP meets := List.Sublist.countP_le (List.sublist_cons_self v rest)
        exact ih apartRest (by omega) enough' same.tail

-- Engines

instance : Std.Total itemOrder := ⟨fun v w => Int32.le_total (ruleSalience w) (ruleSalience v)⟩

instance : IsTrans Yaml itemOrder := ⟨fun _ _ _ first second => Int32.le_trans second first⟩

variable {platform : Platform}

variable (platform) in
theorem orderedItems_filter (keep : Yaml → Bool) (items : List Yaml) :
    orderedItems platform (items.filter keep) = (orderedItems platform items).filter keep := by
  rw [orderedItems, orderedItems, StableSort.filter_insertionSort, okItems, okItems, List.filter_comm]

/-- Of two engines over a document and over its deciding rules, both decide every request alike on which at most
sixteen rules match. -/
theorem log_rules_never_decide {items : List Yaml} {engine quiet : Engine}
    (compiled : engine.network = .compile platform ((okRules items).map (RuleShape.ast platform)))
    (compiledQuiet : quiet.network = .compile platform ((okRules (items.filter decides)).map (RuleShape.ast platform)))
    (sameFunctions : quiet.registry = engine.registry) (builtIn : engine.registry.fns "matches" = none)
    (clean : ∀ r ∈ okRules items, r.clean platform = true ∧ r.keepsId platform = true)
    (apart : ∀ v ∈ items, ∀ w ∈ items, decides v = false → decides w = true → itemId v ≠ itemId w) (ctx : RequestContext)
    (few : items.countP (itemMeets platform ctx engine.registry) ≤ maxCycles) :
    outcomeToDecision (quiet.fire platform ctx) = outcomeToDecision (engine.fire platform ctx) := by
  have cleanQuiet : ∀ r ∈ okRules (items.filter decides), r.clean platform = true ∧ r.keepsId platform = true := by
    intro r member
    obtain ⟨v, inItems, converts⟩ := List.mem_filterMap.mp member
    exact clean r (List.mem_filterMap.mpr ⟨v, List.mem_of_mem_filter inItems, converts⟩)
  have whole := congrArg Prod.snd (fire_verdict compiled builtIn clean ctx)
  have part := congrArg Prod.snd (fire_verdict compiledQuiet (sameFunctions ▸ builtIn) cleanQuiet ctx)
  rw [orderedItems_filter, sameFunctions] at part
  have sub : (orderedItems platform items).Perm (okItems platform items) := List.perm_insertionSort _ _
  have inItems : ∀ v ∈ orderedItems platform items, v ∈ items :=
    fun v member => List.mem_of_mem_filter (sub.mem_iff.mp member)
  have enough : (orderedItems platform items).countP (itemMeets platform ctx engine.registry) ≤ maxCycles := by
    rw [sub.countP_eq]
    exact Nat.le_trans (List.Sublist.countP_le List.filter_sublist) few
  refine part.trans (Eq.trans ?_ whole.symm)
  refine verdict_of_deciding ?_ enough (Nat.le_trans (List.Sublist.countP_le List.filter_sublist) enough)
    ⟨rfl, rfl, fun _ _ _ => Iff.rfl⟩
  exact fun v inV w inW => apart v (inItems v inV) w (inItems w inW)

def loggedItems : List Yaml := [adminItem "note" "log", adminItem "stop" "block"]

def adminEngine (items : List Yaml) : Engine :=
  .new .plain (.compile .plain ((okRules items).map (RuleShape.ast .plain)))

theorem adminEngine_network (items : List Yaml) :
    (adminEngine items).network = .compile .plain ((okRules items).map (RuleShape.ast .plain)) := rfl

theorem log_rules_never_decide_admin :
    outcomeToDecision ((adminEngine (loggedItems.filter decides)).fire .plain (.bare "GET" "/admin")) =
      outcomeToDecision ((adminEngine loggedItems).fire .plain (.bare "GET" "/admin")) := by
  have clean : ∀ r ∈ okRules loggedItems, r.clean .plain = true ∧ r.keepsId .plain = true := by decide +kernel
  have apart : ∀ v ∈ loggedItems, ∀ w ∈ loggedItems, decides v = false → decides w = true → itemId v ≠ itemId w := by
    decide
  exact log_rules_never_decide (adminEngine_network loggedItems) (adminEngine_network _) rfl rfl clean apart _
    (Nat.le_trans List.countP_le_length (by decide))

end MiniWaf.Documents
