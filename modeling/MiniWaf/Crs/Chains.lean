import MiniWaf.Crs.Parser
import MiniWaf.Theory.Runs

/-! Chains of rules in a CRS file, and when the parser keeps or drops them as a whole. -/

set_option autoImplicit false

namespace MiniWaf.Crs

open Runs

/-- A `SecRule` of the file, with the markers between the rule before it and itself. -/
structure Placed where
  markers : List String
  /-- There is a marker, with or without a name. -/
  resets : Bool
  rest : Text

def named (name : Text) : List String := if name = [] then [] else [String.ofList name]

def place (markers : List String) (resets : Bool) : List Directive → List Placed
  | [] => []
  | .marker name :: ds => place (markers ++ named name) true ds
  | .rule rest :: ds => ⟨markers, resets, rest⟩ :: place [] false ds

structure Outcome extends Placed where
  items : List RuleItem

def Outcome.kept (o : Outcome) : Prop := o.items ≠ []

def Outcome.adjacent (o : Outcome) : Prop := o.markers = []

instance : DecidablePred Outcome.kept := fun o => decidable_of_iff (o.items.isEmpty = false) (by simp [Outcome.kept])

section
variable (platform : Platform) (ipNet : IpNetParser)

def outcomesFrom (skip : Nat) (markers : List String) (resets : Bool) : List Directive → List Outcome
  | [] => []
  | .marker name :: ds => outcomesFrom (step platform ipNet skip (.marker name)).1 (markers ++ named name) true ds
  | .rule rest :: ds =>
    ⟨⟨markers, resets, rest⟩, (step platform ipNet skip (.rule rest)).2⟩ ::
      outcomesFrom (step platform ipNet skip (.rule rest)).1 [] false ds

def directives (src : Text) : List Directive := (joinContinuations src).filterMap directive

def outcomes (src : Text) : List Outcome := outcomesFrom platform ipNet 0 [] false (directives src)

def continues (rest : Text) : Bool :=
  match secRuleParts rest with
  | some (_, _, actions) => (parseActions platform actions).isChain
  | none => false

def chains (src : Text) : List (List Outcome) :=
  runs (fun o => continues platform o.rest) (outcomes platform ipNet src)

/-- Each chain is in the output with nothing in between, or none of its rules is. -/
def ChainsWhole (src : Text) : Prop := ∀ chain ∈ chains platform ipNet src, Whole Outcome.kept Outcome.adjacent chain

def parses (rest : Text) : Bool := (parseSecrule platform ipNet rest).isSome

/-- The next rule is skipped, unless a marker comes first. Rules before it are given latest first: from one that does
not parse, the rough check for `chain` is met all the way, with no marker in between. -/
def overrun : List Placed → Bool
  | [] => false
  | p :: before => hasChainAction p.rest && (!parses platform ipNet p.rest || (!p.resets && overrun before))

def dropped (before : List Placed) (p : Placed) : Bool :=
  !parses platform ipNet p.rest || (!p.resets && overrun platform ipNet before)

/-- A rule that continues and the next one fare alike. -/
def LinkHolds (before : List Placed) (a b : Placed) : Prop :=
  if dropped platform ipNet before a then parses platform ipNet b.rest = true → hasChainAction a.rest = true ∧ b.resets = false
  else parses platform ipNet b.rest = true ∧ b.markers = []

def LinksHold (src : Text) : Prop :=
  ∀ front a b back, place [] false (directives src) = front ++ a :: b :: back → continues platform a.rest = true →
    LinkHolds platform ipNet front.reverse a b

end

section
variable {platform : Platform} {ipNet : IpNetParser}

/-- The outcomes are the output, in order, but for the markers after the last rule. -/
theorem parseFrom_eq (ds : List Directive) : ∀ (skip : Nat) (markers : List String) (resets : Bool),
    ∃ trailing : List String, markers.map RuleItem.marker ++ parseFrom platform ipNet skip ds =
      (outcomesFrom platform ipNet skip markers resets ds).flatMap (fun o => o.markers.map RuleItem.marker ++ o.items) ++
        trailing.map RuleItem.marker := by
  induction ds with
  | nil => exact fun skip markers resets => ⟨markers, by simp [parseFrom, outcomesFrom]⟩
  | cons d ds ih =>
    intro skip markers resets
    cases d with
    | marker name =>
      obtain ⟨trailing, whole⟩ := ih 0 (markers ++ named name) true
      refine ⟨trailing, Eq.trans ?_ whole⟩
      have item : (step platform ipNet skip (.marker name)).2 = (named name).map RuleItem.marker := by
        rw [step, named]
        split <;> rfl
      rw [parseFrom, item, List.map_append, List.append_assoc]
      rfl
    | rule rest =>
      obtain ⟨trailing, whole⟩ := ih (step platform ipNet skip (.rule rest)).1 [] false
      rw [List.map_nil, List.nil_append] at whole
      refine ⟨trailing, ?_⟩
      rw [parseFrom, outcomesFrom, List.flatMap_cons, whole]
      simp only [List.append_assoc]

theorem parseConf_eq (src : Text) : ∃ trailing : List String, parseConf platform ipNet src =
    (outcomes platform ipNet src).flatMap (fun o => o.markers.map RuleItem.marker ++ o.items) ++
      trailing.map RuleItem.marker := parseFrom_eq (directives src) 0 [] false

variable (platform ipNet) in
def annotate (before : List Placed) : List Placed → List Outcome
  | [] => []
  | p :: ps =>
    ⟨p, if dropped platform ipNet before p then [] else (parseSecrule platform ipNet p.rest).toList.map RuleItem.rule⟩ ::
      annotate (p :: before) ps

theorem outcomesFrom_eq (ds : List Directive) : ∀ (skip : Nat) (markers : List String) (resets : Bool)
    (before : List Placed), (skip = if !resets && overrun platform ipNet before then 1 else 0) →
      outcomesFrom platform ipNet skip markers resets ds = annotate platform ipNet before (place markers resets ds) := by
  induction ds with
  | nil => exact fun _ _ _ _ _ => rfl
  | cons d ds ih =>
    intro skip markers resets before counted
    cases d with
    | marker name => exact ih _ _ true before rfl
    | rule rest =>
      have turn : step platform ipNet skip (.rule rest) =
          (if overrun platform ipNet (⟨markers, resets, rest⟩ :: before) then 1 else 0,
            if dropped platform ipNet before ⟨markers, resets, rest⟩ then []
            else (parseSecrule platform ipNet rest).toList.map RuleItem.rule) := by
        rw [step, counted, overrun, dropped, parses]
        cases (!resets && overrun platform ipNet before) with
        | true => cases hasChainAction rest <;> simp
        | false =>
          cases parseSecrule platform ipNet rest with
          | none => cases hasChainAction rest <;> simp
          | some rule => simp
      rw [outcomesFrom, place, annotate, turn]
      apply congrArg (List.cons _)
      apply ih
      rw [Bool.not_false, Bool.true_and]

theorem parses_of_not_dropped {before : List Placed} {p : Placed} (stays : dropped platform ipNet before p = false) :
    parses platform ipNet p.rest = true := by
  rw [dropped, Bool.or_eq_false_iff, Bool.not_eq_false'] at stays
  exact stays.1

theorem kept_iff (before : List Placed) (p : Placed) :
    Outcome.kept ⟨p, if dropped platform ipNet before p then [] else
      (parseSecrule platform ipNet p.rest).toList.map RuleItem.rule⟩ ↔ dropped platform ipNet before p = false := by
  unfold Outcome.kept
  cases gone : dropped platform ipNet before p with
  | true => simp
  | false =>
    obtain ⟨rule, read⟩ := Option.isSome_iff_exists.mp (parses_of_not_dropped gone)
    simp [read]

/-- Two rules in a row are linked exactly under the condition on what is written. -/
theorem linked_iff (before : List Placed) (a b : Placed) (itemsA itemsB : List RuleItem)
    (first : Outcome.kept ⟨a, itemsA⟩ ↔ dropped platform ipNet before a = false)
    (second : Outcome.kept ⟨b, itemsB⟩ ↔ dropped platform ipNet (a :: before) b = false) :
    Linked Outcome.kept Outcome.adjacent ⟨a, itemsA⟩ ⟨b, itemsB⟩ ↔ LinkHolds platform ipNet before a b := by
  have skipped : overrun platform ipNet (a :: before) = (hasChainAction a.rest && dropped platform ipNet before a) := rfl
  have next : dropped platform ipNet (a :: before) b =
      (!parses platform ipNet b.rest || (!b.resets && (hasChainAction a.rest && dropped platform ipNet before a))) := by
    rw [dropped, skipped]
  unfold Linked LinkHolds
  rw [first, second, next]
  cases dropped platform ipNet before a with
  | true =>
    cases parses platform ipNet b.rest <;> cases hasChainAction a.rest <;> cases b.resets <;> simp
  | false => cases parses platform ipNet b.rest <;> simp [Outcome.adjacent]

variable (platform ipNet) in
theorem isChain_annotate (ps : List Placed) : ∀ before : List Placed,
    ((annotate platform ipNet before ps).IsChain fun a b =>
      continues platform a.rest = true → Linked Outcome.kept Outcome.adjacent a b) ↔
      ∀ front a b back, ps = front ++ a :: b :: back → continues platform a.rest = true →
        LinkHolds platform ipNet (front.reverse ++ before) a b := by
  induction ps with
  | nil =>
    intro before
    simp [annotate]
  | cons p ps ih =>
    intro before
    cases ps with
    | nil =>
      refine iff_of_true (List.isChain_singleton _) ?_
      intro front a b back split
      have lengths := congrArg List.length split
      simp at lengths
      omega
    | cons q ps =>
      have link : Linked Outcome.kept Outcome.adjacent _ _ ↔ LinkHolds platform ipNet before p q :=
        linked_iff before p q _ _ (kept_iff before p) (kept_iff (p :: before) q)
      rw [annotate, annotate, List.isChain_cons_cons]
      constructor
      · rintro ⟨here, later⟩ front a b back split
        cases front with
        | nil =>
          obtain ⟨rfl, rest⟩ := List.cons.inj split
          obtain ⟨rfl, -⟩ := List.cons.inj rest
          exact fun goes => link.mp (here goes)
        | cons c front =>
          obtain ⟨rfl, rest⟩ := List.cons.inj split
          rw [List.reverse_cons, List.append_assoc]
          exact (ih (p :: before)).mp later front a b back rest
      · intro links
        refine ⟨fun goes => link.mpr (links [] p q ps rfl goes), (ih (p :: before)).mpr ?_⟩
        intro front a b back split goes
        have longer := links (p :: front) a b back (congrArg (List.cons p) split) goes
        rwa [List.reverse_cons, List.append_assoc] at longer

variable (platform ipNet) in
/-- The rules and the markers of the output are as in the file, and each chain is whole exactly if every rule that
continues fares as the next one does. -/
theorem chains_whole_iff (src : Text) :
    (∃ trailing : List String, parseConf platform ipNet src =
      (outcomes platform ipNet src).flatMap (fun o => o.markers.map RuleItem.marker ++ o.items) ++
        trailing.map RuleItem.marker) ∧
      (ChainsWhole platform ipNet src ↔ LinksHold platform ipNet src) := by
  refine ⟨parseConf_eq src, ?_⟩
  have annotated : outcomes platform ipNet src = annotate platform ipNet [] (place [] false (directives src)) :=
    outcomesFrom_eq (directives src) 0 [] false [] rfl
  have links := isChain_annotate platform ipNet (place [] false (directives src)) []
  simp only [List.append_nil] at links
  unfold ChainsWhole chains LinksHold
  rw [annotated, whole_runs_iff]
  exact links

end

def earlyBlocking : Text :=
  ("SecRule TX:BLOCKING_INBOUND_ANOMALY_SCORE \"@ge %\x7btx.inbound_anomaly_score_threshold\x7d\" \\\n" ++
    "    \"id:949111,\\\n    phase:1,\\\n    deny,\\\n    t:none,\\\n    tag:'anomaly-evaluation',\\\n    chain\"\n" ++
    "    SecRule TX:EARLY_BLOCKING \"@eq 1\"\n").toList

/-- The head is kept, and its member is lost. -/
theorem chain_halved : ¬ ChainsWhole .plain (fun _ => none) earlyBlocking := by
  unfold ChainsWhole Whole Outcome.adjacent
  decide +kernel

end MiniWaf.Crs
