import MiniWaf.Std.Json
import MiniWaf.Std.Text
import MiniWaf.Theory.Upsert

/-! The merge of the default rules of a directory into the rules stored in Consul. A
default rule that is stored is refreshed, one that is not is added, and a stored rule
that is no default is left alone.
-/

set_option autoImplicit false

namespace MiniWaf.Consul

open Upsert

def fileNames : List String := ["global.yaml", "critical.yaml", "high.yaml", "medium.yaml", "catch-all.yaml"]

/-- `"catch-all.yaml"` gives the tier `"CATCH_ALL"`. -/
def tierName (name : String) : String :=
  String.ofList (Text.replace ['-'] ['_'] (((Text.split '.' name.toList).headD []).map Char.toUpper))

example : fileNames.map tierName = ["GLOBAL", "CRITICAL", "HIGH", "MEDIUM", "CATCH_ALL"] := by decide

/-- The rules of a parsed file: the list under `rules`, or the file itself if it is a list. -/
def rulesOf (parsed : Json) : List Json :=
  match (parsed.get "rules").bind Json.asArray with
  | some arr => arr
  | none => parsed.asArray.getD []

def idOf (r : Json) : Option String := (r.get "id").bind Json.asStr

def isDefault (r : Json) : Bool := (r.get "is_default").bind Json.asBool = some true

structure DefaultRule where
  tier : String
  rule : Json

/-- A rules directory: what each file reads as, where it can be read and parsed. An object has one entry a key. -/
structure DefaultsDir where
  parsed : String → Option Json
  distinct : ∀ name file, parsed name = some file → ∀ r ∈ rulesOf file, (r.fields.map Prod.fst).Nodup

def DefaultsDir.defaults (dir : DefaultsDir) : List DefaultRule :=
  fileNames.flatMap fun name => ((dir.parsed name).elim [] rulesOf).map fun r => ⟨tierName name, r⟩

/-- The fields that are set on every default rule. -/
def stamps (now : Int64) (d : DefaultRule) : List (String × Json) :=
  (if (d.rule.get "enabled").isSome then [] else [("enabled", .bool true)]) ++
    [("is_default", .bool true), ("tier", .string d.tier), ("source", .string "system"), ("updated_ms", .number (.ofI64 now))]

def ruleData (now : Int64) (d : DefaultRule) : Json := d.rule.extend (stamps now d)

def created (now : Int64) (d : DefaultRule) : Json :=
  (ruleData now d).extend [("created_ms", .number (.ofI64 now)), ("created_by", .string "system")]

def merged (now : Int64) (d : DefaultRule) (existing : Json) : Json := existing.extend (ruleData now d).fields

def mergeRule (now : Int64) (acc : List Json × Bool) (d : DefaultRule) : List Json × Bool :=
  match idOf d.rule with
  | none => acc
  | some id =>
    match acc.1.findIdx? fun r => idOf r = some id with
    | none => (acc.1 ++ [created now d], true)
    | some idx =>
      match acc.1[idx]? with
      | none => acc
      | some existing =>
        if isDefault existing then
          if merged now d existing ≠ existing then (acc.1.set idx (merged now d existing), true) else acc
        else acc

def mergeRules (now : Int64) (defaults : List DefaultRule) (existing : List Json) : List Json × Bool :=
  defaults.foldl (mergeRule now) (existing, false)

-- One merge

def refreshed (now : Int64) (d : DefaultRule) (existing : Json) : Json :=
  if isDefault existing then merged now d existing else existing

theorem mergeRule_fst (now : Int64) (acc : List Json × Bool) (d : DefaultRule) : (mergeRule now acc d).1 =
    (idOf d.rule).elim acc.1 fun id => upsert (fun r => idOf r = some id) (refreshed now d) (created now d) acc.1 := by
  rw [mergeRule]
  cases idOf d.rule with
  | none => rfl
  | some id =>
    simp only [Option.elim_some, upsert_eq]
    cases acc.1.findIdx? fun r => idOf r = some id with
    | none => rfl
    | some idx =>
      dsimp only
      cases found : acc.1[idx]? with
      | none => rfl
      | some existing =>
        simp only [refreshed]
        have unset : acc.1.set idx existing = acc.1 := by
          obtain ⟨bound, rfl⟩ := List.getElem?_eq_some_iff.mp found
          exact List.set_getElem_self bound
        by_cases default : isDefault existing = true
        · rw [if_pos default, if_pos default]
          by_cases differs : merged now d existing = existing
          · rw [if_neg (not_not_intro differs), differs, unset]
          · rw [if_pos differs]
        · rw [if_neg default, if_neg default, unset]

theorem mergeRule_unchanged {now : Int64} {acc : List Json × Bool} {d : DefaultRule}
    (unchanged : (mergeRule now acc d).2 = false) : mergeRule now acc d = acc := by
  revert unchanged
  rw [mergeRule]
  cases idOf d.rule with
  | none => exact fun _ => rfl
  | some id =>
    dsimp only
    cases acc.1.findIdx? fun r => idOf r = some id with
    | none => exact fun set => by cases set
    | some idx =>
      dsimp only
      cases acc.1[idx]? with
      | none => exact fun _ => rfl
      | some existing =>
        dsimp only
        split
        · split
          · exact fun set => by cases set
          · exact fun _ => rfl
        · exact fun _ => rfl

theorem foldl_unchanged {now : Int64} (defaults : List DefaultRule) {acc : List Json × Bool}
    (unchanged : (defaults.foldl (mergeRule now) acc).2 = false) : defaults.foldl (mergeRule now) acc = acc := by
  induction defaults generalizing acc with
  | nil => rfl
  | cons d rest ih =>
    rw [List.foldl_cons] at unchanged ⊢
    have later := ih unchanged
    rw [later] at unchanged ⊢
    exact mergeRule_unchanged unchanged

-- Fields of a merged rule

variable {now : Int64} {d : DefaultRule} {existing : Json} {id : String}

theorem object_of_idOf {r : Json} (named : idOf r = some id) : ∃ fields, r = .object fields := by
  obtain ⟨found, has, -⟩ := Option.bind_eq_some_iff.mp named
  exact Json.object_of_get has

theorem object_of_isDefault {r : Json} (default : isDefault r = true) : ∃ fields, r = .object fields := by
  rw [isDefault, decide_eq_true_eq] at default
  obtain ⟨found, has, -⟩ := Option.bind_eq_some_iff.mp default
  exact Json.object_of_get has

theorem get_ruleData (named : idOf d.rule = some id) (key : String) :
    (ruleData now d).get key = (Json.lookup key (stamps now d).reverse).or (d.rule.get key) := by
  obtain ⟨fields, object⟩ := object_of_idOf named
  exact Json.get_extend object _ key

theorem idOf_ruleData (named : idOf d.rule = some id) : idOf (ruleData now d) = some id := by
  have unset : Json.lookup "id" (stamps now d).reverse = none := by
    rw [stamps]
    split <;> rfl
  rw [idOf, get_ruleData named, unset, Option.none_or]
  exact named

theorem isDefault_ruleData (named : idOf d.rule = some id) : isDefault (ruleData now d) = true := by
  have set : Json.lookup "is_default" (stamps now d).reverse = some (.bool true) := by
    rw [stamps]
    split <;> rfl
  rw [isDefault, get_ruleData named, set]
  rfl

theorem idOf_created (named : idOf d.rule = some id) : idOf (created now d) = some id := by
  obtain ⟨fields, object⟩ := object_of_idOf (@idOf_ruleData now d id named)
  rw [idOf, created, Json.get_extend object]
  exact idOf_ruleData named

def Distinct (d : DefaultRule) : Prop := (d.rule.fields.map Prod.fst).Nodup

theorem get_merged (distinct : Distinct d) (default : isDefault existing = true) (key : String) :
    (merged now d existing).get key = ((ruleData now d).get key).or (existing.get key) := by
  obtain ⟨fields, object⟩ := object_of_isDefault default
  have data : ((ruleData now d).fields.map Prod.fst).Nodup := Json.nodup_extend _ distinct
  rw [merged, Json.get_extend object, Json.lookup_reverse data]
  rfl

theorem idOf_merged (distinct : Distinct d) (named : idOf d.rule = some id) (default : isDefault existing = true) :
    idOf (merged now d existing) = some id := by
  have data := @idOf_ruleData now d id named
  obtain ⟨found, has, text⟩ := Option.bind_eq_some_iff.mp data
  rw [idOf, get_merged distinct default, has]
  exact text

theorem isDefault_merged (distinct : Distinct d) (named : idOf d.rule = some id) (default : isDefault existing = true) :
    isDefault (merged now d existing) = true := by
  have data := @isDefault_ruleData now d id named
  rw [isDefault, decide_eq_true_eq] at data ⊢
  obtain ⟨found, has, flag⟩ := Option.bind_eq_some_iff.mp data
  rw [get_merged distinct default, has]
  exact flag

-- What is kept

structure Kept (r r' : Json) : Prop where
  id : idOf r' = idOf r
  default : isDefault r' = isDefault r
  custom : isDefault r = false → r' = r

theorem Kept.refl (r : Json) : Kept r r := ⟨rfl, rfl, fun _ => rfl⟩

theorem Kept.trans (a b c : Json) (first : Kept a b) (second : Kept b c) : Kept a c where
  id := second.id.trans first.id
  default := second.default.trans first.default
  custom custom := by rw [second.custom (first.default.trans custom), first.custom custom]

theorem kept_refreshed (distinct : Distinct d) (named : idOf d.rule = some id) (same : idOf existing = some id) :
    Kept existing (refreshed now d existing) := by
  rw [refreshed]
  cases default : isDefault existing with
  | false => exact Kept.refl existing
  | true =>
    refine ⟨?_, ?_, fun custom => by rw [default] at custom; cases custom⟩
    · rw [if_pos rfl, idOf_merged distinct named default, same]
    · rw [if_pos rfl, isDefault_merged distinct named default, default]

theorem grows_mergeRule (distinct : Distinct d) (acc : List Json × Bool) : Grows Kept acc.1 (mergeRule now acc d).1 := by
  rw [mergeRule_fst]
  cases named : idOf d.rule with
  | none => exact Grows.refl Kept.refl acc.1
  | some id => exact grows_upsert Kept.refl (fun r same => kept_refreshed distinct named (of_decide_eq_true same)) acc.1

theorem nodup_mergeRule (distinct : Distinct d) {acc : List Json × Bool} (ids : (acc.1.filterMap idOf).Nodup) :
    ((mergeRule now acc d).1.filterMap idOf).Nodup := by
  rw [mergeRule_fst]
  cases named : idOf d.rule with
  | none => exact ids
  | some id =>
    have kept (r : Json) (same : idOf r = some id) : idOf (refreshed now d r) = some id :=
      (kept_refreshed distinct named same).id.trans same
    exact (nodup_upsert kept (idOf_created named) ids).1

-- Up to bookkeeping

def bookkeeping : List String := ["updated_ms", "created_ms", "created_by"]

/-- Rules that differ in bookkeeping at most. -/
def Alike (r r' : Json) : Prop := ∀ key ∉ bookkeeping, r.get key = r'.get key

theorem Alike.idOf_eq {r r' : Json} (alike : Alike r r') : idOf r = idOf r' := by
  rw [idOf, idOf, alike "id" (by decide)]

theorem Alike.isDefault_eq {r r' : Json} (alike : Alike r r') : isDefault r = isDefault r' := by
  rw [isDefault, isDefault, alike "is_default" (by decide)]

theorem alike_ruleData (named : idOf d.rule = some id) (now now' : Int64) : Alike (ruleData now d) (ruleData now' d) := by
  intro key shown
  have other : "updated_ms" ≠ key := by
    rintro rfl
    exact shown (by decide)
  rw [get_ruleData named, get_ruleData named, stamps, stamps, List.reverse_append, List.reverse_append,
    Json.lookup_append, Json.lookup_append]
  simp only [List.reverse_cons, List.reverse_nil, List.nil_append, List.cons_append, Json.lookup_cons, if_neg other]

theorem alike_created (named : idOf d.rule = some id) (now now' : Int64) : Alike (created now d) (ruleData now' d) := by
  intro key shown
  obtain ⟨fields, object⟩ := object_of_idOf (@idOf_ruleData now d id named)
  have unset : Json.lookup key [("created_by", Json.string "system"), ("created_ms", .number (.ofI64 now))] = none := by
    have first : "created_by" ≠ key := by
      rintro rfl
      exact shown (by decide)
    have second : "created_ms" ≠ key := by
      rintro rfl
      exact shown (by decide)
    rw [Json.lookup_cons, Json.lookup_cons, if_neg first, if_neg second]
    rfl
  rw [created, Json.get_extend object]
  simp only [List.reverse_cons, List.reverse_nil, List.nil_append, List.cons_append, unset, Option.none_or]
  exact alike_ruleData named now now' key shown

theorem alike_refreshed {r r' : Json} (distinct : Distinct d) (named : idOf d.rule = some id) (alike : Alike r r')
    (now now' : Int64) : Alike (refreshed now d r) (refreshed now' d r') := by
  rw [refreshed, refreshed, ← alike.isDefault_eq]
  by_cases default : isDefault r = true
  · rw [if_pos default, if_pos default]
    intro key shown
    rw [get_merged distinct default, get_merged distinct (alike.isDefault_eq ▸ default), alike key shown,
      alike_ruleData named now now' key shown]
  · rw [if_neg default, if_neg default]
    exact alike

/-- Rules that are alike are merged alike, whenever that is. -/
theorem alike_mergeRule (distinct : Distinct d) {acc acc' : List Json × Bool} (alike : List.Forall₂ Alike acc.1 acc'.1)
    (now now' : Int64) : List.Forall₂ Alike (mergeRule now acc d).1 (mergeRule now' acc' d).1 := by
  rw [mergeRule_fst, mergeRule_fst]
  cases named : idOf d.rule with
  | none => exact alike
  | some id =>
    refine forall₂_upsert (fun r r' same => ?_) (fun r r' same _ => alike_refreshed distinct named same now now') ?_ alike
    · rw [same.idOf_eq]
    · intro key shown
      rw [alike_created named now now key shown, alike_created named now' now key shown]

/-- The stored rules have what the default rule says, unless the one with its id is no default. -/
def Absorbed (d : DefaultRule) (rules : List Json) : Prop :=
  ∀ id, idOf d.rule = some id → ∃ r, rules.find? (fun r => idOf r = some id) = some r ∧
    (isDefault r = true → ∀ key ∉ bookkeeping, ∀ v, (ruleData 0 d).get key = some v → r.get key = some v)

theorem absorbed_mergeRule (distinct : Distinct d) (acc : List Json × Bool) : Absorbed d (mergeRule now acc d).1 := by
  intro id named
  rw [mergeRule_fst, named, Option.elim_some]
  have keeps : ∀ r, decide (idOf r = some id) = true → decide (idOf (refreshed now d r) = some id) = true := by
    intro r same
    rw [decide_eq_true_eq] at same ⊢
    exact (kept_refreshed distinct named same).id.trans same
  refine ⟨_, find?_upsert keeps (decide_eq_true (idOf_created named)) acc.1, ?_⟩
  cases acc.1.find? fun r => decide (idOf r = some id) with
  | none =>
    intro _ key shown v has
    rw [Option.elim_none, alike_created named now 0 key shown]
    exact has
  | some r =>
    rw [Option.elim_some, refreshed]
    by_cases default : isDefault r = true
    · intro _ key shown v has
      rw [if_pos default, get_merged distinct default, alike_ruleData named now 0 key shown, has, Option.some_or]
    · intro still
      rw [if_neg default] at still
      exact absurd still default

theorem Absorbed.mergeRule {e : DefaultRule} (distinct : Distinct e) {acc : List Json × Bool}
    (other : ∀ id, idOf d.rule = some id → idOf e.rule ≠ some id) (absorbed : Absorbed d acc.1) :
    Absorbed d (mergeRule now acc e).1 := by
  intro id named
  obtain ⟨r, found, holds⟩ := absorbed id named
  refine ⟨r, ?_, holds⟩
  rw [mergeRule_fst]
  cases named' : idOf e.rule with
  | none => exact found
  | some id' =>
    have ne : ¬ (some id' = some id) := fun same => other id named (named'.trans same)
    rw [Option.elim_some, find?_upsert_of_disjoint, found]
    · intro r same
      have kept := (@kept_refreshed now e r id' distinct named' (of_decide_eq_true same)).id
      rw [kept, of_decide_eq_true same, decide_eq_false ne]
    · intro r same
      rw [of_decide_eq_true same, decide_eq_false ne]
    · rw [idOf_created named', decide_eq_false ne]

theorem Absorbed.of_alike {rules rules' : List Json} (alike : List.Forall₂ Alike rules rules') (absorbed : Absorbed d rules) :
    Absorbed d rules' := by
  intro id named
  obtain ⟨r, found, holds⟩ := absorbed id named
  clear absorbed
  induction alike with
  | nil => cases found
  | @cons a b rules rules' first rest ih =>
    by_cases here : idOf a = some id
    · rw [List.find?_cons_of_pos (by simpa using here), Option.some.injEq] at found
      subst found
      have there : idOf b = some id := first.idOf_eq.symm.trans here
      refine ⟨b, List.find?_cons_of_pos (by simpa using there), fun default key shown v has => ?_⟩
      rw [← first key shown]
      exact holds (first.isDefault_eq.trans default) key shown v has
    · have there : ¬ idOf b = some id := fun same => here (first.idOf_eq.trans same)
      rw [List.find?_cons_of_neg (by simpa using here)] at found
      rw [List.find?_cons_of_neg (by simpa using there)]
      exact ih found

theorem alike_of_absorbed (distinct : Distinct d) {acc : List Json × Bool} (absorbed : Absorbed d acc.1) :
    List.Forall₂ Alike acc.1 (mergeRule now acc d).1 := by
  rw [mergeRule_fst]
  cases named : idOf d.rule with
  | none => exact List.forall₂_same.mpr fun r _ key _ => rfl
  | some id =>
    obtain ⟨r, found, holds⟩ := absorbed id named
    refine forall₂_of_find (fun r key _ => rfl) found ?_
    rw [refreshed]
    by_cases default : isDefault r = true
    · intro key shown
      rw [if_pos default, get_merged distinct default, alike_ruleData named now 0 key shown]
      cases has : (ruleData 0 d).get key with
      | none => rfl
      | some v => rw [holds default key shown v has, Option.some_or]
    · intro key _
      rw [if_neg default]

-- All default rules

def AllAlike (rules rules' : List Json) : Prop := List.Forall₂ Alike rules rules'

theorem AllAlike.refl (rules : List Json) : AllAlike rules rules := List.forall₂_same.mpr fun _ _ _ _ => rfl

theorem AllAlike.symm {rules rules' : List Json} (alike : AllAlike rules rules') : AllAlike rules' rules := by
  induction alike with
  | nil => exact .nil
  | cons first _ ih => exact .cons (fun key shown => (first key shown).symm) ih

theorem AllAlike.trans {first second third : List Json} (alike : AllAlike first second) (alike' : AllAlike second third) :
    AllAlike first third := by
  induction alike generalizing third with
  | nil => exact alike'
  | cons here _ ih =>
    cases alike' with
    | cons here' rest => exact .cons (fun key shown => (here key shown).trans (here' key shown)) (ih rest)

/-- No id is that of two default rules. -/
def OneEach (defaults : List DefaultRule) : Prop :=
  defaults.Pairwise fun d e => ∀ id, idOf d.rule = some id → idOf e.rule ≠ some id

/-- What the merge of a directory's default rules leaves. -/
structure RulesMerged (now : Int64) (defaults : List DefaultRule) (existing : List Json) : Prop where
  grows : Grows Kept existing (mergeRules now defaults existing).1
  ids : (existing.filterMap idOf).Nodup → ((mergeRules now defaults existing).1.filterMap idOf).Nodup
  unchanged : (mergeRules now defaults existing).2 = false → (mergeRules now defaults existing).1 = existing
  absorbed : OneEach defaults → ∀ d ∈ defaults, Absorbed d (mergeRules now defaults existing).1
  again : OneEach defaults → ∀ now', AllAlike (mergeRules now defaults existing).1
    (mergeRules now' defaults (mergeRules now defaults existing).1).1

theorem alike_foldl (defaults : List DefaultRule) (distinct : ∀ d ∈ defaults, Distinct d) (now now' : Int64)
    {acc acc' : List Json × Bool} (alike : AllAlike acc.1 acc'.1) :
    AllAlike (defaults.foldl (mergeRule now) acc).1 (defaults.foldl (mergeRule now') acc').1 := by
  induction defaults generalizing acc acc' with
  | nil => exact alike
  | cons d rest ih =>
    obtain ⟨here, later⟩ := List.forall_mem_cons.mp distinct
    exact ih later (alike_mergeRule here alike now now')

theorem alike_foldl_of_absorbed (defaults : List DefaultRule) (distinct : ∀ d ∈ defaults, Distinct d) (now : Int64)
    {acc : List Json × Bool} (absorbed : ∀ d ∈ defaults, Absorbed d acc.1) :
    AllAlike acc.1 (defaults.foldl (mergeRule now) acc).1 := by
  induction defaults generalizing acc with
  | nil => exact AllAlike.refl acc.1
  | cons d rest ih =>
    obtain ⟨here, later⟩ := List.forall_mem_cons.mp distinct
    obtain ⟨first, others⟩ := List.forall_mem_cons.mp absorbed
    have step : AllAlike acc.1 (mergeRule now acc d).1 := alike_of_absorbed here first
    exact step.trans (ih later fun e member => (others e member).of_alike step)

theorem absorbed_foldl (defaults : List DefaultRule) (distinct : ∀ d ∈ defaults, Distinct d) (now : Int64)
    (oneEach : OneEach defaults) (acc : List Json × Bool) :
    ∀ d ∈ defaults, Absorbed d (defaults.foldl (mergeRule now) acc).1 := by
  have stays (rest : List DefaultRule) : ∀ acc : List Json × Bool, ∀ d, (∀ e ∈ rest, Distinct e) →
      (∀ e ∈ rest, ∀ id, idOf d.rule = some id → idOf e.rule ≠ some id) → Absorbed d acc.1 →
      Absorbed d (rest.foldl (mergeRule now) acc).1 := by
    induction rest with
    | nil => exact fun _ _ _ _ absorbed => absorbed
    | cons e rest ih =>
      intro acc d distinct other absorbed
      obtain ⟨here, later⟩ := List.forall_mem_cons.mp distinct
      obtain ⟨first, others⟩ := List.forall_mem_cons.mp other
      exact ih (mergeRule now acc e) d later others (absorbed.mergeRule here first)
  induction defaults generalizing acc with
  | nil =>
    intro d member
    cases member
  | cons d rest ih =>
    obtain ⟨here, later⟩ := List.forall_mem_cons.mp distinct
    obtain ⟨others, tail⟩ := List.pairwise_cons.mp oneEach
    intro e member
    rcases List.mem_cons.mp member with rfl | member
    · exact stays rest _ _ later others (absorbed_mergeRule here acc)
    · exact ih later tail (mergeRule now acc d) e member

theorem grows_mergeRules (defaults : List DefaultRule) (distinct : ∀ d ∈ defaults, Distinct d) (now : Int64)
    (existing : List Json) : Grows Kept existing (mergeRules now defaults existing).1 := by
  refine List.foldlRecOn (motive := fun acc : List Json × Bool => Grows Kept existing acc.1) defaults _
    (Grows.refl Kept.refl existing) fun acc grown d member => ?_
  exact grown.trans Kept.trans (grows_mergeRule (distinct d member) acc)

theorem distinct_defaults (dir : DefaultsDir) : ∀ d ∈ dir.defaults, Distinct d := by
  intro d member
  obtain ⟨name, -, inFile⟩ := List.mem_flatMap.mp member
  obtain ⟨r, inRules, rfl⟩ := List.mem_map.mp inFile
  cases parsed : dir.parsed name with
  | none =>
    rw [parsed] at inRules
    cases inRules
  | some file =>
    rw [parsed] at inRules
    exact dir.distinct name file parsed r inRules

theorem rules_merged (dir : DefaultsDir) (now : Int64) (existing : List Json) : RulesMerged now dir.defaults existing where
  grows := grows_mergeRules dir.defaults (distinct_defaults dir) now existing
  ids ids := List.foldlRecOn (motive := fun acc : List Json × Bool => (acc.1.filterMap idOf).Nodup) dir.defaults _ ids
    fun _ ids d member => nodup_mergeRule (distinct_defaults dir d member) ids
  unchanged unchanged := by rw [mergeRules, foldl_unchanged dir.defaults unchanged]
  absorbed oneEach := absorbed_foldl dir.defaults (distinct_defaults dir) now oneEach _
  again oneEach now' := by
    have absorbed := absorbed_foldl dir.defaults (distinct_defaults dir) now oneEach (existing, false)
    exact @alike_foldl_of_absorbed dir.defaults (distinct_defaults dir) now' ((mergeRules now dir.defaults existing).1, false) absorbed

end MiniWaf.Consul
