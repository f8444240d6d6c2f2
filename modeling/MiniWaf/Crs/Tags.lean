import MiniWaf.Crs.Chains
import MiniWaf.Plugins.Crs

/-! The tags of CRS rules by id, as the loader collects them for `crs_match`, and when
they are all the tags of the files.
-/

set_option autoImplicit false

namespace MiniWaf.Crs

open Grl Runs

def tagEntry : RuleItem → UInt32 × List String
  | .rule rule => (rule.id, rule.actions.tags)
  | .chain chain => (chain.head.id, chain.head.actions.tags ++ chain.members.flatMap fun member => member.actions.tags)
  | .marker _ => (0, [])

/-- Items with tags are entered, in place of what was there. -/
def collectRuleTags (items : List RuleItem) (ruleTags : AssocMap UInt32 (List String)) : AssocMap UInt32 (List String) :=
  items.foldl (fun ruleTags item =>
    if (tagEntry item).2 = [] then ruleTags else ruleTags.insert (tagEntry item).1 (tagEntry item).2) ruleTags

/-- What `zentinel_modsec` reports of a request. -/
structure Transaction where
  anomalyScore : Int64
  matchedRules : List String

/-- A request through the runtime; there is no result where the uri or the headers are refused. -/
abbrev Runtime := RequestContext → Option Transaction

def matchedTags (ruleTags : AssocMap UInt32 (List String)) (tx : Transaction) : List String :=
  tx.matchedRules.flatMap fun ruleId => ((Text.parseU32 ruleId.toList).bind ruleTags.get).getD []

def rulesetOf (ruleTags : AssocMap UInt32 (List String)) (runtime : Runtime) : CrsRuleset where
  evaluate ctx :=
    match runtime ctx with
    | some tx => ⟨tx.anomalyScore, matchedTags ruleTags tx⟩
    | none => ⟨0, []⟩

def crsMatch (ruleset : CrsRuleset) (ctx : RequestContext) (tag : String) : Bool :=
  match (ruleset.register .new).fns "crs_match" with
  | some fn => (fn ctx [.str tag]).asBool
  | none => false

def Reports (runtime : Runtime) (ctx : RequestContext) (id : UInt32) : Prop :=
  ∃ tx, runtime ctx = some tx ∧ ∃ ruleId ∈ tx.matchedRules, Text.parseU32 ruleId.toList = some id

section
variable (platform : Platform) (ipNet : IpNetParser)

def loadTags (sources : List Text) : AssocMap UInt32 (List String) :=
  sources.foldl (fun ruleTags src => collectRuleTags (parseConf platform ipNet src) ruleTags) .empty

def actionsOf (rest : Text) : RawActions :=
  match secRuleParts rest with
  | some (_, _, actions) => parseActions platform actions
  | none => .default

def ruleTexts (src : Text) : List Text := (place [] false (directives src)).map Placed.rest

def chainTexts (src : Text) : List (List Text) := runs (continues platform) (ruleTexts src)

def Wanted (sources : List Text) (id : UInt32) (tag : String) : Prop :=
  ∃ src ∈ sources, ∃ chain ∈ chainTexts platform src, ∃ front d members, chain = front ++ d :: members ∧
    (actionsOf platform d).id = id ∧ ∃ e ∈ d :: members, tag ∈ (actionsOf platform e).tags

def Carried (sources : List Text) (id : UInt32) (tag : String) : Prop :=
  ∃ src ∈ sources, ∃ chain ∈ chainTexts platform src, (∃ d ∈ chain, (actionsOf platform d).id = id) ∧
    ∃ e ∈ chain, tag ∈ (actionsOf platform e).tags

/-- Under each id stand the tags of its directives and their members, and no others, so `crs_match` sees them. -/
def TagsSeen (sources : List Text) : Prop :=
  ∀ id, 1 ≤ id →
    (∀ tag, Wanted platform sources id tag → tag ∈ ((loadTags platform ipNet sources).get id).getD []) ∧
    (∀ tag ∈ ((loadTags platform ipNet sources).get id).getD [], Carried platform sources id tag) ∧
    ∀ tag, Wanted platform sources id tag → ∀ (runtime : Runtime) (ctx : RequestContext), Reports runtime ctx id →
      crsMatch (rulesetOf (loadTags platform ipNet sources) runtime) ctx tag = true

def readableFrom (before : List Placed) : List Placed → List Text
  | [] => []
  | p :: ps => (if dropped platform ipNet before p then [] else [p.rest]) ++ readableFrom (p :: before) ps

def readable (src : Text) : List Text := readableFrom platform ipNet [] (place [] false (directives src))

/-- The last readable directive with the id that has tags. -/
def lastTagged (sources : List Text) (id : UInt32) : Option Text :=
  (sources.flatMap (readable platform ipNet)).reverse.find? fun d =>
    (actionsOf platform d).tags ≠ [] && (actionsOf platform d).id == id

/-- All the tags wanted for an id are on the last readable directive with the id that has tags. -/
def TagsTogether (sources : List Text) : Prop :=
  ∀ id, 1 ≤ id → ∀ tag, Wanted platform sources id tag →
    ∃ d, lastTagged platform ipNet sources id = some d ∧ tag ∈ (actionsOf platform d).tags

end

section
variable {platform : Platform} {ipNet : IpNetParser}

theorem tagEntry_of_parses {rest : Text} {rule : SecRule} (parsed : parseSecrule platform ipNet rest = some rule) :
    tagEntry (.rule rule) = ((actionsOf platform rest).id, (actionsOf platform rest).tags) := by
  unfold parseSecrule at parsed
  unfold actionsOf
  cases parts : secRuleParts rest with
  | none => rw [parts] at parsed; cases parsed
  | some found =>
    obtain ⟨targets, op, actions⟩ := found
    rw [parts] at parsed
    cases operator : parseOperator platform ipNet (Text.trim op) with
    | none => simp [operator] at parsed
    | some read =>
      simp only [operator, Option.bind_eq_bind, Option.bind_some, Option.pure_def, Option.some.injEq] at parsed
      rw [← parsed]
      rfl

def tagged (entries : List (UInt32 × List String)) : List (UInt32 × List String) := entries.filter fun e => e.2 ≠ []

theorem tagged_append (first second : List (UInt32 × List String)) :
    tagged (first ++ second) = tagged first ++ tagged second := List.filter_append _ _

/-- Of the entries for an id the last one counts. -/
theorem get_collectRuleTags (items : List RuleItem) (id : UInt32) : ∀ m : AssocMap UInt32 (List String),
    (collectRuleTags items m).get id =
      (((tagged (items.map tagEntry)).reverse.find? fun e => e.1 == id).map Prod.snd).or (m.get id) := by
  induction items with
  | nil => exact fun _ => rfl
  | cons item rest ih =>
    intro m
    have turn : collectRuleTags (item :: rest) m = collectRuleTags rest
        (if (tagEntry item).2 = [] then m else m.insert (tagEntry item).1 (tagEntry item).2) := rfl
    rw [turn, ih, List.map_cons]
    by_cases untagged : (tagEntry item).2 = []
    · have passed : tagged (tagEntry item :: rest.map tagEntry) = tagged (rest.map tagEntry) :=
        List.filter_cons_of_neg (by simpa using untagged)
      rw [if_pos untagged, passed]
    · have counts : tagged (tagEntry item :: rest.map tagEntry) = tagEntry item :: tagged (rest.map tagEntry) :=
        List.filter_cons_of_pos (by simpa using untagged)
      rw [if_neg untagged, counts, List.reverse_cons, List.find?_append, Option.map_or, Option.or_assoc]
      congr 1
      by_cases same : (tagEntry item).1 = id
      · simp [same]
      · simp [same, Ne.symm same]

theorem loadTags_eq (sources : List Text) :
    loadTags platform ipNet sources = collectRuleTags (sources.flatMap (parseConf platform ipNet)) .empty := by
  have run : ∀ m, sources.foldl (fun ruleTags src => collectRuleTags (parseConf platform ipNet src) ruleTags) m =
      collectRuleTags (sources.flatMap (parseConf platform ipNet)) m := by
    induction sources with
    | nil => exact fun _ => rfl
    | cons src rest ih =>
      intro m
      rw [List.foldl_cons, ih, List.flatMap_cons]
      exact (List.foldl_append ..).symm
  exact run .empty

variable (platform) in
def textEntry (rest : Text) : UInt32 × List String := ((actionsOf platform rest).id, (actionsOf platform rest).tags)

theorem tagged_annotate (ps : List Placed) : ∀ before : List Placed,
    tagged (((annotate platform ipNet before ps).flatMap fun o => o.markers.map RuleItem.marker ++ o.items).map tagEntry) =
      tagged ((readableFrom platform ipNet before ps).map (textEntry platform)) := by
  induction ps with
  | nil => exact fun _ => rfl
  | cons p ps ih =>
    intro before
    have markers : tagged ((p.markers.map RuleItem.marker).map tagEntry) = [] := by
      simp [tagged, tagEntry]
    rw [annotate, readableFrom, List.flatMap_cons, List.map_append, List.map_append, List.map_append, tagged_append,
      tagged_append, tagged_append, markers, ih, List.nil_append]
    congr 2
    cases gone : dropped platform ipNet before p with
    | true => rfl
    | false =>
      obtain ⟨rule, parsed⟩ := Option.isSome_iff_exists.mp (parses_of_not_dropped gone)
      have entry := tagEntry_of_parses parsed
      simp [parsed, entry, textEntry]

theorem tagged_parseConf (src : Text) : tagged ((parseConf platform ipNet src).map tagEntry) =
    tagged ((readable platform ipNet src).map (textEntry platform)) := by
  obtain ⟨trailing, whole⟩ : ∃ trailing : List String, parseConf platform ipNet src = _ := parseConf_eq src
  have annotated : outcomes platform ipNet src = annotate platform ipNet [] (place [] false (directives src)) :=
    outcomesFrom_eq (directives src) 0 [] false [] rfl
  have markers : tagged ((trailing.map RuleItem.marker).map tagEntry) = [] := by
    simp [tagged, tagEntry]
  rw [whole, annotated, List.map_append, tagged_append, markers, List.append_nil]
  exact tagged_annotate _ []

theorem tagged_sources (sources : List Text) :
    tagged ((sources.flatMap (parseConf platform ipNet)).map tagEntry) =
      tagged ((sources.flatMap (readable platform ipNet)).map (textEntry platform)) := by
  induction sources with
  | nil => rfl
  | cons src rest ih =>
    rw [List.flatMap_cons, List.flatMap_cons, List.map_append, List.map_append, tagged_append, tagged_append, ih,
      tagged_parseConf]

/-- Under an id stand the tags of the last readable directive with the id that has tags. -/
theorem get_loadTags (sources : List Text) (id : UInt32) :
    (loadTags platform ipNet sources).get id =
      (lastTagged platform ipNet sources id).map fun d => (actionsOf platform d).tags := by
  have both : ∀ d, decide (decide ((textEntry platform d).2 ≠ []) = true ∧ ((textEntry platform d).1 == id) = true) =
      (decide ((actionsOf platform d).tags ≠ []) && (actionsOf platform d).id == id) := by
    intro d
    rw [Bool.decide_and, Bool.decide_eq_true, Bool.decide_eq_true]
    rfl
  rw [loadTags_eq, get_collectRuleTags, tagged_sources, AssocMap.get_empty, Option.or_none, tagged, ← List.filter_reverse,
    ← List.map_reverse, List.find?_filter, List.find?_map, Option.map_map, lastTagged]
  exact congrArg (fun p => Option.map _ (List.find? p _)) (funext both)

theorem crsMatch_eq (ruleset : CrsRuleset) (ctx : RequestContext) (tag : String) :
    crsMatch ruleset ctx tag = decide (tag ∈ (ruleset.evaluate ctx).matchedTags) := by
  unfold crsMatch CrsRuleset.register
  rw [FunctionRegistry.register_self]
  rfl

theorem crsMatch_of_reports {ruleTags : AssocMap UInt32 (List String)} {id : UInt32} {tag : String}
    (entered : tag ∈ (ruleTags.get id).getD []) {runtime : Runtime} {ctx : RequestContext} (reports : Reports runtime ctx id) :
    crsMatch (rulesetOf ruleTags runtime) ctx tag = true := by
  obtain ⟨tx, ran, ruleId, reported, number⟩ := reports
  rw [crsMatch_eq, decide_eq_true_eq, rulesetOf]
  simp only [ran]
  apply List.mem_flatMap.mpr
  refine ⟨ruleId, reported, ?_⟩
  rw [number]
  exact entered

theorem mem_readableFrom {d : Text} (ps : List Placed) : ∀ before : List Placed,
    d ∈ readableFrom platform ipNet before ps → d ∈ ps.map Placed.rest := by
  induction ps with
  | nil => exact fun _ member => member
  | cons p ps ih =>
    intro before member
    rw [readableFrom, List.mem_append] at member
    rcases member with here | later
    · split at here
      · cases here
      · exact List.mem_singleton.mp here ▸ List.mem_cons_self
    · exact List.mem_cons_of_mem _ (ih _ later)

theorem mem_chain {src d : Text} (member : d ∈ ruleTexts src) : ∃ chain ∈ chainTexts platform src, d ∈ chain := by
  have whole : (chainTexts platform src).flatten = ruleTexts src := flatten_runs _
  rw [← whole] at member
  exact List.mem_flatten.mp member

variable (platform ipNet) in
/-- The tags of the files are seen exactly if those of each id stand together. -/
theorem tags_seen_iff (sources : List Text) : TagsSeen platform ipNet sources ↔ TagsTogether platform ipNet sources := by
  have entered : ∀ id tag, tag ∈ ((loadTags platform ipNet sources).get id).getD [] ↔
      ∃ d, lastTagged platform ipNet sources id = some d ∧ tag ∈ (actionsOf platform d).tags := by
    intro id tag
    rw [get_loadTags]
    cases lastTagged platform ipNet sources id <;> simp
  constructor
  · intro seen id positive tag wanted
    exact (entered id tag).mp ((seen id positive).1 tag wanted)
  · intro together id positive
    have all : ∀ tag, Wanted platform sources id tag → tag ∈ ((loadTags platform ipNet sources).get id).getD [] :=
      fun tag wanted => (entered id tag).mpr (together id positive tag wanted)
    refine ⟨all, ?_, fun tag wanted runtime ctx reports => crsMatch_of_reports (all tag wanted) reports⟩
    intro tag member
    obtain ⟨d, last, inTags⟩ := (entered id tag).mp member
    have found := List.find?_some last
    have inFiles := List.mem_reverse.mp (List.mem_of_find?_eq_some last)
    obtain ⟨src, inSources, inReadable⟩ := List.mem_flatMap.mp inFiles
    obtain ⟨chain, isChain, inChain⟩ : ∃ chain ∈ chainTexts platform src, d ∈ chain :=
      mem_chain (mem_readableFrom _ [] inReadable)
    rw [Bool.and_eq_true, beq_iff_eq] at found
    exact ⟨src, inSources, chain, isChain, ⟨d, inChain, found.2⟩, d, inChain, inTags⟩

end

def chainHead : String := "ARGS \"@detectSQLi\" \"id:942101,phase:2,block,tag:'attack-sqli',chain\""

def chainMember : String := "REQUEST_COOKIES \"@detectXSS\" \"tag:'attack-xss'\""

def taggedChain : Text := ("SecRule " ++ chainHead ++ "\n    SecRule " ++ chainMember ++ "\n").toList

/-- The tag of the member is not under the id of the head. -/
theorem member_tag_lost : ¬ TagsSeen .plain (fun _ => none) [taggedChain] := by
  intro seen
  have wanted : Wanted .plain [taggedChain] 942101 "attack-xss" := by
    refine ⟨taggedChain, List.mem_singleton_self _, [chainHead.toList, chainMember.toList], ?_, [], chainHead.toList,
      [chainMember.toList], rfl, ?_, chainMember.toList, List.mem_cons_of_mem _ (List.mem_singleton_self _), ?_⟩
    · decide +kernel
    · decide +kernel
    · decide +kernel
  have lost : "attack-xss" ∉ ((loadTags .plain (fun _ => none) [taggedChain]).get 942101).getD [] := by
    decide +kernel
  exact lost ((seen 942101 (by decide)).1 _ wanted)

end MiniWaf.Crs
