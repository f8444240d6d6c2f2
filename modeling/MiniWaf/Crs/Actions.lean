import MiniWaf.Crs.Setvar

/-! Action lists as the rule files write them: tokens between commas, with values in
single quotes. What a list says is read back, whatever the case of the keys, the white
space around the tokens and the tokens between that mean nothing to the parser.
-/

set_option autoImplicit false

namespace MiniWaf.Crs

open Platform (Casing not_mem_of_casing toLower_of_not_capital)

-- Splitting

/-- A text that the commas do not split, for those in it are between quotes. -/
inductive Unsplit : Text → Prop where
  | nil : Unsplit []
  | char {c : Char} {rest : Text} : c ≠ '\'' → c ≠ ',' → Unsplit rest → Unsplit (c :: rest)
  | quote {inner rest : Text} : '\'' ∉ inner → Unsplit rest → Unsplit ('\'' :: (inner ++ '\'' :: rest))

theorem Unsplit.append {s t : Text} (first : Unsplit s) (second : Unsplit t) : Unsplit (s ++ t) := by
  induction first with
  | nil => exact second
  | char notQuote notComma _ ih => exact .char notQuote notComma ih
  | quote absent _ ih =>
    rw [List.cons_append, List.append_assoc, List.cons_append]
    exact .quote absent ih

theorem unsplit_of_not_mem {s : Text} (noQuote : '\'' ∉ s) (noComma : ',' ∉ s) : Unsplit s := by
  induction s with
  | nil => exact .nil
  | cons c s ih =>
    rw [List.mem_cons, not_or] at noQuote noComma
    exact .char (Ne.symm noQuote.1) (Ne.symm noComma.1) (ih noQuote.2 noComma.2)

theorem splitActionsFrom_inner {inner : Text} (absent : '\'' ∉ inner) (cur rest : Text) :
    splitActionsFrom true cur (inner ++ '\'' :: rest) = splitActionsFrom false (cur ++ inner ++ ['\'']) rest := by
  induction inner generalizing cur with
  | nil =>
    rw [List.nil_append, splitActionsFrom, if_pos rfl, List.append_nil]
    rfl
  | cons c inner ih =>
    rw [List.mem_cons, not_or] at absent
    rw [List.cons_append, splitActionsFrom, if_neg (Ne.symm absent.1), if_neg fun comma => Bool.noConfusion comma.2,
      ih absent.2, List.append_assoc cur, List.singleton_append]

theorem splitActionsFrom_unsplit {s : Text} (unsplit : Unsplit s) (cur rest : Text) :
    splitActionsFrom false cur (s ++ rest) = splitActionsFrom false (cur ++ s) rest := by
  induction unsplit generalizing cur with
  | nil => rw [List.nil_append, List.append_nil]
  | char notQuote notComma _ ih =>
    rw [List.cons_append, splitActionsFrom, if_neg notQuote, if_neg fun comma => notComma comma.1, ih,
      List.append_assoc, List.singleton_append]
  | quote absent _ ih =>
    rw [List.cons_append, List.append_assoc, List.cons_append, splitActionsFrom, if_pos rfl, Bool.not_false,
      splitActionsFrom_inner absent, ih]
    simp

/-- The tokens are the pieces between the commas, up to a last one that is empty. -/
theorem foldl_splitActions {S : Type} {act : S → Text → S} (blank : ∀ s, act s [] = s) {pieces : List Text}
    (unsplit : ∀ p ∈ pieces, Unsplit p) (s : S) :
    (splitActions (Text.join [','] pieces)).foldl act s = pieces.foldl act s := by
  induction pieces generalizing s with
  | nil => rfl
  | cons p rest ih =>
    obtain ⟨here, later⟩ := List.forall_mem_cons.mp unsplit
    have split := splitActionsFrom_unsplit here []
    cases rest with
    | nil =>
      have last := split []
      rw [List.append_nil, List.nil_append, splitActionsFrom] at last
      rw [Text.join_singleton, splitActions, last]
      by_cases empty : p = []
      · rw [if_pos empty, empty]
        exact (blank s).symm
      · rw [if_neg empty]
    | cons q rest =>
      have first := split (',' :: Text.join [','] (q :: rest))
      rw [List.nil_append, splitActionsFrom, if_neg (by decide), if_pos ⟨rfl, rfl⟩] at first
      rw [Text.join_cons_cons, List.append_assoc, List.singleton_append, splitActions, first, List.foldl_cons,
        List.foldl_cons]
      exact ih later (act s p)

-- Tokens

structure Word (s : Text) : Prop where
  noColon : ':' ∉ s
  noComma : ',' ∉ s
  noQuote : '\'' ∉ s
  tight : Text.Tight s

def plainWord (word : String) : Bool :=
  word.toList.all fun c => c != ':' && c != ',' && c != '\'' && !Text.isWhitespace c

theorem not_capital_of_white {c : Char} (white : Text.isWhitespace c = true) : c.toLower = c := by
  apply toLower_of_not_capital
  simp [Text.isWhitespace] at white
  omega

theorem word_of_casing {word : String} {t : Text} (casing : Casing word t) (plain : plainWord word = true) :
    Word t := by
  have letters : ∀ c ∈ word.toList, c ≠ ':' ∧ c ≠ ',' ∧ c ≠ '\'' ∧ Text.isWhitespace c = false := by
    intro c member
    have here := List.all_eq_true.mp plain c member
    simpa [and_assoc] using here
  have notWhite : ∀ c ∈ t, Text.isWhitespace c = false := by
    intro c member
    by_contra white
    rw [Bool.not_eq_false] at white
    have absent : c ∉ word.toList := fun inWord => by
      rw [(letters c inWord).2.2.2] at white
      cases white
    exact not_mem_of_casing casing (not_capital_of_white white) absent member
  refine ⟨?_, ?_, ?_, fun c ends => notWhite c ?_⟩
  · exact not_mem_of_casing casing rfl fun member => (letters _ member).1 rfl
  · exact not_mem_of_casing casing rfl fun member => (letters _ member).2.1 rfl
  · exact not_mem_of_casing casing rfl fun member => (letters _ member).2.2.1 rfl
  · exact ends.elim List.mem_of_mem_head? List.mem_of_mem_getLast?

theorem Word.unsplit {s : Text} (word : Word s) : Unsplit s := unsplit_of_not_mem word.noQuote word.noComma

def quote (value : Text) : Text := '\'' :: (value ++ ['\''])

def keyed (key value : Text) : Text := key ++ ':' :: quote value

theorem getLast?_keyed (front value : Text) : (front ++ quote value).getLast? = some '\'' := by
  have shape : front ++ quote value = (front ++ '\'' :: value) ++ ['\''] := by simp [quote]
  rw [shape, List.getLast?_concat]

theorem tight_quote (value : Text) : Text.Tight (quote value) := by
  have tight : Text.Tight (['\''] ++ (value ++ ['\''])) :=
    Text.tight_append ⟨'\'', rfl, rfl⟩ ⟨'\'', List.getLast?_concat, rfl⟩
  exact tight

theorem tight_keyed {key : Text} (word : Word key) (value : Text) : Text.Tight (keyed key value) := by
  cases key with
  | nil =>
    have tight : Text.Tight ([':'] ++ quote value) := Text.tight_append ⟨':', rfl, rfl⟩ ⟨'\'', getLast?_keyed [] value, rfl⟩
    exact tight
  | cons c key =>
    have begins : Text.isWhitespace c = false := word.tight c (.inl rfl)
    have tight : Text.Tight ((c :: key) ++ (':' :: quote value)) :=
      Text.tight_append ⟨c, rfl, begins⟩ ⟨'\'', getLast?_keyed [':'] value, rfl⟩
    exact tight

theorem unsplit_keyed {key value : Text} (word : Word key) (absent : '\'' ∉ value) : Unsplit (keyed key value) :=
  word.unsplit.append (.char (by decide) (by decide) (.quote absent .nil))

theorem unquote_quote (value : Text) : unquote (quote value) = value := by
  have last : (quote value).getLast? = some '\'' := getLast?_keyed [] value
  have long : 2 ≤ (quote value).length := by simp [quote]
  have inner : (quote value).tail.dropLast = value := List.dropLast_concat
  rw [unquote, Text.trim_of_tight (tight_quote value), last, inner]
  exact if_pos ⟨long, rfl⟩

theorem trimMatches_quote {value : Text} (absent : '\'' ∉ value) :
    Text.trimMatches '\'' (Text.trim (quote value)) = value := by
  rw [Text.trim_of_tight (tight_quote value)]
  exact Text.trimMatches_quoted absent

-- Actions

inductive Action where
  | id (n : UInt32)
  | phase (n : UInt8)
  | tag (s : String)
  | severity (s : String)
  | skipAfter (s : String)
  | setvar (op : SetVarOp)
  | transform (t : CrsTransform)
  /-- The transform `none`, which clears those before it. -/
  | noTransforms
  /-- `block` and `deny`, or `pass`. -/
  | blocking (b : Bool)
  | chain
  | nolog
  | capture
  | multiMatch
  /-- A token that means nothing to the parser. -/
  | ignored

def CrsTransform.names : CrsTransform → List String
  | .lowercase => ["lowercase"]
  | .urlDecodeUni => ["urldecodeuni"]
  | .removeNulls => ["removenulls"]
  | .utf8ToUnicode => ["utf8tounicode"]
  | .compressWhitespace => ["compresswhitespace"]
  | .normalizePath => ["normalizepath", "normalizepathwin"]
  | .htmlEntityDecode => ["htmlentitydecode"]
  | .jsDecode => ["jsdecode"]
  | .cssDecode => ["cssdecode"]
  | .base64Decode => ["base64decode"]
  | .trim => ["trim"]
  | .removeWhitespace => ["removewhitespace"]
  | .replaceComments => ["replacecomments"]
  | .length => ["length"]
  | .escapeSeqDecode => ["escapeseqdecode"]

theorem parseTransform_names (t : CrsTransform) :
    ∀ name ∈ t.names, parseTransform name = some t ∧ name ≠ "none" ∧ Platform.isAscii name.toList = true := by
  cases t <;> decide +kernel

def SetVarRhs.written : SetVarRhs → RhsText
  | .int n => .number (Text.ofNat n.toInt.toNat)
  | .txRef name => .reference "tx".toList name.toList

def SetVarOp.text (op : SetVarOp) : Text := setvarText "tx".toList op.var.toList op.op op.rhs.written

def knownKeys : List String := ["id", "phase", "tag", "severity", "skipafter", "setvar", "t"]

def knownFlags : List String := ["block", "deny", "pass", "chain", "nolog", "capture", "multimatch"]

section
variable (platform : Platform)

/-- `body` is `word` in some letter case, with a quoted value. -/
def Keyed (word : String) (value body : Text) : Prop := ∃ key, Casing word key ∧ '\'' ∉ value ∧ body = keyed key value

def Ignored (body : Text) : Prop :=
  (∃ key value, Word key ∧ lowercase platform key ∉ knownKeys ∧ '\'' ∉ value ∧ body = keyed key value) ∨
    (Word body ∧ lowercase platform body ∉ knownFlags)

def Action.Written : Action → Text → Prop
  | .id n, body => Keyed "id" (Text.ofNat n.toNat) body
  | .phase n, body => Keyed "phase" (Text.ofNat n.toNat) body
  | .tag s, body => Keyed "tag" s.toList body
  | .severity s, body => Keyed "severity" s.toList body
  | .skipAfter s, body => Keyed "skipafter" s.toList body
  | .setvar op, body => Keyed "setvar" op.text body
  | .transform t, body => ∃ name ∈ t.names, ∃ value, Casing name value ∧ Keyed "t" value body
  | .noTransforms, body => ∃ value, Casing "none" value ∧ Keyed "t" value body
  | .blocking b, body => if b then Casing "block" body ∨ Casing "deny" body else Casing "pass" body
  | .chain, body => Casing "chain" body
  | .nolog, body => Casing "nolog" body
  | .capture, body => Casing "capture" body
  | .multiMatch, body => Casing "multimatch" body
  | .ignored, body => Ignored platform body

def RawActions.act (ra : RawActions) : Action → RawActions
  | .id n => { ra with id := n }
  | .phase n => { ra with phase := n }
  | .tag s => { ra with tags := ra.tags ++ [s] }
  | .severity s => { ra with severity := some s }
  | .skipAfter s => { ra with skipAfter := some s }
  | .setvar op => { ra with setvars := ra.setvars ++ [op] }
  | .transform t => { ra with transforms := ra.transforms ++ [t] }
  | .noTransforms => { ra with transforms := [] }
  | .blocking b => { ra with isBlock := b }
  | .chain => { ra with isChain := true }
  | .nolog => { ra with isNolog := true }
  | .capture => { ra with isCapture := true }
  | .multiMatch => { ra with isMultiMatch := true }
  | .ignored => ra

-- Settings of variables

/-- What a `setvar` must be for its text to be read back: the names are in lower case, and the number has no sign. -/
structure SetVarOp.Plain (op : SetVarOp) : Prop where
  some : op.var ≠ ""
  lower : platform.toLowercase op.var = op.var
  noEquals : '=' ∉ op.var.toList
  noScope : ¬ "tx.".toList <+: op.var.toList
  rhs : ∀ name, op.rhs = .txRef name → platform.toLowercase name = name
  natural : ∀ n, op.rhs = .int n → 0 ≤ n.toInt

theorem read_written {op : SetVarOp} (plain : op.Plain platform) : op.rhs.written.read platform = some op.rhs := by
  cases rhs : op.rhs with
  | int n =>
    have natural := plain.natural n rhs
    have same : ((n.toInt.toNat : Nat) : Int) = n.toInt := Int.toNat_of_nonneg natural
    have small : n.toInt.toNat < 2 ^ 63 := by
      have := n.toInt_lt
      omega
    rw [SetVarRhs.written, RhsText.read, Text.digitsValue_ofNat, if_pos small, same, Int64.ofInt_toInt]
  | txRef name =>
    rw [SetVarRhs.written, RhsText.read, if_pos rfl, lowercase, String.ofList_toList, plain.rhs name rhs]

theorem parseSetvar_written {op : SetVarOp} (plain : op.Plain platform) : parseSetvar platform op.text = some op := by
  have well : op.rhs.written.WellFormed := by
    cases op.rhs with
    | int n => exact ⟨Text.ofNat_ne_nil _, List.all_eq_true.mpr fun c member => Text.isDigit_of_mem_ofNat member⟩
    | txRef name => exact lower_tx
  have name : lowercase platform op.var.toList = op.var := by rw [lowercase, String.ofList_toList, plain.lower]
  have named : ¬ op.var.isEmpty = true := by
    rw [String.isEmpty_iff]
    exact plain.some
  rw [SetVarOp.text, parseSetvar_text platform lower_tx plain.noEquals well, trim_straight plain.noScope, name,
    if_neg named, read_written platform plain]
  rfl

-- One token

theorem splitOnce_word {s : Text} (word : Word s) : Text.splitOnce ':' s = none := by
  cases found : Text.splitOnce ':' s with
  | none => rfl
  | some parts =>
    have shape := (Text.splitOnce_some found).2
    have inside : ':' ∈ s := shape ▸ List.mem_append_right _ List.mem_cons_self
    exact absurd inside word.noColon

variable {before after : Text} (front : before.all Text.isWhitespace = true) (back : after.all Text.isWhitespace = true)
include front back

theorem parseAction_keyed {key : Text} (word : Word key) (value : Text) (ra : RawActions) :
    parseAction platform ra (before ++ (keyed key value ++ after)) = keyedAction platform ra key (quote value) := by
  have some : keyed key value ≠ [] := by simp [keyed]
  rw [parseAction, Text.trim_padded front back (tight_keyed word value), if_neg some, keyed,
    Text.splitOnce_append word.noColon]

theorem parseAction_key {word : String} {value body : Text} {ra result : RawActions} (written : Keyed word value body)
    (plain : plainWord word = true) (ascii : Platform.isAscii word.toList = true)
    (act : ∀ key, lowercase platform key = word → '\'' ∉ value → keyedAction platform ra key (quote value) = result) :
    parseAction platform ra (before ++ (body ++ after)) = result := by
  obtain ⟨key, casing, absent, rfl⟩ := written
  rw [parseAction_keyed platform front back (word_of_casing casing plain)]
  exact act key (platform.toLowercase_of_casing casing ascii) absent

/-- Flags are compared in lower case. -/
theorem parseAction_flag {word body : Text} (wordBody : Word body) (wordWord : Word word) (some : body ≠ [])
    (other : word ≠ []) (same : lowercase platform body = lowercase platform word) (ra : RawActions) :
    parseAction platform ra (before ++ (body ++ after)) = parseAction platform ra word := by
  rw [parseAction, parseAction, Text.trim_padded front back wordBody.tight, Text.trim_of_tight wordWord.tight,
    if_neg some, if_neg other, splitOnce_word wordBody, splitOnce_word wordWord, same]

theorem parseAction_casing {word : String} {body : Text} (casing : Casing word body) (self : Casing word word.toList)
    (plain : plainWord word = true) (ascii : Platform.isAscii word.toList = true) (some : word.toList ≠ [])
    (ra : RawActions) :
    parseAction platform ra (before ++ (body ++ after)) = parseAction platform ra word.toList := by
  apply parseAction_flag platform front back (word_of_casing casing plain) (word_of_casing self plain) _ some
  · exact (platform.toLowercase_of_casing casing ascii).trans (platform.toLowercase_of_casing self ascii).symm
  · rintro rfl
    exact some casing.symm

theorem parseAction_ignored {body : Text} (written : Ignored platform body) (ra : RawActions) :
    parseAction platform ra (before ++ (body ++ after)) = ra := by
  rcases written with ⟨key, value, word, unknown, absent, rfl⟩ | ⟨word, unknown⟩
  · rw [parseAction_keyed platform front back word]
    simp only [knownKeys, List.mem_cons, List.not_mem_nil, or_false, not_or] at unknown
    simp [keyedAction, unknown]
  · rw [parseAction, Text.trim_padded front back word.tight, splitOnce_word word]
    simp only [knownFlags, List.mem_cons, List.not_mem_nil, or_false, not_or] at unknown
    simp [unknown]

theorem parseAction_written {a : Action} {body : Text} (written : a.Written platform body)
    (plain : ∀ op, a = .setvar op → op.Plain platform) (ra : RawActions) :
    parseAction platform ra (before ++ (body ++ after)) = ra.act a := by
  cases a with
  | id n =>
    apply parseAction_key platform front back written rfl rfl
    intro key lowered _
    rw [keyedAction, lowered, unquote_quote]
    simp only [Text.parseU32_ofNat]
    rfl
  | phase n =>
    apply parseAction_key platform front back written rfl rfl
    intro key lowered _
    rw [keyedAction, lowered, unquote_quote]
    simp only [Text.parseU8_ofNat n.toNat_lt, UInt8.ofNat_toNat]
    rfl
  | tag s =>
    apply parseAction_key platform front back written rfl rfl
    intro key lowered _
    rw [keyedAction, lowered, unquote_quote]
    simp only [String.ofList_toList]
    rfl
  | severity s =>
    apply parseAction_key platform front back written rfl rfl
    intro key lowered _
    rw [keyedAction, lowered, unquote_quote]
    simp only [String.ofList_toList]
    rfl
  | skipAfter s =>
    apply parseAction_key platform front back written rfl rfl
    intro key lowered _
    rw [keyedAction, lowered, unquote_quote]
    simp only [String.ofList_toList]
    rfl
  | setvar op =>
    apply parseAction_key platform front back written rfl rfl
    intro key lowered absent
    rw [keyedAction, lowered, trimMatches_quote absent]
    simp only [parseSetvar_written platform (plain op rfl)]
    rfl
  | transform t =>
    obtain ⟨name, named, value, casing, written⟩ := written
    obtain ⟨known, notNone, ascii⟩ := parseTransform_names t name named
    apply parseAction_key platform front back written rfl rfl
    intro key lowered _
    have lower : lowercase platform value = name := platform.toLowercase_of_casing casing ascii
    rw [keyedAction, lowered, unquote_quote]
    simp only [lower, known]
    rfl
  | noTransforms =>
    obtain ⟨value, casing, written⟩ := written
    apply parseAction_key platform front back written rfl rfl
    intro key lowered _
    have none : lowercase platform value = "none" := platform.toLowercase_of_casing casing rfl
    rw [keyedAction, lowered, unquote_quote]
    simp only [none]
    rfl
  | blocking b =>
    cases b with
    | true =>
      rcases written with casing | casing
      · exact parseAction_casing platform front back casing rfl rfl rfl (by decide) ra
      · exact parseAction_casing platform front back casing rfl rfl rfl (by decide) ra
    | false => exact parseAction_casing platform front back written rfl rfl rfl (by decide) ra
  | chain => exact parseAction_casing platform front back written rfl rfl rfl (by decide) ra
  | nolog => exact parseAction_casing platform front back written rfl rfl rfl (by decide) ra
  | capture => exact parseAction_casing platform front back written rfl rfl rfl (by decide) ra
  | multiMatch => exact parseAction_casing platform front back written rfl rfl rfl (by decide) ra
  | ignored => exact parseAction_ignored platform front back written ra

end

-- Lists

def Padded (platform : Platform) (a : Action) (piece : Text) : Prop :=
  ∃ before body after, before.all Text.isWhitespace = true ∧ after.all Text.isWhitespace = true ∧
    a.Written platform body ∧ piece = before ++ (body ++ after)

def Rendered (platform : Platform) (actions : List Action) (text : Text) : Prop :=
  ∃ pieces, List.Forall₂ (Padded platform) actions pieces ∧ text = Text.join [','] pieces

theorem unsplit_of_white {s : Text} (white : s.all Text.isWhitespace = true) : Unsplit s :=
  unsplit_of_not_mem (Text.not_mem_of_white white rfl) (Text.not_mem_of_white white rfl)

theorem Keyed.unsplit {word : String} {value body : Text} (written : Keyed word value body)
    (plain : plainWord word = true) : Unsplit body := by
  obtain ⟨key, casing, absent, rfl⟩ := written
  exact unsplit_keyed (word_of_casing casing plain) absent

theorem unsplit_of_casing {word : String} {body : Text} (casing : Casing word body) (plain : plainWord word = true) :
    Unsplit body :=
  (word_of_casing casing plain).unsplit

theorem unsplit_written {platform : Platform} {a : Action} {body : Text} (written : a.Written platform body) :
    Unsplit body := by
  cases a with
  | id n => exact Keyed.unsplit written rfl
  | phase n => exact Keyed.unsplit written rfl
  | tag s => exact Keyed.unsplit written rfl
  | severity s => exact Keyed.unsplit written rfl
  | skipAfter s => exact Keyed.unsplit written rfl
  | setvar op => exact Keyed.unsplit written rfl
  | transform t =>
    obtain ⟨_, _, _, _, written⟩ := written
    exact written.unsplit rfl
  | noTransforms =>
    obtain ⟨_, _, written⟩ := written
    exact written.unsplit rfl
  | blocking b =>
    cases b with
    | true => exact written.elim (unsplit_of_casing · rfl) (unsplit_of_casing · rfl)
    | false => exact unsplit_of_casing written rfl
  | chain => exact unsplit_of_casing written rfl
  | nolog => exact unsplit_of_casing written rfl
  | capture => exact unsplit_of_casing written rfl
  | multiMatch => exact unsplit_of_casing written rfl
  | ignored =>
    rcases written with ⟨key, value, word, _, absent, rfl⟩ | ⟨word, _⟩
    · exact unsplit_keyed word absent
    · exact word.unsplit

theorem unsplit_padded {platform : Platform} {a : Action} {piece : Text} (padded : Padded platform a piece) :
    Unsplit piece := by
  obtain ⟨before, body, after, front, back, written, rfl⟩ := padded
  exact (unsplit_of_white front).append ((unsplit_written written).append (unsplit_of_white back))

/-- An action list is read token by token. -/
theorem parseActions_rendered_eq {platform : Platform} {actions : List Action} {text : Text}
    (rendered : Rendered platform actions text) (plain : ∀ op, Action.setvar op ∈ actions → op.Plain platform) :
    parseActions platform text = actions.foldl RawActions.act .default := by
  obtain ⟨pieces, written, rfl⟩ := rendered
  have unsplit : ∀ p ∈ pieces, Unsplit p := by
    clear plain
    induction written with
    | nil => exact List.forall_mem_nil _
    | cons padded _ ih => exact List.forall_mem_cons.mpr ⟨unsplit_padded padded, ih⟩
  have blank (ra : RawActions) : parseAction platform ra [] = ra := rfl
  rw [parseActions, foldl_splitActions blank unsplit]
  generalize RawActions.default = ra
  clear unsplit
  induction written generalizing ra with
  | nil => rfl
  | cons padded _ ih =>
    obtain ⟨before, body, after, front, back, written, rfl⟩ := padded
    rw [List.foldl_cons, List.foldl_cons, parseAction_written platform front back written
      (fun op same => plain op (same ▸ List.mem_cons_self))]
    exact ih (fun op member => plain op (List.mem_cons_of_mem _ member)) _

-- Records

section
variable {S A B : Type} {act : S → B → S}

theorem foldl_collect {f : S → List A} {p : B → Option A} {items : List B}
    (step : ∀ b ∈ items, ∀ s, f (act s b) = f s ++ (p b).toList) (s : S) :
    f (items.foldl act s) = f s ++ items.filterMap p := by
  induction items generalizing s with
  | nil => exact (List.append_nil _).symm
  | cons b items ih =>
    obtain ⟨here, later⟩ := List.forall_mem_cons.mp step
    rw [List.foldl_cons, ih later, here, List.append_assoc]
    cases found : p b with
    | none => rw [List.filterMap_cons_none found, Option.toList_none, List.nil_append]
    | some a => rw [List.filterMap_cons_some found, Option.toList_some, List.singleton_append]

theorem foldl_last {f : S → Option A} {p : B → Option A} (step : ∀ s b, f (act s b) = (p b).or (f s))
    (items : List B) (s : S) : f (items.foldl act s) = (items.filterMap p).getLast?.or (f s) := by
  induction items generalizing s with
  | nil => rfl
  | cons b items ih =>
    rw [List.foldl_cons, ih, step]
    cases found : p b with
    | none => rw [List.filterMap_cons_none found, Option.none_or]
    | some a => rw [List.filterMap_cons_some found, List.getLast?_cons, Option.some_or, Option.some_or, Option.or_some]

theorem foldl_any {f : S → Bool} {p : B → Prop} (step : ∀ s b, f (act s b) = true ↔ p b ∨ f s = true)
    (items : List B) (s : S) : f (items.foldl act s) = true ↔ (∃ b ∈ items, p b) ∨ f s = true := by
  induction items generalizing s with
  | nil => simp
  | cons b items ih => rw [List.foldl_cons, ih, step, List.exists_mem_cons_iff, or_left_comm, or_assoc]

theorem foldl_flag_eq {f : S → Bool} {flag : B} (step : ∀ s b, f (act s b) = true ↔ b = flag ∨ f s = true)
    {items : List B} {s : S} (clear : f s = false) {b : Bool} (listed : b = true ↔ flag ∈ items) :
    f (items.foldl act s) = b := by
  rw [Bool.eq_iff_iff, foldl_any step, listed, clear, exists_eq_right]
  exact or_iff_left Bool.false_ne_true

end

namespace Action

def id? : Action → Option UInt32
  | id n => some n
  | _ => none

def phase? : Action → Option UInt8
  | phase n => some n
  | _ => none

def tag? : Action → Option String
  | tag s => some s
  | _ => none

def severity? : Action → Option String
  | severity s => some s
  | _ => none

def skipAfter? : Action → Option String
  | skipAfter s => some s
  | _ => none

def setvar? : Action → Option SetVarOp
  | setvar op => some op
  | _ => none

def transform? : Action → Option CrsTransform
  | transform t => some t
  | _ => none

def blocking? : Action → Option Bool
  | blocking b => some b
  | _ => none

end Action

/-- The actions of a list make up a record: of what can be said once the last counts, with the values of a rule that
says nothing if there is none, and the transforms are those after the last `t:none`. -/
structure Lists (ra : RawActions) (actions : List Action) : Prop where
  id : ra.id = (actions.filterMap Action.id?).getLast?.getD 0
  phase : ra.phase = (actions.filterMap Action.phase?).getLast?.getD 2
  skipAfter : ra.skipAfter = (actions.filterMap Action.skipAfter?).getLast?
  setvars : ra.setvars = actions.filterMap Action.setvar?
  tags : ra.tags = actions.filterMap Action.tag?
  severity : ra.severity = (actions.filterMap Action.severity?).getLast?
  isNolog : ra.isNolog = true ↔ .nolog ∈ actions
  isBlock : ra.isBlock = (actions.filterMap Action.blocking?).getLast?.getD false
  isChain : ra.isChain = true ↔ .chain ∈ actions
  isCapture : ra.isCapture = true ↔ .capture ∈ actions
  isMultiMatch : ra.isMultiMatch = true ↔ .multiMatch ∈ actions
  transforms : ∃ before after, actions = before ++ after ∧ (before = [] ∨ before.getLast? = some .noTransforms) ∧
    .noTransforms ∉ after ∧ ra.transforms = after.filterMap Action.transform?

section
variable (ra : RawActions) (a : Action)

theorem act_id : some (ra.act a).id = a.id?.or (some ra.id) := by cases a <;> rfl

theorem act_phase : some (ra.act a).phase = a.phase?.or (some ra.phase) := by cases a <;> rfl

theorem act_skipAfter : (ra.act a).skipAfter = a.skipAfter?.or ra.skipAfter := by cases a <;> rfl

theorem act_severity : (ra.act a).severity = a.severity?.or ra.severity := by cases a <;> rfl

theorem act_isBlock : some (ra.act a).isBlock = a.blocking?.or (some ra.isBlock) := by cases a <;> rfl

theorem act_setvars : (ra.act a).setvars = ra.setvars ++ (a.setvar?).toList := by
  cases a <;> simp [RawActions.act, Action.setvar?]

theorem act_tags : (ra.act a).tags = ra.tags ++ (a.tag?).toList := by
  cases a <;> simp [RawActions.act, Action.tag?]

theorem act_transforms (keeps : a ≠ .noTransforms) :
    (ra.act a).transforms = ra.transforms ++ (a.transform?).toList := by
  cases a <;> simp [RawActions.act, Action.transform?] at keeps ⊢

theorem act_isNolog : (ra.act a).isNolog = true ↔ a = .nolog ∨ ra.isNolog = true := by
  cases a <;> simp [RawActions.act]

theorem act_isChain : (ra.act a).isChain = true ↔ a = .chain ∨ ra.isChain = true := by
  cases a <;> simp [RawActions.act]

theorem act_isCapture : (ra.act a).isCapture = true ↔ a = .capture ∨ ra.isCapture = true := by
  cases a <;> simp [RawActions.act]

theorem act_isMultiMatch : (ra.act a).isMultiMatch = true ↔ a = .multiMatch ∨ ra.isMultiMatch = true := by
  cases a <;> simp [RawActions.act]

end

theorem foldl_transforms {before after : List Action} (clears : before = [] ∨ before.getLast? = some .noTransforms)
    (keeps : Action.noTransforms ∉ after) :
    ((before ++ after).foldl RawActions.act .default).transforms = after.filterMap Action.transform? := by
  have cleared : (before.foldl RawActions.act .default).transforms = [] := by
    rcases clears with rfl | last
    · rfl
    · obtain ⟨front, rfl⟩ := List.getLast?_eq_some_iff.mp last
      rw [List.foldl_append]
      rfl
  have step : ∀ a ∈ after, ∀ ra : RawActions, (ra.act a).transforms = ra.transforms ++ (a.transform?).toList :=
    fun a member ra => act_transforms ra a fun same => keeps (same ▸ member)
  have collected := foldl_collect step (before.foldl RawActions.act .default)
  rwa [cleared, List.nil_append, ← List.foldl_append] at collected

theorem getD_of_or {A : Type} {a b : A} {o : Option A} (same : some a = o.or (some b)) : a = o.getD b := by
  cases o with
  | none => exact Option.some.inj same
  | some c => exact Option.some.inj same

theorem eq_of_fields {r s : RawActions} (id : r.id = s.id) (phase : r.phase = s.phase)
    (skipAfter : r.skipAfter = s.skipAfter) (setvars : r.setvars = s.setvars) (tags : r.tags = s.tags) (severity : r.severity = s.severity)
    (isNolog : r.isNolog = s.isNolog) (isBlock : r.isBlock = s.isBlock) (isChain : r.isChain = s.isChain)
    (isCapture : r.isCapture = s.isCapture) (isMultiMatch : r.isMultiMatch = s.isMultiMatch)
    (transforms : r.transforms = s.transforms) : r = s := by
  cases r
  cases s
  simp only [RawActions.mk.injEq]
  exact ⟨id, phase, skipAfter, setvars, tags, severity, isNolog, isBlock, isChain, isCapture, isMultiMatch, transforms⟩

theorem Lists.foldl_act {r : RawActions} {actions : List Action} (lists : Lists r actions) :
    actions.foldl RawActions.act .default = r := by
  apply eq_of_fields
  · have final := foldl_last (f := fun r : RawActions => some r.id) act_id actions .default
    exact (getD_of_or final).trans lists.id.symm
  · have final := foldl_last (f := fun r : RawActions => some r.phase) act_phase actions .default
    exact (getD_of_or final).trans lists.phase.symm
  · have final := foldl_last act_skipAfter actions .default
    exact (final.trans (Option.or_none)).trans lists.skipAfter.symm
  · have final := foldl_collect (fun a (_ : a ∈ actions) r => act_setvars r a) .default
    exact final.trans lists.setvars.symm
  · have final := foldl_collect (fun a (_ : a ∈ actions) r => act_tags r a) .default
    exact final.trans lists.tags.symm
  · have final := foldl_last act_severity actions .default
    exact (final.trans (Option.or_none)).trans lists.severity.symm
  · exact foldl_flag_eq act_isNolog rfl lists.isNolog
  · have final := foldl_last (f := fun r : RawActions => some r.isBlock) act_isBlock actions .default
    exact (getD_of_or final).trans lists.isBlock.symm
  · exact foldl_flag_eq act_isChain rfl lists.isChain
  · exact foldl_flag_eq act_isCapture rfl lists.isCapture
  · exact foldl_flag_eq act_isMultiMatch rfl lists.isMultiMatch
  · obtain ⟨before, after, rfl, clears, keeps, transforms⟩ := lists.transforms
    rw [foldl_transforms clears keeps, transforms]

/-- What is written as an action list is read as the record that it stands for. -/
theorem parseActions_of_rendered (platform : Platform) {r : RawActions} {actions : List Action} {text : Text}
    (plain : ∀ op ∈ r.setvars, op.Plain platform) (lists : Lists r actions)
    (rendered : Rendered platform actions text) : parseActions platform text = r := by
  have written : ∀ op, Action.setvar op ∈ actions → op.Plain platform := by
    intro op member
    apply plain
    rw [lists.setvars]
    exact List.mem_filterMap.mpr ⟨_, member, rfl⟩
  rw [parseActions_rendered_eq rendered written, lists.foldl_act]

theorem parseActions_of_rendered_cleared :
    parseActions .plain
        (Text.join [','] ["ID:'7'".toList, " t:'trim'".toList, "T:'NONE' ".toList, "msg:'a, b:chain'".toList,
          "t:'urlDecodeUni'".toList, "tag:'x,y'".toList, "setvar:'tx.s=+%\x7btx.c\x7d'".toList, "block".toList]) =
      ⟨7, 2, none, [⟨"s", .incrBy, .txRef "c"⟩], ["x,y"], none, false, true, false, false, false, [.urlDecodeUni]⟩ := by
  have rendered : Rendered .plain
      [.id 7, .transform .trim, .noTransforms, .ignored, .transform .urlDecodeUni, .tag "x,y",
        .setvar ⟨"s", .incrBy, .txRef "c"⟩, .blocking true]
      (Text.join [','] ["ID:'7'".toList, " t:'trim'".toList, "T:'NONE' ".toList, "msg:'a, b:chain'".toList,
        "t:'urlDecodeUni'".toList, "tag:'x,y'".toList, "setvar:'tx.s=+%\x7btx.c\x7d'".toList, "block".toList]) := by
    refine ⟨_, ?_, rfl⟩
    refine .cons ?_ (.cons ?_ (.cons ?_ (.cons ?_ (.cons ?_ (.cons ?_ (.cons ?_ (.cons ?_ .nil)))))))
    · exact ⟨[], _, [], rfl, rfl, ⟨"ID".toList, rfl, by decide, rfl⟩, rfl⟩
    · exact ⟨[' '], _, [], rfl, rfl, ⟨"trim", by decide, "trim".toList, rfl, "t".toList, rfl, by decide, rfl⟩, rfl⟩
    · exact ⟨[], _, [' '], rfl, rfl, ⟨"NONE".toList, rfl, "T".toList, rfl, by decide, rfl⟩, rfl⟩
    · have msg : Casing "msg" "msg".toList := rfl
      have key : Word "msg".toList := word_of_casing msg rfl
      exact ⟨[], _, [], rfl, rfl, .inl ⟨"msg".toList, "a, b:chain".toList, key, by decide, by decide, rfl⟩, rfl⟩
    · exact ⟨[], _, [], rfl, rfl,
        ⟨"urldecodeuni", by decide, "urlDecodeUni".toList, rfl, "t".toList, rfl, by decide, rfl⟩, rfl⟩
    · exact ⟨[], _, [], rfl, rfl, ⟨"tag".toList, rfl, by decide, rfl⟩, rfl⟩
    · exact ⟨[], _, [], rfl, rfl, ⟨"setvar".toList, rfl, by decide, rfl⟩, rfl⟩
    · exact ⟨[], "block".toList, [], rfl, rfl, .inl rfl, rfl⟩
  apply parseActions_of_rendered .plain _ _ rendered
  · intro op member
    rw [List.mem_singleton] at member
    subst member
    refine ⟨by decide, rfl, by decide, by decide, ?_, ?_⟩
    · intro name same
      cases same
      rfl
    · intro n impossible
      cases impossible
  · refine ⟨rfl, rfl, rfl, rfl, rfl, rfl, by simp, rfl, by simp, by simp, by simp, ?_⟩
    exact ⟨[.id 7, .transform .trim, .noTransforms], _, rfl, .inr rfl, by simp, rfl⟩

end MiniWaf.Crs
