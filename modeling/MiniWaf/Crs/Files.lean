import MiniWaf.Crs.Actions
import MiniWaf.Crs.Layout
import MiniWaf.Crs.Quotes

/-! Rule files as they are written, with every way of spacing, of continuing lines and of
writing names that the parser allows, and what is read of them.
-/

set_option autoImplicit false

namespace MiniWaf.Crs

open Platform (Casing not_mem_of_casing)

-- Targets

def plainTargets : List (CrsTarget × String) :=
  [(.args, "ARGS"), (.argsNames, "ARGS_NAMES"), (.requestCookies, "REQUEST_COOKIES"),
    (.requestCookiesNames, "REQUEST_COOKIES_NAMES"), (.requestHeaders none, "REQUEST_HEADERS"),
    (.requestUri, "REQUEST_URI"), (.requestUriRaw, "REQUEST_URI_RAW"), (.requestFilename, "REQUEST_FILENAME"),
    (.requestBasename, "REQUEST_BASENAME"), (.requestMethod, "REQUEST_METHOD"), (.requestBody, "REQUEST_BODY"),
    (.requestLine, "REQUEST_LINE"), (.queryString, "QUERY_STRING"), (.remoteAddr, "REMOTE_ADDR"),
    (.argsCount, "&ARGS")]

def namedTargets : List ((String → CrsTarget) × String) :=
  [(fun name => .requestHeaders (some name), "REQUEST_HEADERS"), (.tx, "TX"), (.txCount, "&TX"),
    (.requestHeadersCount, "&REQUEST_HEADERS")]

inductive TargetText : CrsTarget → Text → Prop where
  | plain {target : CrsTarget} {word : String} : (target, word) ∈ plainTargets → TargetText target word.toList
  | named {target : String → CrsTarget} {word : String} (name : String) : (target, word) ∈ namedTargets →
      TargetText (target name) (word.toList ++ ':' :: name.toList)

/-- What the parser knows no target for. A member of any collection but these is passed over, exclusions as well. -/
inductive Untargeted : Text → Prop where
  | plain {word : Text} : ':' ∉ word → (∀ e ∈ plainTargets, e.2.toList ≠ word) → Untargeted word
  | named {word : Text} (name : Text) : ':' ∉ word → (∀ e ∈ namedTargets, e.2.toList ≠ word) →
      Untargeted (word ++ ':' :: name)

theorem splitOnce_of_absent {c : Char} {s : Text} (absent : c ∉ s) : Text.splitOnce c s = none := by
  cases found : Text.splitOnce c s with
  | none => rfl
  | some parts =>
    have shape := (Text.splitOnce_some found).2
    exact absurd (shape ▸ List.mem_append_right _ List.mem_cons_self) absent

theorem stripStart_named {word collection : Text} (absent : ':' ∉ word) (plain : ':' ∉ collection) (name : Text) :
    Text.stripStart (collection ++ [':']) (word ++ ':' :: name) = if word = collection then some name else none := by
  by_cases same : word = collection
  · subst same
    have whole : word ++ ':' :: name = word ++ [':'] ++ name := by rw [List.append_assoc, List.singleton_append]
    rw [if_pos rfl, whole, Text.stripStart_append]
  · rw [if_neg same]
    cases found : Text.stripStart (collection ++ [':']) (word ++ ':' :: name) with
    | none => rfl
    | some rest =>
      have shape := Text.stripStart_some found
      rw [List.append_assoc, List.singleton_append] at shape
      have first := Text.splitOnce_append absent name
      rw [shape, Text.splitOnce_append plain] at first
      exact absurd (Prod.mk.inj (Option.some.inj first)).1.symm same

theorem parseOneTarget_text {target : CrsTarget} {word : Text} (written : TargetText target word) :
    parseOneTarget word = some target := by
  cases written with
  | plain known =>
    simp only [plainTargets, List.mem_cons, List.not_mem_nil, or_false, Prod.mk.injEq] at known
    rcases known with ⟨rfl, rfl⟩ | ⟨rfl, rfl⟩ | ⟨rfl, rfl⟩ | ⟨rfl, rfl⟩ | ⟨rfl, rfl⟩ | ⟨rfl, rfl⟩ | ⟨rfl, rfl⟩ |
      ⟨rfl, rfl⟩ | ⟨rfl, rfl⟩ | ⟨rfl, rfl⟩ | ⟨rfl, rfl⟩ | ⟨rfl, rfl⟩ | ⟨rfl, rfl⟩ | ⟨rfl, rfl⟩ | ⟨rfl, rfl⟩
    all_goals rfl
  | named name known =>
    simp only [namedTargets, List.mem_cons, List.not_mem_nil, or_false, Prod.mk.injEq] at known
    have same : String.ofList name.toList = name := String.ofList_toList
    rcases known with ⟨rfl, rfl⟩ | ⟨rfl, rfl⟩ | ⟨rfl, rfl⟩ | ⟨rfl, rfl⟩
    · exact congrArg (fun name => some (CrsTarget.requestHeaders (some name))) same
    · exact congrArg (fun name => some (CrsTarget.tx name)) same
    · exact congrArg (fun name => some (CrsTarget.txCount name)) same
    · exact congrArg (fun name => some (CrsTarget.requestHeadersCount name)) same

theorem parseOneTarget_untargeted {word : Text} (unknown : Untargeted word) : parseOneTarget word = none := by
  cases unknown with
  | plain absent unknown =>
    have noCount (start : Text) : Text.stripStart (start ++ [':']) word = none := by
      cases found : Text.stripStart (start ++ [':']) word with
      | none => rfl
      | some rest =>
        have shape := Text.stripStart_some found
        exact absurd (by simp [shape]) absent
    have txCount : Text.stripStart "&TX:".toList word = none := noCount "&TX".toList
    have headersCount : Text.stripStart "&REQUEST_HEADERS:".toList word = none := noCount "&REQUEST_HEADERS".toList
    have other : ∀ e ∈ plainTargets, String.ofList word ≠ e.2 := by
      intro e member same
      exact unknown e member (by rw [← same, String.toList_ofList])
    have notArgs : word ≠ "&ARGS".toList := fun same => unknown (.argsCount, "&ARGS") (by simp [plainTargets]) same.symm
    rw [parseOneTarget, txCount, headersCount]
    dsimp only
    rw [if_neg notArgs, splitOnce_of_absent absent]
    by_cases counted : word.head? = some '&'
    · rw [if_pos counted]
    · rw [if_neg counted]
      simp only [plainTargets, List.forall_mem_cons] at other
      obtain ⟨args, argsNames, cookies, cookieNames, headers, uri, uriRaw, filename, basename, method, body, line,
        query, addr, -⟩ := other
      simp only
  | @named word name absent unknown =>
    have other : ∀ e ∈ namedTargets, word ≠ e.2.toList := fun e member same => unknown e member same.symm
    simp only [namedTargets, List.forall_mem_cons] at other
    obtain ⟨headers, tx, txCount, headersCount, -⟩ := other
    have noTx : Text.stripStart "&TX:".toList (word ++ ':' :: name) = none :=
      (stripStart_named absent (by decide) name).trans (if_neg txCount)
    have noHeaders : Text.stripStart "&REQUEST_HEADERS:".toList (word ++ ':' :: name) = none :=
      (stripStart_named absent (by decide) name).trans (if_neg headersCount)
    have notArgs : word ++ ':' :: name ≠ "&ARGS".toList := by
      intro same
      have inside : ':' ∈ "&ARGS".toList := same ▸ List.mem_append_right _ List.mem_cons_self
      exact absurd inside (by decide)
    have notTx : String.ofList word ≠ "TX" := fun same => tx (by rw [← same, String.toList_ofList])
    have notHeaders : String.ofList word ≠ "REQUEST_HEADERS" := fun same => headers (by rw [← same, String.toList_ofList])
    rw [parseOneTarget, noTx, noHeaders]
    dsimp only
    rw [if_neg notArgs, Text.splitOnce_append absent]
    by_cases counted : (word ++ ':' :: name).head? = some '&'
    · rw [if_pos counted]
    · rw [if_neg counted]
      simp only

inductive TargetsText : List CrsTarget → List Text → Prop where
  | nil : TargetsText [] []
  | target {target : CrsTarget} {targets : List CrsTarget} {word : Text} {words : List Text} :
      TargetText target word → TargetsText targets words → TargetsText (target :: targets) (word :: words)
  | untargeted {targets : List CrsTarget} {word : Text} {words : List Text} :
      Untargeted word → TargetsText targets words → TargetsText targets (word :: words)

theorem parseTargets_text {targets : List CrsTarget} {words : List Text} (written : TargetsText targets words)
    (some : words ≠ []) (solid : ∀ word ∈ words, Text.Solid word) (noBar : ∀ word ∈ words, '|' ∉ word) :
    parseTargets (Text.join ['|'] words) = targets := by
  rw [parseTargets, Text.split_join some noBar]
  clear some noBar
  induction written with
  | nil => rfl
  | target word _ ih =>
    obtain ⟨here, later⟩ := List.forall_mem_cons.mp solid
    rw [List.filterMap_cons, Text.trim_of_tight here.tight, parseOneTarget_text word]
    exact congrArg _ (ih later)
  | untargeted word _ ih =>
    obtain ⟨here, later⟩ := List.forall_mem_cons.mp solid
    rw [List.filterMap_cons, Text.trim_of_tight here.tight, parseOneTarget_untargeted word]
    exact ih later

section
variable (platform : Platform)

-- Actions

structure Bare (value : Text) : Prop where
  noComma : ',' ∉ value
  noQuote : '\'' ∉ value
  noDouble : '"' ∉ value
  tight : Text.Tight value

/-- A token of an action list: its value stands between single quotes or bare. -/
inductive Token (a : Action) : Text → Prop where
  | quoted {piece : Text} : Padded platform a piece → Token a piece
  | bare {before key value after : Text} : before.all Text.isWhitespace = true → after.all Text.isWhitespace = true →
      Word key → Bare value → a.Written platform (keyed key value) → Token a (before ++ ((key ++ ':' :: value) ++ after))

theorem Bare.unquote_eq {value : Text} (bare : Bare value) : unquote value = value := by
  have notHead (c : Char) (absent : c ∉ value) : (value.head? = some c) = False :=
    eq_false fun head => absent (List.mem_of_mem_head? head)
  rw [unquote, Text.trim_of_tight bare.tight]
  simp [notHead _ bare.noQuote, notHead _ bare.noDouble]

theorem tight_bare {key value : Text} (word : Word key) (bare : Bare value) : Text.Tight (key ++ ':' :: value) := by
  rintro c (head | last)
  · cases key with
    | nil =>
      cases head
      rfl
    | cons d key => exact word.tight c (.inl head)
  · cases value using List.reverseRecOn with
    | nil =>
      rw [List.getLast?_concat] at last
      cases last
      rfl
    | append_singleton value d =>
      rw [← List.cons_append, ← List.append_assoc, List.getLast?_concat] at last
      exact bare.tight c (.inr (by rw [List.getLast?_concat, last]))

theorem keyedAction_bare {value : Text} (bare : Bare value) (ra : RawActions) (key : Text) :
    keyedAction platform ra key value = keyedAction platform ra key (quote value) := by
  have noEnds : Text.trimMatches '\'' value = value :=
    Text.trimMatches_of_ends (fun head => bare.noQuote (List.mem_of_mem_head? head))
      fun last => bare.noQuote (List.mem_of_mem_getLast? last)
  rw [keyedAction, keyedAction, bare.unquote_eq, unquote_quote, trimMatches_quote bare.noQuote,
    Text.trim_of_tight bare.tight, noEnds]

theorem parseAction_token {a : Action} {piece : Text} (token : Token platform a piece)
    (plain : ∀ op, a = .setvar op → op.Plain platform) (ra : RawActions) : parseAction platform ra piece = ra.act a := by
  cases token with
  | quoted padded =>
    obtain ⟨before, body, after, front, back, written, rfl⟩ := padded
    exact parseAction_written platform front back written plain ra
  | @bare before key value after front back word bare written =>
    have some : key ++ ':' :: value ≠ [] := by simp
    have quoted := parseAction_written platform front back written plain ra
    rw [parseAction_keyed platform front back word] at quoted
    rw [parseAction, Text.trim_padded front back (tight_bare word bare), if_neg some,
      Text.splitOnce_append word.noColon]
    exact (keyedAction_bare platform bare ra key).trans quoted

theorem unsplit_token {a : Action} {piece : Text} (token : Token platform a piece) : Unsplit piece := by
  cases token with
  | quoted padded => exact unsplit_padded padded
  | bare front back word bare _ =>
    have key := word.unsplit
    have colon : Unsplit [':'] := unsplit_of_not_mem (by decide) (by decide)
    have value := unsplit_of_not_mem bare.noQuote bare.noComma
    exact (unsplit_of_white front).append ((key.append (colon.append value)).append (unsplit_of_white back))

theorem parseActions_tokens {actions : List Action} {pieces : List Text}
    (written : List.Forall₂ (Token platform) actions pieces) (plain : ∀ op, .setvar op ∈ actions → op.Plain platform) :
    parseActions platform (Text.join [','] pieces) = actions.foldl RawActions.act .default := by
  have unsplit : ∀ p ∈ pieces, Unsplit p := by
    clear plain
    induction written with
    | nil => exact List.forall_mem_nil _
    | cons token _ ih => exact List.forall_mem_cons.mpr ⟨unsplit_token platform token, ih⟩
  have blank (ra : RawActions) : parseAction platform ra [] = ra := rfl
  rw [parseActions, foldl_splitActions blank unsplit]
  generalize RawActions.default = ra
  clear unsplit
  induction written generalizing ra with
  | nil => rfl
  | cons token _ ih =>
    rw [List.foldl_cons, List.foldl_cons,
      parseAction_token platform token fun op same => plain op (same ▸ List.mem_cons_self)]
    exact ih (fun op member => plain op (List.mem_cons_of_mem _ member)) _

-- Operators

def comparisons : List (String × (Int64 → CrsOperator) × (String → CrsOperator)) :=
  [("eq", .eq, .eqTxRef), ("lt", .lt, .ltTxRef), ("le", .le, .leTxRef), ("gt", .gt, .gtTxRef), ("ge", .ge, .geTxRef)]

variable (ipNet : IpNetParser)

inductive OperatorText : CrsOperator → String → Text → Prop where
  | detectSQLi (args : Text) : OperatorText .detectSQLi "detectsqli" args
  | detectXSS (args : Text) : OperatorText .detectXSS "detectxss" args
  | validateUrlEncoding (args : Text) : OperatorText .validateUrlEncoding "validateurlencoding" args
  | validateUtf8Encoding (args : Text) : OperatorText .validateUtf8Encoding "validateutf8encoding" args
  | rx {re : String → Bool} {pattern : String} : platform.regexNew pattern = some re →
      OperatorText (.rx re) "rx" pattern.toList
  | pm {phrases : List String} {args : Text} : Text.Spaced (phrases.map String.toList) args →
      OperatorText (.pm phrases) "pm" args
  | within {values : List String} {args : Text} : Text.Spaced (values.map String.toList) args →
      OperatorText (.within values) "within" args
  | pmFromFile (file : String) : OperatorText (.pmFromFile file) "pmfromfile" file.toList
  | number {name : String} {number : Int64 → CrsOperator} {ref : String → CrsOperator} (n : Int64) :
      (name, number, ref) ∈ comparisons → OperatorText (number n) name (Text.ofInt n.toInt)
  | reference {name : String} {number : Int64 → CrsOperator} {ref : String → CrsOperator} {var : String} :
      (name, number, ref) ∈ comparisons → platform.toLowercase var = var →
      OperatorText (ref var) name (RhsText.reference "tx".toList var.toList).text
  | contains (needle : String) : OperatorText (.contains (platform.toLowercase needle)) "contains" needle.toList
  | streq (value : String) : OperatorText (.streq value) "streq" value.toList
  | beginsWith (value : String) : OperatorText (.beginsWith value) "beginswith" value.toList
  | endsWith (value : String) : OperatorText (.endsWith value) "endswith" value.toList
  | ipMatch {nets : List (IpAddr → Bool)} {words : List Text} : words ≠ [] → (∀ word ∈ words, ',' ∉ word) →
      List.Forall₂ (fun net word => parseIpnet ipNet (Text.trim word) = some net) nets words →
      OperatorText (.ipMatch nets) "ipmatch" (Text.join [','] words)

theorem txRef_number (n : Int64) : txRef platform (Text.ofInt n.toInt) = none := by
  cases shape : n.toInt with
  | ofNat n =>
    obtain ⟨c, rest, digits, digit⟩ := Text.ofNat_eq_cons n
    rw [Text.ofInt, digits]
    exact txRef_digit platform digit rest
  | negSucc n => rfl

theorem comparison_number (ref : String → CrsOperator) (number : Int64 → CrsOperator) (n : Int64) :
    comparison platform ref number (Text.ofInt n.toInt) = some (number n) := by
  rw [comparison, txRef_number platform n]
  dsimp only
  rw [Text.parseI64_ofInt]
  rfl

theorem comparison_reference (ref : String → CrsOperator) (number : Int64 → CrsOperator) {var : String}
    (lower : platform.toLowercase var = var) :
    comparison platform ref number (RhsText.reference "tx".toList var.toList).text = some (ref var) := by
  rw [comparison, txRef_reference platform lower_tx, if_pos rfl, lowercase, String.ofList_toList, lower]

theorem map_ofList_toList (words : List String) : (words.map String.toList).map String.ofList = words := by
  rw [List.map_map]
  exact (List.map_congr_left fun word _ => String.ofList_toList).trans (List.map_id words)

theorem operatorOf_text {op : CrsOperator} {name : String} {args : Text} (tight : Text.Tight args)
    (written : OperatorText platform ipNet op name args) : operatorOf platform ipNet name args = some op := by
  cases written with
  | detectSQLi => rfl
  | detectXSS => rfl
  | validateUrlEncoding => rfl
  | validateUtf8Encoding => rfl
  | @rx re pattern known =>
    have found : (platform.regexNew (String.ofList pattern.toList)).map CrsOperator.rx = some (.rx re) := by
      rw [String.ofList_toList, known]
      rfl
    exact found
  | @pm phrases _ spaced =>
    have read : (Text.words args).map String.ofList = phrases := by
      rw [Text.words_spaced spaced, map_ofList_toList]
    exact congrArg (fun phrases => some (CrsOperator.pm phrases)) read
  | @within values _ spaced =>
    have read : (Text.words args).map String.ofList = values := by
      rw [Text.words_spaced spaced, map_ofList_toList]
    exact congrArg (fun values => some (CrsOperator.within values)) read
  | pmFromFile file =>
    have read : String.ofList (Text.trim file.toList) = file := by
      rw [Text.trim_of_tight tight, String.ofList_toList]
    exact congrArg (fun file => some (CrsOperator.pmFromFile file)) read
  | number n known =>
    simp only [comparisons, List.mem_cons, List.not_mem_nil, or_false, Prod.mk.injEq] at known
    rcases known with ⟨rfl, rfl, rfl⟩ | ⟨rfl, rfl, rfl⟩ | ⟨rfl, rfl, rfl⟩ | ⟨rfl, rfl, rfl⟩ | ⟨rfl, rfl, rfl⟩
    all_goals exact comparison_number platform _ _ n
  | reference known lower =>
    simp only [comparisons, List.mem_cons, List.not_mem_nil, or_false, Prod.mk.injEq] at known
    rcases known with ⟨rfl, rfl, rfl⟩ | ⟨rfl, rfl, rfl⟩ | ⟨rfl, rfl, rfl⟩ | ⟨rfl, rfl, rfl⟩ | ⟨rfl, rfl, rfl⟩
    all_goals exact comparison_reference platform _ _ lower
  | contains needle =>
    have same : String.ofList needle.toList = needle := String.ofList_toList
    exact congrArg (fun s => some (CrsOperator.contains (platform.toLowercase s))) same
  | streq value => exact congrArg (fun s => some (CrsOperator.streq s)) String.ofList_toList
  | beginsWith value => exact congrArg (fun s => some (CrsOperator.beginsWith s)) String.ofList_toList
  | endsWith value => exact congrArg (fun s => some (CrsOperator.endsWith s)) String.ofList_toList
  | @ipMatch nets words nonempty noComma written =>
    have read : (Text.split ',' (Text.join [','] words)).filterMap (fun p => parseIpnet ipNet (Text.trim p)) = nets := by
      rw [Text.split_join nonempty noComma]
      clear nonempty noComma tight
      induction written with
      | nil => rfl
      | cons known _ ih => rw [List.filterMap_cons, known, ih]
    exact congrArg (fun nets => some (CrsOperator.ipMatch nets)) read

structure Named (name : String) : Prop where
  some : name.toList ≠ []
  solid : Text.Solid name.toList
  ascii : Platform.isAscii name.toList = true

theorem operatorText_named {op : CrsOperator} {name : String} {args : Text}
    (written : OperatorText platform ipNet op name args) : Named name := by
  cases written with
  | number n known | reference known lower =>
    simp only [comparisons, List.mem_cons, List.not_mem_nil, or_false, Prod.mk.injEq] at known
    rcases known with ⟨rfl, -⟩ | ⟨rfl, -⟩ | ⟨rfl, -⟩ | ⟨rfl, -⟩ | ⟨rfl, -⟩
    all_goals exact ⟨by decide, rfl, rfl⟩
  | _ => exact ⟨by decide, rfl, rfl⟩

theorem solid_of_casing {name : String} {word : Text} (casing : Casing name word) (solid : Text.Solid name.toList) :
    Text.Solid word := by
  apply List.all_eq_true.mpr
  intro c member
  rw [Bool.not_eq_true']
  by_contra white
  rw [Bool.not_eq_false] at white
  refine not_mem_of_casing casing (not_capital_of_white white) (fun inName => ?_) member
  have black := List.all_eq_true.mp solid c inName
  rw [white] at black
  cases black

inductive NegationText : Bool → Text → Prop where
  | positive : NegationText false []
  | negated {space : Text} : space.all Text.isWhitespace = true → NegationText true ('!' :: space)

/-- What stands between the quotes of an operator. Its name may be in any letter case. -/
inductive OperatorWritten : Bool → CrsOperator → Text → Prop where
  | alone {negate : Bool} {op : CrsOperator} {name : String} {bang word : Text} : NegationText negate bang →
      Casing name word → OperatorText platform ipNet op name [] → OperatorWritten negate op (bang ++ '@' :: word)
  | followed {negate : Bool} {op : CrsOperator} {name : String} {bang word gap args : Text} : NegationText negate bang →
      Casing name word → gap ≠ [] → gap.all Text.isWhitespace = true → args ≠ [] → Text.Tight args →
      OperatorText platform ipNet op name args → OperatorWritten negate op (bang ++ '@' :: (word ++ (gap ++ args)))

def bodyOperator (body : Text) : Option CrsOperator :=
  match Text.splitSpace body with
  | some (name, rest) => operatorOf platform ipNet (lowercase platform name) (Text.trim rest)
  | none => operatorOf platform ipNet (lowercase platform body) []

theorem parseOperator_bang {negate : Bool} {bang : Text} (negation : NegationText negate bang) (body : Text) :
    parseOperator platform ipNet (bang ++ '@' :: body) =
      (bodyOperator platform ipNet body).map fun op => (negate, op) := by
  cases negation with
  | positive =>
    rw [List.nil_append, parseOperator, bodyOperator]
    cases Text.splitSpace body <;> rfl
  | negated white =>
    rename_i space
    have start : Text.trimStart (space ++ '@' :: body) = '@' :: body := by
      rw [Text.trimStart, Text.dropWhile_of_white white]
      rfl
    rw [List.cons_append, parseOperator, bodyOperator]
    simp only [start]
    cases Text.splitSpace body <;> rfl

theorem parseOperator_written {negate : Bool} {op : CrsOperator} {text : Text}
    (written : OperatorWritten platform ipNet negate op text) :
    parseOperator platform ipNet text = some (negate, op) := by
  cases written with
  | alone negation casing operator =>
    have named := operatorText_named platform ipNet operator
    have tight : Text.Tight [] := by decide
    rw [parseOperator_bang platform ipNet negation, bodyOperator,
      Text.splitSpace_solid (solid_of_casing casing named.solid)]
    dsimp only
    rw [lowercase, platform.toLowercase_of_casing casing named.ascii, operatorOf_text platform ipNet tight operator]
    rfl
  | @followed name bang word gap args negation casing some white nonempty tight operator =>
    have named := operatorText_named platform ipNet operator
    have trimmed : Text.trim (gap ++ args) = args := by
      have padded : Text.trim (gap ++ (args ++ [])) = args := Text.trim_padded white rfl tight
      rwa [List.append_nil] at padded
    obtain ⟨c, gap, rfl⟩ := List.exists_cons_of_ne_nil some
    have blank : Text.isWhitespace c = true := List.all_eq_true.mp white c List.mem_cons_self
    rw [parseOperator_bang platform ipNet negation, bodyOperator, List.cons_append,
      Text.splitSpace_append (solid_of_casing casing named.solid) blank]
    dsimp only
    rw [← List.cons_append, trimmed, lowercase, platform.toLowercase_of_casing casing named.ascii,
      operatorOf_text platform ipNet tight operator]
    rfl

theorem tight_bang {negate : Bool} {bang body : Text} (negation : NegationText negate bang)
    (black : ∀ c, body.getLast? = some c → Text.isWhitespace c = false) : Text.Tight (bang ++ '@' :: body) := by
  rintro c (head | last)
  · cases negation with
    | positive =>
      cases head
      rfl
    | negated _ =>
      cases head
      rfl
  · rw [List.getLast?_append, List.getLast?_cons, Option.some_or, Option.some.injEq] at last
    cases final : body.getLast? with
    | none =>
      rw [final] at last
      cases last
      rfl
    | some d =>
      rw [final] at last
      exact last ▸ black d final

theorem tight_operator {negate : Bool} {op : CrsOperator} {text : Text}
    (written : OperatorWritten platform ipNet negate op text) : Text.Tight text := by
  cases written with
  | alone negation casing operator =>
    have named := operatorText_named platform ipNet operator
    exact tight_bang negation fun c last => (solid_of_casing casing named.solid).tight c (.inr last)
  | followed negation casing some white nonempty tight operator =>
    refine tight_bang negation fun c last => tight c (.inr ?_)
    rwa [← List.append_assoc, List.getLast?_append_of_ne_nil _ nonempty] at last

-- Rules

def TargetsWritten (targets : List CrsTarget) (text : Text) : Prop :=
  ∃ words, TargetsText targets words ∧ (∀ word ∈ words, Text.Solid word) ∧ (∀ word ∈ words, '|' ∉ word) ∧
    text = Text.join ['|'] words ∧ text ≠ []

def OperatorPadded (negate : Bool) (op : CrsOperator) (text : Text) : Prop :=
  ∃ before body after, before.all Text.isWhitespace = true ∧ after.all Text.isWhitespace = true ∧
    OperatorWritten platform ipNet negate op body ∧ text = before ++ (body ++ after)

def SecRule.raw (rule : SecRule) : RawActions where
  id := rule.id
  phase := rule.phase
  skipAfter := rule.actions.skipAfter
  setvars := rule.actions.setvars
  tags := rule.actions.tags
  severity := rule.actions.severity
  isNolog := rule.actions.isNolog
  isBlock := rule.actions.defaultAction == .block
  isChain := rule.actions.isChain
  isCapture := rule.actions.isCapture
  isMultiMatch := rule.actions.isMultiMatch
  transforms := rule.transforms

def ActionsWritten (rule : SecRule) (text : Text) : Prop :=
  ∃ actions pieces, Lists rule.raw actions ∧ List.Forall₂ (Token platform) actions pieces ∧
    text = Text.join [','] pieces

/-- What is written of a rule after `SecRule`. The texts in quotes hold no quote that is not escaped. -/
inductive RuleText (rule : SecRule) : Text → Prop where
  | text {targets gap op space actions rest : Text} : TargetsWritten rule.targets targets → gap ≠ [] →
      gap.all Text.isWhitespace = true → OperatorPadded platform ipNet rule.negateOp rule.operator op →
      Scanned false op → space.all Text.isWhitespace = true → ActionsWritten platform rule actions →
      Scanned false actions → (∀ op ∈ rule.actions.setvars, op.Plain platform) →
      RuleText rule (targets ++ (gap ++ '"' :: (op ++ '"' :: (space ++ '"' :: (actions ++ '"' :: rest)))))

theorem SecRule.intoCrsActions_raw (rule : SecRule) : rule.raw.intoCrsActions = rule.actions := by
  obtain ⟨_, _, _, _, _, _, actions⟩ := rule
  obtain ⟨_, _, _, _, _, action, _, _, _⟩ := actions
  cases action <;> rfl

theorem solid_join {words : List Text} (solid : ∀ word ∈ words, Text.Solid word) :
    Text.Solid (Text.join ['|'] words) := by
  induction words with
  | nil => rfl
  | cons word words ih =>
    obtain ⟨here, later⟩ := List.forall_mem_cons.mp solid
    cases words with
    | nil => exact here
    | cons next words =>
      have tail := ih later
      rw [Text.Solid] at here tail ⊢
      rw [Text.join_cons_cons, List.all_append, List.all_append, here, tail]
      rfl

theorem parseDquoted_after {white body : Text} (blank : white.all Text.isWhitespace = true) (scanned : Scanned false body)
    (rest : Text) : parseDquoted (Text.trimStart (white ++ '"' :: (body ++ '"' :: rest))) = some (body, rest) := by
  have start : Text.trimStart (white ++ '"' :: (body ++ '"' :: rest)) = [] ++ '"' :: (body ++ '"' :: rest) := by
    rw [Text.trimStart, Text.dropWhile_of_white blank]
    rfl
  rw [start, parseDquoted_quoted rfl, scanQuoted_complete scanned rfl]

theorem secRuleParts_text {targets gap op space actions : Text} (solid : Text.Solid targets) (some : gap ≠ [])
    (gapWhite : gap.all Text.isWhitespace = true) (opScanned : Scanned false op)
    (spaceWhite : space.all Text.isWhitespace = true) (actionsScanned : Scanned false actions) (rest : Text) :
    secRuleParts (targets ++ (gap ++ '"' :: (op ++ '"' :: (space ++ '"' :: (actions ++ '"' :: rest))))) =
      .some (targets, op, actions) := by
  obtain ⟨c, gap, rfl⟩ := List.exists_cons_of_ne_nil some
  have blank : Text.isWhitespace c = true := List.all_eq_true.mp gapWhite c List.mem_cons_self
  have cut := Text.splitSpace_append solid blank (gap ++ '"' :: (op ++ '"' :: (space ++ '"' :: (actions ++ '"' :: rest))))
  have operator := parseDquoted_after gapWhite opScanned (space ++ '"' :: (actions ++ '"' :: rest))
  have list := parseDquoted_after spaceWhite actionsScanned rest
  rw [secRuleParts, List.cons_append, cut, Option.bind_eq_bind, Option.bind_some]
  dsimp only
  rw [← List.cons_append, operator, Option.bind_some]
  dsimp only
  rw [list]
  rfl

theorem parseSecrule_text {rule : SecRule} {text : Text} (written : RuleText platform ipNet rule text) :
    parseSecrule platform ipNet text = some rule := by
  obtain ⟨targets, gapSome, gapWhite, op, opScanned, spaceWhite, actions, actionsScanned, plain⟩ := written
  obtain ⟨words, known, solid, noBar, rfl, some⟩ := targets
  obtain ⟨before, body, after, front, back, operator, rfl⟩ := op
  obtain ⟨said, pieces, lists, tokens, rfl⟩ := actions
  have wordsSome : words ≠ [] := by
    rintro rfl
    exact some rfl
  have settings : ∀ op, Action.setvar op ∈ said → op.Plain platform := by
    intro op member
    apply plain
    have listed : rule.actions.setvars = said.filterMap Action.setvar? := lists.setvars
    rw [listed]
    exact List.mem_filterMap.mpr ⟨_, member, rfl⟩
  have read : parseActions platform (Text.join [','] pieces) = rule.raw :=
    (parseActions_tokens platform tokens settings).trans lists.foldl_act
  rw [parseSecrule, secRuleParts_text (solid_join solid) gapSome gapWhite opScanned spaceWhite actionsScanned,
    Option.bind_eq_bind, Option.bind_some]
  dsimp only
  rw [Text.trim_padded front back (tight_operator platform ipNet operator), parseOperator_written platform ipNet operator,
    Option.bind_eq_bind, Option.bind_some]
  dsimp only
  rw [read, parseTargets_text known wordsSome solid noBar, rule.intoCrsActions_raw]
  rfl

-- Files

inductive Entry where
  | rule (rule : SecRule)
  | marker (name : String)
  /-- Blank lines, comments and other directives. -/
  | other

def Entry.item? : Entry → Option RuleItem
  | .rule r => some (.rule r)
  | .marker name => some (.marker name)
  | .other => none

inductive Entry.Written : Entry → Text → Prop where
  | rule {rule : SecRule} {gap text : Text} : gap ≠ [] → gap.all Text.isWhitespace = true →
      RuleText platform ipNet rule text → Written (.rule rule) ("SecRule".toList ++ (gap ++ text))
  | marker {name : String} {gap : Text} : gap.all Text.isWhitespace = true → name.toList ≠ [] → Text.Tight name.toList →
      '"' ∉ name.toList → Written (.marker name) ("SecMarker".toList ++ (gap ++ name.toList))
  | quotedMarker {name : String} {gap before after : Text} : gap.all Text.isWhitespace = true →
      before.all Text.isWhitespace = true → after.all Text.isWhitespace = true → name.toList ≠ [] →
      Text.Tight name.toList → '"' ∉ name.toList →
      Written (.marker name) ("SecMarker".toList ++ (gap ++ ('"' :: (before ++ (name.toList ++ after)) ++ ['"'])))
  | blank : Written .other []
  | comment {text : Text} : text.head? = some '#' → Written .other text
  | directive {text : Text} : ¬ "SecMarker".toList <+: text →
      (∀ c rest, text = "SecRule".toList ++ c :: rest → Text.isWhitespace c = false) → Written .other text

theorem directive_rule {rule : SecRule} {gap text : Text} (some : gap ≠ []) (white : gap.all Text.isWhitespace = true)
    (written : RuleText platform ipNet rule text) (tight : Text.Tight ("SecRule".toList ++ (gap ++ text))) :
    directive ("SecRule".toList ++ (gap ++ text)) = .some (.rule text) := by
  have start : Text.trimStart (gap ++ text) = text := by
    rw [Text.trimStart, Text.dropWhile_of_white white]
    apply Text.dropWhile_of_tight
    obtain ⟨targets, -⟩ := written
    obtain ⟨words, -, solid, -, rfl, nonempty⟩ := targets
    intro c head
    obtain ⟨d, front, shape⟩ := List.exists_cons_of_ne_nil nonempty
    rw [shape, List.cons_append, List.head?_cons, Option.some.injEq] at head
    rw [← head]
    exact (solid_join solid).tight d (.inl (by rw [shape, List.head?_cons]))
  obtain ⟨c, gap, rfl⟩ := List.exists_cons_of_ne_nil some
  have blank : Text.isWhitespace c = true := List.all_eq_true.mp white c List.mem_cons_self
  have notComment : ¬ ("SecRule".toList ++ (c :: gap ++ text) = [] ∨
      ("SecRule".toList ++ (c :: gap ++ text)).head? = .some '#') := by
    rintro (empty | comment)
    · cases empty
    · cases comment
  rw [directive, Text.trim_of_tight tight, if_neg notComment, Text.stripStart_append]
  dsimp only [List.cons_append]
  rw [if_pos blank, ← List.cons_append, start]

theorem directive_marker {rest : Text} (tight : Text.Tight ("SecMarker".toList ++ rest)) :
    directive ("SecMarker".toList ++ rest) =
      some (.marker (Text.trim (Text.trimMatches '"' (Text.trim rest)))) := by
  have notComment : ¬ ("SecMarker".toList ++ rest = [] ∨ ("SecMarker".toList ++ rest).head? = some '#') := by
    rintro (empty | comment)
    · cases empty
    · cases comment
  have notRule : Text.stripStart "SecRule".toList ("SecMarker".toList ++ rest) = none := rfl
  rw [directive, Text.trim_of_tight tight, if_neg notComment, notRule]
  dsimp only
  rw [Text.stripStart_append]
  rfl

theorem directive_other {text : Text} (noMarker : ¬ "SecMarker".toList <+: text)
    (noRule : ∀ c rest, text = "SecRule".toList ++ c :: rest → Text.isWhitespace c = false)
    (tight : Text.Tight text) : directive text = none := by
  rw [directive, Text.trim_of_tight tight, Text.stripStart_of_not noMarker]
  split
  · rfl
  · cases stripped : Text.stripStart "SecRule".toList text with
    | none => rfl
    | some rest =>
      cases rest with
      | nil => rfl
      | cons c rest =>
        dsimp only
        rw [noRule c rest (Text.stripStart_some stripped), if_neg Bool.false_ne_true]

theorem marker_bare {name gap : Text} (white : gap.all Text.isWhitespace = true) (tight : Text.Tight name)
    (absent : '"' ∉ name) : Text.trim (Text.trimMatches '"' (Text.trim (gap ++ name))) = name := by
  have trimmed : Text.trim (gap ++ (name ++ [])) = name := Text.trim_padded white rfl tight
  rw [List.append_nil] at trimmed
  have noEnds : Text.trimMatches '"' name = name :=
    Text.trimMatches_of_ends (fun head => absent (List.mem_of_mem_head? head))
      fun last => absent (List.mem_of_mem_getLast? last)
  rw [trimmed, noEnds, Text.trim_of_tight tight]

theorem marker_quoted {name gap before after : Text} (white : gap.all Text.isWhitespace = true)
    (front : before.all Text.isWhitespace = true) (back : after.all Text.isWhitespace = true) (tight : Text.Tight name)
    (absent : '"' ∉ name) :
    Text.trim (Text.trimMatches '"' (Text.trim (gap ++ ('"' :: (before ++ (name ++ after)) ++ ['"'])))) = name := by
  have inner : '"' ∉ before ++ (name ++ after) := by
    rw [List.mem_append, List.mem_append, not_or, not_or]
    exact ⟨Text.not_mem_of_white front rfl, absent, Text.not_mem_of_white back rfl⟩
  have quoted : Text.Tight ('"' :: (before ++ (name ++ after)) ++ ['"']) :=
    Text.tight_append ⟨_, rfl, rfl⟩ ⟨_, rfl, rfl⟩
  have trimmed : Text.trim (gap ++ ('"' :: (before ++ (name ++ after)) ++ ['"'] ++ [])) = _ :=
    Text.trim_padded white rfl quoted
  rw [List.append_nil] at trimmed
  rw [trimmed, Text.trimMatches_quoted inner, Text.trim_padded front back tight]

/-- One entry, where no rule is being skipped. -/
theorem parseFrom_written {entry : Entry} {text : Text} (written : entry.Written platform ipNet text)
    (tight : Text.Tight text) (rest : List Directive) :
    parseFrom platform ipNet 0 ((directive text).toList ++ rest) = entry.item?.toList ++ parseFrom platform ipNet 0 rest := by
  cases written with
  | rule some white rule =>
    rw [directive_rule platform ipNet some white rule tight, Option.toList_some, List.singleton_append, parseFrom, step,
      parseSecrule_text platform ipNet rule]
    rfl
  | marker white some nameTight absent =>
    rw [directive_marker tight, marker_bare white nameTight absent, Option.toList_some, List.singleton_append, parseFrom,
      step, if_neg some, String.ofList_toList]
    rfl
  | quotedMarker white front back some nameTight absent =>
    rw [directive_marker tight, marker_quoted white front back nameTight absent, Option.toList_some,
      List.singleton_append, parseFrom, step, if_neg some, String.ofList_toList]
    rfl
  | blank => rfl
  | comment comment =>
    rw [directive, Text.trim_of_tight tight, if_pos (.inr comment)]
    rfl
  | directive noMarker noRule =>
    rw [directive_other noMarker noRule tight]
    rfl

/-- A file is read as it was written, whatever its spacing, its line breaks and the case of its names. -/
theorem parseConf_written {entries : List Entry} {layouts : List Layout}
    (written : List.Forall₂ (fun entry layout => entry.Written platform ipNet (Text.trim layout.joined)) entries layouts) :
    parseConf platform ipNet (layouts.flatMap Layout.text) = entries.filterMap Entry.item? := by
  rw [parseConf, joinContinuations_layout]
  induction written with
  | nil => rfl
  | @cons entry layout entries layouts here _ ih =>
    have dropped : ([Text.trim layout.joined].filter (· ≠ [])).filterMap directive =
        (directive (Text.trim layout.joined)).toList := by
      by_cases blank : Text.trim layout.joined = []
      · rw [blank]
        rfl
      · rw [List.filter_cons_of_pos (by simpa using blank), List.filter_nil, List.filterMap_cons]
        cases directive (Text.trim layout.joined) <;> rfl
    have first := parseFrom_written platform ipNet here (Text.tight_trim _)
      (((layouts.map fun layout => Text.trim layout.joined).filter (· ≠ [])).filterMap directive)
    rw [List.map_cons, ← List.singleton_append, List.filter_append, List.filterMap_append, dropped, first, ih]
    cases entry <;> rfl

end

-- A comment, a rule on two lines and a marker

def sqliRule : SecRule :=
  ⟨942100, 2, [.args], .detectSQLi, true, [], ⟨none, [], ["sqli"], none, false, .block, false, false, false⟩⟩

def sqliFile : List Layout :=
  [⟨[], ⟨"# injection".toList, false, by decide⟩, by decide⟩,
    ⟨[⟨"SecRule ARGS|!ARGS:id ".toList ++ "\"!@detectSQLi\"".toList, true, by decide⟩],
      ⟨"\"id:942100, ".toList ++ "TAG:'sqli',block\"".toList, false, by decide⟩, by decide⟩,
    ⟨[], ⟨"SecMarker \"END\"".toList, false, by decide⟩, by decide⟩]

theorem scanned_plain {s : Text} (plain : s.all (fun c => c != '"' && c != '\\') = true) : Scanned false s := by
  induction s with
  | nil => exact .nil
  | cons c s ih =>
    rw [List.all_cons, Bool.and_eq_true, Bool.and_eq_true, bne_iff_ne, bne_iff_ne] at plain
    exact .char plain.1.1 plain.1.2 (ih plain.2)

theorem parseConf_written_sqli :
    parseConf .plain (fun _ => none) (sqliFile.flatMap Layout.text) = [.rule sqliRule, .marker "END"] := by
  have targets : TargetsWritten [.args] "ARGS|!ARGS:id".toList := by
    refine ⟨["ARGS".toList, "!ARGS".toList ++ ':' :: "id".toList], .target (.plain (by simp [plainTargets])) ?_, ?_,
      by decide, rfl, by decide⟩
    · exact .untargeted (.named _ (by decide) (by decide)) .nil
    · exact List.forall_mem_cons.mpr ⟨rfl, List.forall_mem_cons.mpr ⟨rfl, List.forall_mem_nil _⟩⟩
  have operator : OperatorPadded .plain (fun _ => none) true .detectSQLi "!@detectSQLi".toList := by
    have name : Casing "detectsqli" "detectSQLi".toList := rfl
    have bang : NegationText true ['!'] := .negated (rfl : [].all Text.isWhitespace = true)
    exact ⟨[], _, [], rfl, rfl, .alone bang name (.detectSQLi []), rfl⟩
  have actions : ActionsWritten .plain sqliRule "id:942100, TAG:'sqli',block".toList := by
    refine ⟨[.id 942100, .tag "sqli", .blocking true], ["id:942100".toList, " TAG:'sqli'".toList, "block".toList],
      ?_, .cons ?_ (.cons ?_ (.cons ?_ .nil)), rfl⟩
    · refine ⟨rfl, rfl, rfl, rfl, rfl, rfl, by simp [SecRule.raw, sqliRule], rfl, by simp [SecRule.raw, sqliRule],
        by simp [SecRule.raw, sqliRule], by simp [SecRule.raw, sqliRule], ?_⟩
      exact ⟨[], _, rfl, .inl rfl, by simp, rfl⟩
    · have key : Casing "id" "id".toList := rfl
      have number : Action.Written .plain (.id 942100) (keyed "id".toList "942100".toList) :=
        ⟨_, key, by decide, rfl⟩
      exact .bare (rfl : [].all Text.isWhitespace = true) (rfl : [].all Text.isWhitespace = true)
        (word_of_casing key rfl) ⟨by decide, by decide, by decide, by decide⟩ number
    · exact .quoted ⟨[' '], _, [], rfl, rfl, ⟨"TAG".toList, rfl, by decide, rfl⟩, rfl⟩
    · exact .quoted ⟨[], "block".toList, [], rfl, rfl, .inl rfl, rfl⟩
  have rule : RuleText .plain (fun _ => none) sqliRule
      ("ARGS|!ARGS:id".toList ++ ([' '] ++ '"' :: ("!@detectSQLi".toList ++ '"' :: ([' '] ++ '"' ::
        ("id:942100, TAG:'sqli',block".toList ++ '"' :: []))))) :=
    .text targets (by decide) rfl operator (scanned_plain rfl) rfl actions (scanned_plain rfl) (List.forall_mem_nil _)
  have written : List.Forall₂ (fun (entry : Entry) (layout : Layout) =>
      entry.Written .plain (fun _ => none) (Text.trim layout.joined)) [.other, .rule sqliRule, .marker "END"] sqliFile := by
    refine .cons (.comment rfl) (.cons ?_ (.cons ?_ .nil))
    · exact .rule (List.cons_ne_nil ' ' []) rfl rule
    · have blank : [].all Text.isWhitespace = true := rfl
      have space : [' '].all Text.isWhitespace = true := rfl
      exact .quotedMarker space blank blank (by decide) (by decide) (by decide)
  exact parseConf_written .plain _ written

end MiniWaf.Crs
