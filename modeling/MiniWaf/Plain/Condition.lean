import MiniWaf.Plain.Types
import MiniWaf.Theory.Glob

/-! Condition evaluator of the plain YAML engine: a walk over the tree, with one
comparison per leaf.
-/

set_option autoImplicit false

namespace MiniWaf.Plain

/-- `str::eq_ignore_ascii_case`. -/
def eqIgnoreAsciiCase (a b : String) : Bool := a.toList.map Char.toLower == b.toList.map Char.toLower

def matchRecursive : Text → Text → Bool
  | [], [] => true
  | [], _ :: _ => false
  | p :: ps, [] => if p = '*' then matchRecursive ps [] else false
  | p :: ps, t :: ts =>
    if p = '*' then matchRecursive ps (t :: ts) || matchRecursive (p :: ps) ts
    else if p = '?' then matchRecursive ps ts
    else if t ≠ p then false
    else matchRecursive ps ts

def pieceOf (c : Char) : Glob.Piece Char := if c = '*' then .star else if c = '?' then .one else .item c

@[simp] theorem pieceOf_star : pieceOf '*' = .star := rfl

@[simp] theorem pieceOf_one : pieceOf '?' = .one := rfl

theorem pieceOf_item {c : Char} (notStar : c ≠ '*') (notOne : c ≠ '?') : pieceOf c = .item c := by
  rw [pieceOf, if_neg notStar, if_neg notOne]

theorem matchRecursive_iff (pattern text : Text) :
    matchRecursive pattern text = true ↔ Glob.Matches (pattern.map pieceOf) text := by
  fun_induction matchRecursive pattern text with
  | case1 => simp [Glob.Matches]
  | case2 c text => simp [Glob.Matches]
  | case3 ps ih => rw [ih, List.map_cons, pieceOf_star, Glob.matches_star_nil]
  | case4 p ps notStar =>
    by_cases one : p = '?'
    · subst one
      simp [Glob.Matches]
    · rw [List.map_cons, pieceOf_item notStar one]
      simp [Glob.Matches]
  | case5 ps c text whole later =>
    rw [Bool.or_eq_true, whole, later, List.map_cons, pieceOf_star]
    exact Glob.matches_star_cons.symm
  | case6 ps c text _ ih => simp [Glob.Matches, ih]
  | case7 p ps c text notStar notOne other =>
    rw [List.map_cons, pieceOf_item notStar notOne]
    simp [Glob.Matches, other]
  | case8 p ps c text notStar notOne same ih =>
    obtain rfl := not_not.mp same
    rw [List.map_cons, pieceOf_item notStar notOne, ih]
    simp [Glob.Matches]

section
variable (platform : Platform)

def simpleGlobMatch (pattern text : String) (caseInsensitive : Bool) : Bool :=
  if caseInsensitive then
    matchRecursive (platform.toLowercase pattern).toList (platform.toLowercase text).toList
  else matchRecursive pattern.toList text.toList

end

def Takes (c : Char) (segment : Text) : Prop :=
  if c = '*' then True else if c = '?' then segment.length = 1 else segment = [c]

theorem takes_pieceOf (c : Char) (segment : Text) : (pieceOf c).Takes segment ↔ Takes c segment := by
  by_cases star : c = '*'
  · subst star
    exact Iff.rfl
  · by_cases one : c = '?'
    · subst one
      exact Iff.rfl
    · rw [pieceOf_item star one, Takes, if_neg star, if_neg one]
      rfl

/-- The search accepts exactly the texts that divide into segments the pattern's characters take. -/
theorem simpleGlobMatch_iff (platform : Platform) (pattern text : String) :
    simpleGlobMatch platform pattern text false = true ↔
      ∃ segments, List.Forall₂ Takes pattern.toList segments ∧ segments.flatten = text.toList := by
  have taken : ∀ segments : List Text,
      List.Forall₂ Glob.Piece.Takes (pattern.toList.map pieceOf) segments ↔ List.Forall₂ Takes pattern.toList segments := by
    intro segments
    rw [List.forall₂_map_left_iff]
    constructor
    · exact fun all => all.imp fun c segment => (takes_pieceOf c segment).mp
    · exact fun all => all.imp fun c segment => (takes_pieceOf c segment).mpr
  rw [simpleGlobMatch, if_neg (by decide), matchRecursive_iff, Glob.matches_iff_segments]
  simp only [taken]

def networkMask (width : Nat) (bits : UInt8) : BitVec width := BitVec.allOnes width <<< (width - min bits.toNat width)

/-- Whether the address is in the block; a prefix length that does not parse counts as 0. -/
def cidrContains (cidr ip : String) : Bool :=
  match IpAddr.parse ip.toList with
  | none => false
  | some ipAddr =>
    match Text.splitOnce '/' cidr.toList with
    | some (netStr, prefixStr) =>
      let bits := (Text.parseU8 prefixStr).getD 0
      match IpAddr.parse netStr with
      | none => false
      | some net =>
        match net, ipAddr with
        | .v4 net4, .v4 ip4 => if bits = 0 then true else net4 &&& networkMask 32 bits == ip4 &&& networkMask 32 bits
        | .v6 net6, .v6 ip6 => if bits = 0 then true else net6 &&& networkMask 128 bits == ip6 &&& networkMask 128 bits
        | _, _ => false
    | none =>
      match IpAddr.parse cidr.toList with
      | some a => a == ipAddr
      | none => false

section
variable (platform : Platform)

/-- The pattern a regex leaf compiles: case-insensitive unless it says otherwise. -/
def leafPattern (leaf : ConditionLeaf) : String :=
  if !leaf.caseSensitive && !"(?i)".toList.isPrefixOf leaf.value.toList then "(?i)" ++ leaf.value else leaf.value

def matchValue (subject : String) (leaf : ConditionLeaf) : Bool :=
  match leaf.matchType with
  | .exact => if leaf.caseSensitive then subject == leaf.value else eqIgnoreAsciiCase subject leaf.value
  | .wildcard => simpleGlobMatch platform leaf.value subject (!leaf.caseSensitive)
  | .regex => platform.isMatch (leafPattern leaf) subject
  | .cidr => cidrContains leaf.value subject
  | .presence => !subject.isEmpty
  | .absence => subject.isEmpty

/-- `std::str::from_utf8(bytes).unwrap_or("")`. -/
def utf8OrEmpty (bytes : List UInt8) : String := ((Text.fromUtf8 bytes).map String.ofList).getD ""

def evalLeaf (leaf : ConditionLeaf) (ctx : RequestContext) : Bool :=
  let result := match leaf.field with
    | .ip => matchValue platform ctx.ip leaf
    | .path => matchValue platform ctx.path leaf
    | .method => matchValue platform ctx.method leaf
    | .sessionId => matchValue platform ctx.sessionId leaf
    | .deviceFp => matchValue platform ctx.deviceFp leaf
    | .contentType => matchValue platform (ctx.contentType.getD "") leaf
    | .header =>
      let value := (ctx.headers.get (leaf.headerName.getD "")).getD ""
      match leaf.matchType with
      | .presence => !value.isEmpty
      | .absence => value.isEmpty
      | _ => matchValue platform value leaf
    | .cookie =>
      let value := (ctx.cookies.get (leaf.cookieName.getD "")).getD ""
      match leaf.matchType with
      | .presence => !value.isEmpty
      | .absence => value.isEmpty
      | _ => matchValue platform value leaf
    | .payload =>
      match leaf.matchType with
      | .presence => !ctx.payload.isEmpty
      | .absence => ctx.payload.isEmpty
      | _ => matchValue platform (utf8OrEmpty ctx.payload) leaf
  if leaf.negate then !result else result

mutual
def evalNode (node : ConditionNode) (ctx : RequestContext) : Bool :=
  match node with
  | .and children => evalAll children ctx
  | .or children => evalAny children ctx
  | .leaf leaf => evalLeaf platform leaf ctx

def evalAll (children : List ConditionNode) (ctx : RequestContext) : Bool :=
  match children with
  | [] => true
  | c :: rest => evalNode c ctx && evalAll rest ctx

def evalAny (children : List ConditionNode) (ctx : RequestContext) : Bool :=
  match children with
  | [] => false
  | c :: rest => evalNode c ctx || evalAny rest ctx
end

end

/-- The text a leaf is compared with; what the request does not have is the empty text. -/
def subjectText (leaf : ConditionLeaf) (ctx : RequestContext) : String :=
  match leaf.field with
  | .ip => ctx.ip
  | .path => ctx.path
  | .method => ctx.method
  | .sessionId => ctx.sessionId
  | .deviceFp => ctx.deviceFp
  | .contentType => ctx.contentType.getD ""
  | .header => (ctx.headers.get (leaf.headerName.getD "")).getD ""
  | .cookie => (ctx.cookies.get (leaf.cookieName.getD "")).getD ""
  | .payload => utf8OrEmpty ctx.payload

theorem utf8OrEmpty_utf8 (t : Text) : utf8OrEmpty (Text.utf8 t) = String.ofList t := by
  rw [utf8OrEmpty, (Text.fromUtf8_eq_some _ t).mpr rfl]
  rfl

theorem isEmpty_utf8 (t : Text) : (Text.utf8 t).isEmpty = (String.ofList t).isEmpty := by
  have decoded : Text.utf8 t = [] ↔ t = [] := by
    constructor
    · intro empty
      rw [← Text.fromUtf8Lossy_utf8 t, empty]
      rfl
    · rintro rfl
      rfl
  rw [Bool.eq_iff_iff, List.isEmpty_iff, decoded]
  simp

/-- A leaf compares one text, as long as a payload is UTF-8. -/
theorem evalLeaf_eq (platform : Platform) {leaf : ConditionLeaf} {ctx : RequestContext}
    (valid : leaf.field = .payload → ∃ t, ctx.payload = Text.utf8 t) :
    evalLeaf platform leaf ctx =
      if leaf.negate then !matchValue platform (subjectText leaf ctx) leaf
      else matchValue platform (subjectText leaf ctx) leaf := by
  unfold evalLeaf subjectText
  cases field : leaf.field with
  | header => cases kind : leaf.matchType <;> simp [matchValue, kind]
  | cookie => cases kind : leaf.matchType <;> simp [matchValue, kind]
  | payload =>
    obtain ⟨t, bytes⟩ := valid field
    cases kind : leaf.matchType <;> simp [matchValue, kind, bytes, utf8OrEmpty_utf8, isEmpty_utf8]
  | _ => rfl

@[simp] theorem evalAll_eq (platform : Platform) (children : List ConditionNode) (ctx : RequestContext) :
    evalAll platform children ctx = children.all (evalNode platform · ctx) := by
  induction children with
  | nil => rfl
  | cons c rest ih => rw [evalAll, ih, List.all_cons]

@[simp] theorem evalAny_eq (platform : Platform) (children : List ConditionNode) (ctx : RequestContext) :
    evalAny platform children ctx = children.any (evalNode platform · ctx) := by
  induction children with
  | nil => rfl
  | cons c rest ih => rw [evalAny, ih, List.any_cons]

theorem evalNode_eq_holds (platform : Platform) (node : ConditionNode) (ctx : RequestContext) :
    evalNode platform node ctx = node.holds (evalLeaf platform · ctx) := by
  induction node using ConditionNode.byNodes with
  | and children ih =>
    rw [evalNode, evalAll_eq, ConditionNode.holds, ConditionNode.holdsAll_eq]
    exact all_eq_of_mem ih
  | or children ih =>
    rw [evalNode, evalAny_eq, ConditionNode.holds, ConditionNode.holdsAny_eq]
    exact any_eq_of_mem ih
  | leaf l => rfl

end MiniWaf.Plain
