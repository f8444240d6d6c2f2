import MiniWaf.Rete.Eval
import MiniWaf.Std.Integer

/-! Arithmetic expressions. The engine's arithmetic, in a debug build with its
panics, is compared with unbounded integers.
-/

set_option autoImplicit false

namespace MiniWaf.Rete

open Grl

-- A debug build

/-- `valueAdd` where `i64` overflow panics. -/
def checkedAdd (lv rv : Value) : Option Value :=
  match lv, rv with
  | .str a, b => some (.str (a ++ b.asStr))
  | a, .str b => some (.str (a.asStr ++ b))
  | _, _ => (checkedI64 (lv.asInt.toInt + rv.asInt.toInt)).map .int

def checkedValue (op : BinOp) (lv rv : Value) : Option Value :=
  match op with
  | .add => checkedAdd lv rv
  | .sub => (checkedI64 (lv.asInt.toInt - rv.asInt.toInt)).map .int
  | .mul => (checkedI64 (lv.asInt.toInt * rv.asInt.toInt)).map .int
  | .div =>
    let divisor := max rv.asInt 1
    if divisor = 0 then none else (checkedI64 (lv.asInt.toInt.tdiv divisor.toInt)).map .int
  | op => some (binaryValue op lv rv)

variable (platform : Platform)

mutual
/-- `eval_expr` of a debug build; `none` is a panic. -/
def checkedExpr (wm : WorkingMemory) : Expr → Option Value
  | .literal v => some v
  | .path p => some (wm.readPath platform p)
  | .call name args => (checkedArgs wm args).map fun values => wm.registry.call platform name wm.fact values
  | .unary .not e => (checkedExpr wm e).map fun v => .bool !v.asBool
  | .binary .and l r => do
    let lv ← checkedExpr wm l
    if lv.asBool then (checkedExpr wm r).map fun rv => .bool rv.asBool else some (.bool false)
  | .binary .or l r => do
    let lv ← checkedExpr wm l
    if lv.asBool then some (.bool true) else (checkedExpr wm r).map fun rv => .bool rv.asBool
  | .binary op l r => do
    let lv ← checkedExpr wm l
    let rv ← checkedExpr wm r
    checkedValue op lv rv

def checkedArgs (wm : WorkingMemory) : List Expr → Option (List Value)
  | [] => some []
  | a :: rest => do
    let v ← checkedExpr wm a
    (checkedArgs wm rest).map (v :: ·)
end

variable {platform}

theorem checkedI64_some {n : Int} {v : Int64} (checked : checkedI64 n = some v) : v = Int64.ofInt n := by
  unfold checkedI64 at checked
  split at checked
  · exact (Option.some.inj checked).symm
  · cases checked

theorem checkedAdd_some {lv rv v : Value} (checked : checkedAdd lv rv = some v) : valueAdd lv rv = v := by
  have number {a b : Int64} (summed : (checkedI64 (a.toInt + b.toInt)).map Value.int = some v) : .int (a + b) = v := by
    obtain ⟨n, found, rfl⟩ := Option.map_eq_some_iff.mp summed
    rw [checkedI64_some found, Int64.ofInt_add, Int64.ofInt_toInt, Int64.ofInt_toInt]
  cases lv <;> cases rv <;> first
    | exact Option.some.inj checked
    | exact number checked

/-- Where a debug build goes on, it computes what a release build computes. -/
theorem checkedValue_some {op : BinOp} {lv rv v : Value} (checked : checkedValue op lv rv = some v) :
    binaryValue op lv rv = v := by
  cases op
  case add => exact checkedAdd_some checked
  case sub =>
    obtain ⟨n, found, rfl⟩ := Option.map_eq_some_iff.mp checked
    rw [checkedI64_some found, Int64.ofInt_sub, Int64.ofInt_toInt, Int64.ofInt_toInt]
    rfl
  case mul =>
    obtain ⟨n, found, rfl⟩ := Option.map_eq_some_iff.mp checked
    rw [checkedI64_some found, Int64.ofInt_mul, Int64.ofInt_toInt, Int64.ofInt_toInt]
    rfl
  case div =>
    simp only [checkedValue] at checked
    split at checked
    · cases checked
    · obtain ⟨n, found, rfl⟩ := Option.map_eq_some_iff.mp checked
      rw [checkedI64_some found, ofI64_tdiv]
      rfl
  all_goals exact Option.some.inj checked

theorem checkedArgs_some {wm : WorkingMemory} {args : List Expr} {values : List Value}
    (each : ∀ a ∈ args, ∀ v, checkedExpr platform wm a = some v → evalExpr platform wm a = v)
    (checked : checkedArgs platform wm args = some values) : evalArgs platform wm args = values := by
  induction args generalizing values with
  | nil => exact Option.some.inj checked
  | cons a rest ih =>
    rw [List.forall_mem_cons] at each
    simp only [checkedArgs, Option.bind_eq_bind, Option.bind_eq_some_iff, Option.map_eq_some_iff] at checked
    obtain ⟨v, first, later, found, rfl⟩ := checked
    rw [evalArgs, each.1 v first, ih each.2 found]

theorem checkedExpr_some {wm : WorkingMemory} {e : Expr} {v : Value} (checked : checkedExpr platform wm e = some v) :
    evalExpr platform wm e = v := by
  induction e generalizing v with
  | literal value => exact Option.some.inj checked
  | path p => exact Option.some.inj checked
  | call name args ih =>
    obtain ⟨values, found, rfl⟩ := Option.map_eq_some_iff.mp checked
    rw [evalExpr, checkedArgs_some (fun a member _ => ih a member) found]
  | unary op e ih =>
    cases op
    obtain ⟨w, found, rfl⟩ := Option.map_eq_some_iff.mp checked
    rw [evalExpr, ih found]
  | binary op l r ihL ihR =>
    cases op
    case and =>
      simp only [checkedExpr, Option.bind_eq_bind, Option.bind_eq_some_iff] at checked
      obtain ⟨lv, left, checked⟩ := checked
      rw [evalExpr, ihL left]
      split at checked
      case isTrue holds =>
        obtain ⟨rv, right, rfl⟩ := Option.map_eq_some_iff.mp checked
        rw [holds, Bool.true_and, ihR right]
      case isFalse fails =>
        cases checked
        rw [Bool.eq_false_of_not_eq_true fails, Bool.false_and]
    case or =>
      simp only [checkedExpr, Option.bind_eq_bind, Option.bind_eq_some_iff] at checked
      obtain ⟨lv, left, checked⟩ := checked
      rw [evalExpr, ihL left]
      split at checked
      case isTrue holds =>
        cases checked
        rw [holds, Bool.true_or]
      case isFalse fails =>
        obtain ⟨rv, right, rfl⟩ := Option.map_eq_some_iff.mp checked
        rw [Bool.eq_false_of_not_eq_true fails, Bool.false_or, ihR right]
    all_goals
      simp only [checkedExpr, Option.bind_eq_bind, Option.bind_eq_some_iff] at checked
      obtain ⟨lv, left, rv, right, checked⟩ := checked
      have same := checkedValue_some checked
      rw [← ihL left, ← ihR right] at same
      exact same

-- Unbounded integers

/-- The value of an arithmetic expression: an integer of any size, or a text. -/
inductive Quantity where
  | number (n : Int)
  | text (s : String)

namespace Quantity

def ofValue : Value → Quantity
  | .str s => .text s
  | v => .number v.asInt.toInt

def toValue : Quantity → Value
  | .number n => .int (Int64.ofInt n)
  | .text s => .str s

def toText : Quantity → String
  | .number n => String.ofList (Text.ofInt n)
  | .text s => s

def add : Quantity → Quantity → Quantity
  | .number m, .number n => .number (m + n)
  | a, b => .text (a.toText ++ b.toText)

def Fits : Quantity → Prop
  | .number n => FitsI64 n
  | .text _ => True

instance : (q : Quantity) → Decidable q.Fits
  | .number n => inferInstanceAs (Decidable (FitsI64 n))
  | .text _ => inferInstanceAs (Decidable True)

end Quantity

structure Calculus where
  reads : String → Int
  divide : Int → Int → Int

namespace Calculus

/-- The mathematics: integers of any size and quotients truncated towards zero. -/
def exact : Calculus where
  reads s := (Text.parseInt s.toList).getD 0
  divide := Int.tdiv

/-- The engine's: a text that is no `i64` counts as zero, a divisor as at least one. -/
def coded : Calculus where
  reads s := (Value.str s).asInt.toInt
  divide m n := m.tdiv (max n 1)

variable (c : Calculus)

def toInt : Quantity → Int
  | .number n => n
  | .text s => c.reads s

def combine (op : BinOp) (a b : Quantity) : Quantity :=
  match op with
  | .add => a.add b
  | .sub => .number (c.toInt a - c.toInt b)
  | .mul => .number (c.toInt a * c.toInt b)
  | _ => .number (c.divide (c.toInt a) (c.toInt b))

end Calculus

variable (platform)

def quantity (c : Calculus) (wm : WorkingMemory) : Expr → Quantity
  | .literal v => .ofValue v
  | .path p => .ofValue (wm.readPath platform p)
  | .binary op l r => c.combine op (quantity c wm l) (quantity c wm r)
  | _ => .number 0

def Bounded (c : Calculus) (wm : WorkingMemory) : Expr → Prop
  | .binary op l r => Bounded c wm l ∧ Bounded c wm r ∧ (quantity platform c wm (.binary op l r)).Fits
  | _ => True

/-- Mathematically every result and every number an operation reads fits, and no divisor is zero. -/
def InRange (wm : WorkingMemory) : Expr → Prop
  | .binary op l r => InRange wm l ∧ InRange wm r ∧ (quantity platform .exact wm (.binary op l r)).Fits ∧
      (op ≠ .add → FitsI64 (Calculus.exact.toInt (quantity platform .exact wm l)) ∧
        FitsI64 (Calculus.exact.toInt (quantity platform .exact wm r))) ∧
      (op = .div → Calculus.exact.toInt (quantity platform .exact wm r) ≠ 0)
  | _ => True

/-- Built from `+`, `-`, `*` and `/` over integer literals and paths that read as an integer or a text. -/
inductive Arithmetic (wm : WorkingMemory) : Expr → Prop
  | literal (i : Int64) : Arithmetic wm (.literal (.int i))
  | number {p : Path} {i : Int64} (reads : wm.readPath platform p = .int i) : Arithmetic wm (.path p)
  | text {p : Path} {s : String} (reads : wm.readPath platform p = .str s) : Arithmetic wm (.path p)
  | operation {op : BinOp} {l r : Expr} (arithmetical : op ∈ [BinOp.add, .sub, .mul, .div]) (left : Arithmetic wm l)
      (right : Arithmetic wm r) : Arithmetic wm (.binary op l r)

variable {platform}

-- Quantities as values

theorem asInt_coded (q : Quantity) : q.toValue.asInt = Int64.ofInt (Calculus.coded.toInt q) := by
  cases q with
  | number n => rfl
  | text s => exact (Int64.ofInt_toInt _).symm

theorem asInt_exact {q : Quantity} (fits : FitsI64 (Calculus.exact.toInt q)) :
    q.toValue.asInt = Int64.ofInt (Calculus.exact.toInt q) := by
  cases q with
  | number n => rfl
  | text s =>
    apply Int64.toInt_inj.mp
    rw [toInt_ofI64 fits]
    exact parseI64_of_fits fits

theorem asStr_toValue {q : Quantity} (fits : q.Fits) : q.toValue.asStr = q.toText := by
  cases q with
  | number n => rw [Quantity.toValue, Value.asStr, Quantity.toText, toInt_ofI64 fits]
  | text s => rfl

theorem valueAdd_toValue {a b : Quantity} (fitsA : a.Fits) (fitsB : b.Fits) :
    valueAdd a.toValue b.toValue = (a.add b).toValue := by
  have textA := asStr_toValue fitsA
  have textB := asStr_toValue fitsB
  cases a <;> cases b
  · rw [Quantity.toValue, Quantity.toValue, Quantity.add, Quantity.toValue, Int64.ofInt_add]
    rfl
  · exact congrArg (fun text => Value.str (text ++ _)) textA
  · exact congrArg (fun text => Value.str (_ ++ text)) textB
  · rfl

theorem checkedI64_eq (n : Int) :
    (checkedI64 n).map Value.int = if FitsI64 n then some (Quantity.number n).toValue else none := by
  unfold checkedI64
  split <;> rfl

theorem checkedAdd_toValue {a b : Quantity} (fitsA : a.Fits) (fitsB : b.Fits) :
    checkedAdd a.toValue b.toValue = if (a.add b).Fits then some (a.add b).toValue else none := by
  have textA := asStr_toValue fitsA
  have textB := asStr_toValue fitsB
  cases a with
  | number m =>
    cases b with
    | number n =>
      have unfolded : checkedAdd (Quantity.number m).toValue (Quantity.number n).toValue =
          (checkedI64 ((Int64.ofInt m).toInt + (Int64.ofInt n).toInt)).map .int := rfl
      rw [unfolded, toInt_ofI64 fitsA, toInt_ofI64 fitsB]
      exact checkedI64_eq (m + n)
    | text s => exact congrArg (fun text => some (Value.str (text ++ s))) textA
  | text s => exact congrArg (fun text => some (Value.str (s ++ text))) textB

theorem fits_coded {q : Quantity} (fits : q.Fits) : FitsI64 (Calculus.coded.toInt q) := by
  cases q with
  | number n => exact fits
  | text s => exact fitsI64_toInt _

theorem toInt_coded {q : Quantity} (fits : q.Fits) : q.toValue.asInt.toInt = Calculus.coded.toInt q := by
  rw [asInt_coded, toInt_ofI64 (fits_coded fits)]

theorem checkedValue_toValue {op : BinOp} (arithmetical : op ∈ [BinOp.add, .sub, .mul, .div]) {a b : Quantity}
    (fitsA : a.Fits) (fitsB : b.Fits) : checkedValue op a.toValue b.toValue =
      if (Calculus.coded.combine op a b).Fits then some (Calculus.coded.combine op a b).toValue else none := by
  simp only [List.mem_cons, List.not_mem_nil, or_false] at arithmetical
  obtain rfl | rfl | rfl | rfl := arithmetical
  · exact checkedAdd_toValue fitsA fitsB
  · rw [checkedValue, toInt_coded fitsA, toInt_coded fitsB]
    exact checkedI64_eq _
  · rw [checkedValue, toInt_coded fitsA, toInt_coded fitsB]
    exact checkedI64_eq _
  · have divisor := toInt_max_one b.toValue.asInt
    have nonzero : max b.toValue.asInt 1 ≠ 0 := by
      intro zero
      rw [zero, Int64.toInt_zero] at divisor
      omega
    simp only [checkedValue, if_neg nonzero]
    rw [divisor, toInt_coded fitsA, toInt_coded fitsB]
    exact checkedI64_eq _

section
variable {wm : WorkingMemory} {e : Expr}

/-- A debug build goes on exactly if every result fits, and then it has computed them. -/
theorem checkedExpr_eq (arithmetic : Arithmetic platform wm e) :
    (Bounded platform .coded wm e → (quantity platform .coded wm e).Fits ∧
      checkedExpr platform wm e = some (quantity platform .coded wm e).toValue) ∧
      (¬ Bounded platform .coded wm e → checkedExpr platform wm e = none) := by
  induction arithmetic with
  | literal i =>
    refine ⟨fun _ => ⟨fitsI64_toInt i, ?_⟩, fun unbounded => absurd trivial unbounded⟩
    exact congrArg (fun i => some (Value.int i)) (Int64.ofInt_toInt i).symm
  | number reads =>
    refine ⟨fun _ => ?_, fun unbounded => absurd trivial unbounded⟩
    rw [quantity, reads, checkedExpr, reads]
    exact ⟨fitsI64_toInt _, congrArg (fun i => some (Value.int i)) (Int64.ofInt_toInt _).symm⟩
  | text reads =>
    refine ⟨fun _ => ?_, fun unbounded => absurd trivial unbounded⟩
    rw [quantity, reads, checkedExpr, reads]
    exact ⟨trivial, rfl⟩
  | @operation op l r arithmetical _ _ ihL ihR =>
    have unfolded : checkedExpr platform wm (.binary op l r) =
        (checkedExpr platform wm l).bind fun lv => (checkedExpr platform wm r).bind fun rv => checkedValue op lv rv := by
      simp only [List.mem_cons, List.not_mem_nil, or_false] at arithmetical
      obtain rfl | rfl | rfl | rfl := arithmetical <;> rfl
    rw [Bounded, unfolded]
    by_cases boundedL : Bounded platform .coded wm l
    · obtain ⟨fitsL, left⟩ := ihL.1 boundedL
      by_cases boundedR : Bounded platform .coded wm r
      · obtain ⟨fitsR, right⟩ := ihR.1 boundedR
        rw [left, right, Option.bind_some, Option.bind_some, checkedValue_toValue arithmetical fitsL fitsR, quantity]
        constructor
        · rintro ⟨-, -, fits⟩
          exact ⟨fits, if_pos fits⟩
        · intro unbounded
          exact if_neg fun fits => unbounded ⟨boundedL, boundedR, fits⟩
      · rw [left, ihR.2 boundedR]
        exact ⟨fun bounded => absurd bounded.2.1 boundedR, fun _ => rfl⟩
    · rw [ihL.2 boundedL]
      exact ⟨fun bounded => absurd bounded.1 boundedL, fun _ => rfl⟩

theorem checkedExpr_isSome_iff (arithmetic : Arithmetic platform wm e) :
    (checkedExpr platform wm e).isSome ↔ Bounded platform .coded wm e := by
  by_cases bounded : Bounded platform .coded wm e
  · simp [((checkedExpr_eq arithmetic).1 bounded).2, bounded]
  · simp [(checkedExpr_eq arithmetic).2 bounded, bounded]

/-- Over operands and a result that fit, the engine computes the exact result, a quotient exactly if its divisor is
positive or its dividend zero. -/
theorem binaryValue_toValue {op : BinOp} (arithmetical : op ∈ [BinOp.add, .sub, .mul, .div]) {a b : Quantity}
    (fitsA : a.Fits) (fitsB : b.Fits) (fits : (Calculus.exact.combine op a b).Fits)
    (operands : op ≠ .add → FitsI64 (Calculus.exact.toInt a) ∧ FitsI64 (Calculus.exact.toInt b))
    (divisor : op = .div → Calculus.exact.toInt b ≠ 0) :
    binaryValue op a.toValue b.toValue = (Calculus.exact.combine op a b).toValue ↔
      (op = .div → 0 < Calculus.exact.toInt b ∨ Calculus.exact.toInt a = 0) := by
  simp only [List.mem_cons, List.not_mem_nil, or_false] at arithmetical
  obtain rfl | rfl | rfl | rfl := arithmetical
  · exact iff_of_true (valueAdd_toValue fitsA fitsB) fun other => by cases other
  · obtain ⟨readsA, readsB⟩ := operands (by decide)
    refine iff_of_true ?_ fun other => by cases other
    rw [binaryValue, asInt_exact readsA, asInt_exact readsB, ← Int64.ofInt_sub]
    rfl
  · obtain ⟨readsA, readsB⟩ := operands (by decide)
    refine iff_of_true ?_ fun other => by cases other
    rw [binaryValue, asInt_exact readsA, asInt_exact readsB, ← Int64.ofInt_mul]
    rfl
  · obtain ⟨readsA, readsB⟩ := operands (by decide)
    have quotient := clamped_div_iff readsA readsB fits (divisor rfl)
    rw [binaryValue, asInt_exact readsA, asInt_exact readsB]
    simp only [forall_const]
    rw [← quotient]
    exact Iff.of_eq (Value.int.injEq _ _)

end

-- The parts of an expression

def EachPart (P : Expr → Prop) : Expr → Prop
  | .binary op l r => P (.binary op l r) ∧ EachPart P l ∧ EachPart P r
  | e => P e

section
variable (platform) (wm : WorkingMemory)

def ComputedExactly (e : Expr) : Prop :=
  InRange platform wm e → evalExpr platform wm e = (quantity platform .exact wm e).toValue

def DividesUpward (e : Expr) : Prop :=
  ∀ l r, e = .binary .div l r → InRange platform wm e →
    0 < Calculus.exact.toInt (quantity platform .exact wm r) ∨ Calculus.exact.toInt (quantity platform .exact wm l) = 0

/-- Every part is computed exactly where it is in range, and a debug build does not panic. -/
structure ArithmeticSound (e : Expr) : Prop where
  exact : EachPart (ComputedExactly platform wm) e
  noPanic : (checkedExpr platform wm e).isSome

end

theorem EachPart.self {P : Expr → Prop} {e : Expr} (each : EachPart P e) : P e := by
  cases e with
  | binary op l r => exact each.1
  | literal v => exact each
  | path p => exact each
  | call name args => exact each
  | unary op e => exact each

theorem fits_exact {wm : WorkingMemory} {e : Expr} (arithmetic : Arithmetic platform wm e)
    (ranged : InRange platform wm e) : (quantity platform .exact wm e).Fits := by
  cases arithmetic with
  | literal i => exact fitsI64_toInt i
  | number reads =>
    rw [quantity, reads]
    exact fitsI64_toInt _
  | text reads =>
    rw [quantity, reads]
    exact trivial
  | operation => exact ranged.2.2.1

theorem evalExpr_operation {wm : WorkingMemory} {op : BinOp} (arithmetical : op ∈ [BinOp.add, .sub, .mul, .div])
    (l r : Expr) : evalExpr platform wm (.binary op l r) = binaryValue op (evalExpr platform wm l) (evalExpr platform wm r) := by
  simp only [List.mem_cons, List.not_mem_nil, or_false] at arithmetical
  obtain rfl | rfl | rfl | rfl := arithmetical <;> rfl

theorem computedExactly_operation {wm : WorkingMemory} {op : BinOp} {l r : Expr}
    (arithmetical : op ∈ [BinOp.add, .sub, .mul, .div]) (left : Arithmetic platform wm l)
    (right : Arithmetic platform wm r) (exactL : ComputedExactly platform wm l) (exactR : ComputedExactly platform wm r) :
    ComputedExactly platform wm (.binary op l r) ↔ DividesUpward platform wm (.binary op l r) := by
  have step : InRange platform wm (.binary op l r) →
      (evalExpr platform wm (.binary op l r) = (quantity platform .exact wm (.binary op l r)).toValue ↔
        (op = .div → 0 < Calculus.exact.toInt (quantity platform .exact wm r) ∨
          Calculus.exact.toInt (quantity platform .exact wm l) = 0)) := by
    rintro ⟨rangedL, rangedR, fits, operands, divisor⟩
    rw [evalExpr_operation arithmetical, exactL rangedL, exactR rangedR]
    exact binaryValue_toValue arithmetical (fits_exact left rangedL) (fits_exact right rangedR) fits operands divisor
  constructor
  · intro exact l' r' same ranged
    cases same
    exact (step ranged).mp (exact ranged) rfl
  · intro upward ranged
    exact (step ranged).mpr fun isDiv => upward l r (by rw [isDiv]) ranged

theorem computedExactly_iff {wm : WorkingMemory} {e : Expr} (arithmetic : Arithmetic platform wm e) :
    EachPart (ComputedExactly platform wm) e ↔ EachPart (DividesUpward platform wm) e := by
  induction arithmetic with
  | literal i =>
    have exact : ComputedExactly platform wm (.literal (.int i)) :=
      fun _ => congrArg Value.int (Int64.ofInt_toInt i).symm
    exact iff_of_true exact fun _ _ same => by cases same
  | @number p i reads =>
    have exact : ComputedExactly platform wm (.path p) := by
      intro _
      rw [evalExpr, quantity, reads]
      exact congrArg Value.int (Int64.ofInt_toInt i).symm
    exact iff_of_true exact fun _ _ same => by cases same
  | @text p s reads =>
    have exact : ComputedExactly platform wm (.path p) := by
      intro _
      rw [evalExpr, quantity, reads]
      rfl
    exact iff_of_true exact fun _ _ same => by cases same
  | @operation op l r arithmetical left right ihL ihR =>
    rw [EachPart, EachPart, ← ihL, ← ihR]
    apply and_congr_left
    rintro ⟨exactL, exactR⟩
    exact computedExactly_operation arithmetical left right exactL.self exactR.self

/-- Arithmetic is exact and does not panic exactly if divisions in range divide upward and the results the engine
goes through fit. -/
theorem arithmetic_sound_iff (platform : Platform) (wm : WorkingMemory) {e : Expr} (arithmetic : Arithmetic platform wm e) :
    ArithmeticSound platform wm e ↔ EachPart (DividesUpward platform wm) e ∧ Bounded platform .coded wm e := by
  rw [← computedExactly_iff arithmetic, ← checkedExpr_isSome_iff arithmetic]
  constructor
  · rintro ⟨exact, noPanic⟩
    exact ⟨exact, noPanic⟩
  · rintro ⟨exact, noPanic⟩
    exact ⟨exact, noPanic⟩

def riskScore : Expr := .path ⟨[.field "Request", .field "RiskScore"]⟩

theorem arithmetic_sound_half :
    let wm := WorkingMemory.new (.bare "GET" "/") .new
    ArithmeticSound .plain wm (.binary .div riskScore (.literal (.int 2))) ↔
      EachPart (DividesUpward .plain wm) (.binary .div riskScore (.literal (.int 2))) ∧
        Bounded .plain .coded wm (.binary .div riskScore (.literal (.int 2))) := by
  apply arithmetic_sound_iff
  exact .operation (by decide) (.number rfl) (.literal 2)

def largestCount : RequestContext :=
  { RequestContext.bare "GET" "/" with headers := AssocMap.empty.insert "x-count" "9223372036854775807" }

def headerCount : Expr := .path ⟨[.field "Request", .field "Headers", .index "X-Count"]⟩

/-- A negative divisor counts as one, and a number from a header overflows when it is doubled. -/
theorem arithmetic_unsound :
    ¬ ArithmeticSound .plain (.new largestCount .new) (.binary .div (.literal (.int 6)) (.literal (.int (-2)))) ∧
      ¬ ArithmeticSound .plain (.new largestCount .new) (.binary .mul headerCount (.literal (.int 2))) := by
  constructor
  · rintro ⟨exact, -⟩
    have ranged : InRange .plain (.new largestCount .new) (.binary .div (.literal (.int 6)) (.literal (.int (-2)))) :=
      ⟨trivial, trivial, by decide +kernel, fun _ => by decide +kernel, fun _ => by decide +kernel⟩
    have computed : Value.int 6 = Value.int (-3) := exact.self ranged
    revert computed
    decide
  · rintro ⟨-, noPanic⟩
    revert noPanic
    decide +kernel

end MiniWaf.Rete
