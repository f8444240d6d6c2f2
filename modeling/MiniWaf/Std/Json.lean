import MiniWaf.Std.AssocMap
import MiniWaf.Std.F64

/-! JSON values as `serde_json` hands them to the program. -/

set_option autoImplicit false

namespace MiniWaf

/-- `serde_json::Number`. -/
inductive JsonNumber where
  | posInt (n : UInt64)
  | negInt (n : Int64)
  | float (f : F64)
  deriving DecidableEq, Repr

def JsonNumber.ofI64 (n : Int64) : JsonNumber := if n < 0 then .negInt n else .posInt n.toUInt64

inductive Json where
  | null
  | bool (b : Bool)
  | number (n : JsonNumber)
  | string (s : String)
  | array (items : List Json)
  | object (fields : List (String × Json))
  deriving Repr, Inhabited

namespace Json

def asStr : Json → Option String
  | .string s => some s
  | _ => none

def asBool : Json → Option Bool
  | .bool b => some b
  | _ => none

def asArray : Json → Option (List Json)
  | .array items => some items
  | _ => none

/-- The entries of an object, none of anything else. -/
def fields : Json → List (String × Json)
  | .object fields => fields
  | _ => []

def lookup (key : String) (fields : List (String × Json)) : Option Json :=
  (fields.find? fun e => e.1 = key).map Prod.snd

/-- `Value::get` with a string key. -/
def get (v : Json) (key : String) : Option Json := lookup key v.fields

def insertAll (entries fields : List (String × Json)) : List (String × Json) :=
  entries.foldl (fun fields e => AssocMap.insertEntry e.1 e.2 fields) fields

/-- `as_object_mut` and then the insertions, nothing on other values. -/
def extend (entries : List (String × Json)) : Json → Json
  | .object fields => .object (insertAll entries fields)
  | v => v

-- Equality

mutual
/-- Values with one text, as `to_string` writes them. -/
def same : Json → Json → Bool
  | .null, .null => true
  | .bool a, .bool b => a = b
  | .number a, .number b => a = b
  | .string a, .string b => a = b
  | .array a, .array b => sameItems a b
  | .object a, .object b => sameFields a b
  | _, _ => false

def sameItems : List Json → List Json → Bool
  | [], [] => true
  | a :: as, b :: bs => same a b && sameItems as bs
  | _, _ => false

def sameFields : List (String × Json) → List (String × Json) → Bool
  | [], [] => true
  | (k, a) :: as, (l, b) :: bs => decide (k = l) && same a b && sameFields as bs
  | _, _ => false
end

mutual
theorem same_iff (a b : Json) : same a b = true ↔ a = b := by
  cases a with
  | array as =>
    cases b with
    | array bs => rw [same, sameItems_iff as bs, Json.array.injEq]
    | _ => simp [same]
  | object as =>
    cases b with
    | object bs => rw [same, sameFields_iff as bs, Json.object.injEq]
    | _ => simp [same]
  | _ => cases b <;> simp [same]

theorem sameItems_iff (as bs : List Json) : sameItems as bs = true ↔ as = bs := by
  cases as with
  | nil => cases bs <;> simp [sameItems]
  | cons a as =>
    cases bs with
    | nil => simp [sameItems]
    | cons b bs => rw [sameItems, Bool.and_eq_true, same_iff a b, sameItems_iff as bs, List.cons.injEq]

theorem sameFields_iff (as bs : List (String × Json)) : sameFields as bs = true ↔ as = bs := by
  cases as with
  | nil => cases bs <;> simp [sameFields]
  | cons e as =>
    cases bs with
    | nil => simp [sameFields]
    | cons f bs =>
      obtain ⟨k, a⟩ := e
      obtain ⟨l, b⟩ := f
      rw [sameFields, Bool.and_eq_true, Bool.and_eq_true, decide_eq_true_eq, same_iff a b, sameFields_iff as bs,
        List.cons.injEq, Prod.mk.injEq]
end

instance : DecidableEq Json := fun a b => decidable_of_iff _ (same_iff a b)

-- Lookups

theorem lookup_insertEntry (entries : List (String × Json)) (key other : String) (v : Json) :
    lookup other (AssocMap.insertEntry key v entries) = if other = key then some v else lookup other entries := by
  by_cases self : other = key
  · rw [if_pos self, self, lookup, AssocMap.find?_insertEntry_self]
    rfl
  · rw [if_neg self, lookup, lookup, AssocMap.find?_insertEntry_of_ne key other v entries self]

theorem insertAll_cons (e : String × Json) (entries fields : List (String × Json)) :
    insertAll (e :: entries) fields = insertAll entries (AssocMap.insertEntry e.1 e.2 fields) := rfl

theorem lookup_cons (e : String × Json) (rest : List (String × Json)) (key : String) :
    lookup key (e :: rest) = if e.1 = key then some e.2 else lookup key rest := by
  by_cases self : e.1 = key <;> simp [lookup, self]

theorem lookup_append (first second : List (String × Json)) (key : String) :
    lookup key (first ++ second) = (lookup key first).or (lookup key second) := by
  rw [lookup, lookup, lookup, List.find?_append]
  cases first.find? fun e => decide (e.1 = key) <;> rfl

theorem lookup_insertAll (entries fields : List (String × Json)) (key : String) :
    lookup key (insertAll entries fields) = (lookup key entries.reverse).or (lookup key fields) := by
  induction entries generalizing fields with
  | nil => rfl
  | cons e rest ih =>
    rw [insertAll_cons, ih, lookup_insertEntry, List.reverse_cons, lookup_append, Option.or_assoc, lookup_cons]
    by_cases self : e.1 = key
    · rw [if_pos self, if_pos self.symm, Option.some_or]
    · rw [if_neg self, if_neg (Ne.symm self)]
      rfl

theorem nodup_insertAll (entries : List (String × Json)) {fields : List (String × Json)}
    (distinct : (fields.map Prod.fst).Nodup) : ((insertAll entries fields).map Prod.fst).Nodup := by
  induction entries generalizing fields with
  | nil => exact distinct
  | cons e rest ih => exact ih (AssocMap.nodup_insertEntry e.1 e.2 fields distinct)

theorem lookup_reverse {fields : List (String × Json)} (distinct : (fields.map Prod.fst).Nodup) (key : String) :
    lookup key fields.reverse = lookup key fields := by
  induction fields with
  | nil => rfl
  | cons e rest ih =>
    obtain ⟨fresh, tail⟩ := List.nodup_cons.mp distinct
    rw [List.reverse_cons, lookup_append, ih tail, lookup_cons, lookup_cons]
    by_cases self : e.1 = key
    · have absent : lookup key rest = none := by
        rw [lookup, Option.map_eq_none_iff, List.find?_eq_none]
        intro other member
        rw [decide_eq_true_eq]
        intro same
        exact fresh (self.trans same.symm ▸ List.mem_map_of_mem member)
      rw [absent, if_pos self, if_pos self, Option.none_or]
    · rw [if_neg self, if_neg self]
      cases lookup key rest <;> rfl

theorem object_of_get {v : Json} {key : String} {found : Json} (has : v.get key = some found) :
    ∃ fields, v = .object fields := by
  cases v with
  | object fields => exact ⟨fields, rfl⟩
  | _ => cases has

theorem get_extend {v : Json} {fields : List (String × Json)} (object : v = .object fields)
    (entries : List (String × Json)) (key : String) :
    (v.extend entries).get key = (lookup key entries.reverse).or (v.get key) := by
  rw [object]
  exact lookup_insertAll entries fields key

theorem nodup_extend (entries : List (String × Json)) {v : Json} (distinct : (v.fields.map Prod.fst).Nodup) :
    ((v.extend entries).fields.map Prod.fst).Nodup := by
  cases v with
  | object fields => exact nodup_insertAll entries distinct
  | _ => exact List.nodup_nil

end Json

end MiniWaf
