import Mathlib.Data.List.Nodup
import Mathlib.Logic.Function.Basic

/-! Finite maps with an iteration order, as `HashMap` shows them to its users:
distinct keys, lookup, insertion that replaces, and a fixed but unspecified
order of iteration, here the order of the entries.
-/

set_option autoImplicit false

namespace MiniWaf

structure AssocMap (K V : Type) where
  entries : List (K × V)
  nodup : (entries.map Prod.fst).Nodup

namespace AssocMap

variable {K V : Type}

theorem ext {first second : AssocMap K V} (same : first.entries = second.entries) : first = second := by
  cases first
  cases second
  cases same
  rfl

def empty : AssocMap K V := ⟨[], List.nodup_nil⟩

instance : Inhabited (AssocMap K V) := ⟨empty⟩

def size (m : AssocMap K V) : Nat := m.entries.length

variable [DecidableEq K]

def get (m : AssocMap K V) (key : K) : Option V :=
  (m.entries.find? fun e => e.1 = key).map Prod.snd

def containsKey (m : AssocMap K V) (key : K) : Bool := m.entries.any fun e => e.1 = key

def insertEntry (key : K) (value : V) : List (K × V) → List (K × V)
  | [] => [(key, value)]
  | e :: rest => if e.1 = key then (key, value) :: rest else e :: insertEntry key value rest

theorem mem_keys_insertEntry (key : K) (value : V) (entries : List (K × V)) (k : K) :
    k ∈ (insertEntry key value entries).map Prod.fst ↔ k = key ∨ k ∈ entries.map Prod.fst := by
  induction entries with
  | nil => simp [insertEntry]
  | cons e rest ih =>
    rw [insertEntry]
    split
    · rename_i same
      simp [same]
    · simp only [List.map_cons, List.mem_cons, ih]
      tauto

theorem nodup_insertEntry (key : K) (value : V) (entries : List (K × V))
    (distinct : (entries.map Prod.fst).Nodup) :
    ((insertEntry key value entries).map Prod.fst).Nodup := by
  induction entries with
  | nil => simp [insertEntry]
  | cons e rest ih =>
    obtain ⟨fresh, tail⟩ := List.nodup_cons.mp distinct
    rw [insertEntry]
    split
    · rename_i same
      subst same
      exact List.nodup_cons.mpr ⟨fresh, tail⟩
    · rename_i other
      refine List.nodup_cons.mpr ⟨?_, ih tail⟩
      rw [mem_keys_insertEntry]
      rintro (same | member)
      · exact other same
      · exact fresh member

def insert (m : AssocMap K V) (key : K) (value : V) : AssocMap K V :=
  ⟨insertEntry key value m.entries, nodup_insertEntry key value m.entries m.nodup⟩

theorem find?_insertEntry_self (key : K) (value : V) (entries : List (K × V)) :
    (insertEntry key value entries).find? (fun e => e.1 = key) = some (key, value) := by
  induction entries with
  | nil => simp [insertEntry]
  | cons e rest ih =>
    rw [insertEntry]
    split
    · simp
    · rename_i other
      rw [List.find?_cons_of_neg (by simpa using other)]
      exact ih

theorem find?_insertEntry_of_ne (key other : K) (value : V) (entries : List (K × V)) (ne : other ≠ key) :
    (insertEntry key value entries).find? (fun e => e.1 = other) = entries.find? fun e => e.1 = other := by
  induction entries with
  | nil => simp [insertEntry, ne.symm]
  | cons e rest ih =>
    rw [insertEntry]
    split
    · rename_i same
      simp [same, ne.symm]
    · simp only [List.find?_cons, ih]

@[simp] theorem get_insert_self (m : AssocMap K V) (key : K) (value : V) :
    (m.insert key value).get key = some value := by
  simp [get, insert, find?_insertEntry_self]

@[simp] theorem get_insert_of_ne (m : AssocMap K V) (key other : K) (value : V) (ne : other ≠ key) :
    (m.insert key value).get other = m.get other := by
  simp [get, insert, find?_insertEntry_of_ne key other value m.entries ne]

@[simp] theorem get_empty (key : K) : (empty : AssocMap K V).get key = none := rfl

theorem mem_insertEntry {key : K} {value : V} {entries : List (K × V)} {e : K × V}
    (member : e ∈ insertEntry key value entries) : e = (key, value) ∨ e ∈ entries := by
  induction entries with
  | nil => exact .inl (List.mem_singleton.mp member)
  | cons first rest ih =>
    rw [insertEntry] at member
    split at member
    · rcases List.mem_cons.mp member with same | later
      · exact .inl same
      · exact .inr (List.mem_cons_of_mem first later)
    · rcases List.mem_cons.mp member with same | later
      · exact .inr (same ▸ List.mem_cons_self)
      · exact (ih later).imp_right (List.mem_cons_of_mem first)

theorem mem_entries_of_get {m : AssocMap K V} {key : K} {value : V} (found : m.get key = some value) :
    (key, value) ∈ m.entries := by
  rw [get, Option.map_eq_some_iff] at found
  obtain ⟨e, first, rfl⟩ := found
  have same : e.1 = key := by simpa using List.find?_some first
  exact same ▸ List.mem_of_find?_eq_some first

theorem containsKey_eq (m : AssocMap K V) (key : K) : m.containsKey key = (m.get key).isSome := by
  rw [containsKey, get, Option.isSome_map, Bool.eq_iff_iff, List.any_eq_true, List.find?_isSome]

theorem length_insertEntry {key : K} (value : V) {entries : List (K × V)} (fresh : ∀ e ∈ entries, e.1 ≠ key) :
    (insertEntry key value entries).length = entries.length + 1 := by
  induction entries with
  | nil => rfl
  | cons e rest ih =>
    obtain ⟨other, later⟩ := List.forall_mem_cons.mp fresh
    rw [insertEntry, if_neg other, List.length_cons, ih later, List.length_cons]

theorem size_insert_of_fresh (m : AssocMap K V) {key : K} (value : V) (fresh : m.get key = none) :
    (m.insert key value).size = m.size + 1 := by
  apply length_insertEntry
  intro e member same
  rw [get, Option.map_eq_none_iff, List.find?_eq_none] at fresh
  exact fresh e member (decide_eq_true same)

def erase (m : AssocMap K V) (key : K) : AssocMap K V :=
  ⟨m.entries.filter fun e => e.1 ≠ key, m.nodup.sublist (List.filter_sublist.map _)⟩

theorem get_erase_of_ne (m : AssocMap K V) (key other : K) (ne : other ≠ key) : (m.erase key).get other = m.get other := by
  rw [get, get, erase, List.find?_filter]
  congr 2
  funext e
  by_cases here : e.1 = other
  · simp [here, ne]
  · simp [here]

end AssocMap

end MiniWaf
