import Mathlib.Data.List.Nodup
import Mathlib.Logic.Function.Basic

/-! Hash-consing tables: nodes shared under a key, found through an index.

A shared node stands for every later node with its key, so a reading of the
nodes survives interning exactly as far as nodes with equal keys read alike.
-/

set_option autoImplicit false

namespace MiniWaf.Interning

variable {Node Key : Type}

structure Table (Node Key : Type) where
  nodes : List Node
  index : Key → Option Nat

namespace Table

def empty : Table Node Key := ⟨[], fun _ => none⟩

variable (key : Node → Key)

/-- The index maps exactly the keys of the nodes to their positions. -/
structure WellFormed (table : Table Node Key) : Prop where
  sound : ∀ k i, table.index k = some i → ∃ node, table.nodes[i]? = some node ∧ key node = k
  complete : ∀ i node, table.nodes[i]? = some node → table.index (key node) = some i

variable {key} in
theorem WellFormed.index_iff {table : Table Node Key} (wf : table.WellFormed key) (k : Key) (i : Nat) :
    table.index k = some i ↔ ∃ node, table.nodes[i]? = some node ∧ key node = k := by
  constructor
  · exact wf.sound k i
  · rintro ⟨node, at_i, rfl⟩
    exact wf.complete i node at_i

variable {key} in
theorem WellFormed.nodup {table : Table Node Key} (wf : table.WellFormed key) : (table.nodes.map key).Nodup := by
  rw [List.nodup_iff_getElem?_ne_getElem?]
  intro i j lt bound same
  rw [List.length_map] at bound
  have at_i := List.getElem?_eq_getElem (Nat.lt_trans lt bound)
  have at_j := List.getElem?_eq_getElem bound
  rw [List.getElem?_map, List.getElem?_map, at_i, at_j, Option.map_some, Option.map_some, Option.some.injEq] at same
  have first := wf.complete i _ at_i
  rw [same, wf.complete j _ at_j, Option.some.injEq] at first
  omega

variable [DecidableEq Key]

def intern (table : Table Node Key) (node : Node) : Table Node Key × Nat :=
  match table.index (key node) with
  | some i => (table, i)
  | none =>
    (⟨table.nodes ++ [node], Function.update table.index (key node) (some table.nodes.length)⟩, table.nodes.length)

variable {key} {table : Table Node Key}

omit [DecidableEq Key] in
theorem wellFormed_empty : (empty : Table Node Key).WellFormed key :=
  ⟨fun _ _ found => by simp [empty] at found, fun _ _ found => by simp [empty] at found⟩

theorem mem_intern {node other : Node} (member : other ∈ (table.intern key node).1.nodes) :
    other ∈ table.nodes ∨ other = node := by
  unfold intern at member
  split at member
  · exact Or.inl member
  · simpa using member

theorem WellFormed.intern (wf : table.WellFormed key) (node : Node) : (table.intern key node).1.WellFormed key := by
  unfold Table.intern
  split
  · exact wf
  · rename_i fresh
    refine ⟨?_, ?_⟩
    · intro k i found
      by_cases same : k = key node
      · subst same
        simp only [Function.update_self, Option.some.injEq] at found
        subst found
        exact ⟨node, by simp, rfl⟩
      · simp only [Function.update_of_ne same] at found
        obtain ⟨other, at_i, keyed⟩ := wf.sound k i found
        have bound := (List.getElem?_eq_some_iff.mp at_i).1
        exact ⟨other, by simpa [List.getElem?_append_left bound] using at_i, keyed⟩
    · intro i other at_i
      by_cases old : i < table.nodes.length
      · rw [List.getElem?_append_left old] at at_i
        have indexed := wf.complete i other at_i
        have ne : key other ≠ key node := by
          intro same
          rw [same, fresh] at indexed
          cases indexed
        simpa [Function.update_of_ne ne] using indexed
      · have bound := (List.getElem?_eq_some_iff.mp at_i).1
        simp only [List.length_append, List.length_singleton] at bound
        have last : i = table.nodes.length := by omega
        subst last
        have same : node = other := by simpa using at_i
        subst same
        simp

theorem WellFormed.intern_lookup (wf : table.WellFormed key) (node : Node) :
    ∃ found, (table.intern key node).1.nodes[(table.intern key node).2]? = some found ∧
      key found = key node ∧ (found ∈ table.nodes ∨ found = node) := by
  unfold Table.intern
  split
  · rename_i i indexed
    obtain ⟨found, at_i, keyed⟩ := wf.sound _ i indexed
    exact ⟨found, at_i, keyed, Or.inl (List.mem_of_getElem? at_i)⟩
  · exact ⟨node, by simp, rfl, Or.inr rfl⟩

/-- Reading the node found gives the interned node's value when equal keys read alike. -/
theorem WellFormed.intern_value {Value : Type} (wf : table.WellFormed key) (node : Node) (value : Node → Value)
    (agree : ∀ other ∈ table.nodes, key other = key node → value other = value node) :
    ((table.intern key node).1.nodes.map value)[(table.intern key node).2]? = some (value node) := by
  obtain ⟨found, at_id, keyed, origin⟩ := wf.intern_lookup node
  rw [List.getElem?_map, at_id, Option.map_some]
  rcases origin with old | rfl
  · rw [agree found old keyed]
  · rfl

end Table

end MiniWaf.Interning
