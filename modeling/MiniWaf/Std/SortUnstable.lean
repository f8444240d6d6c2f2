import Mathlib.Data.List.Sort

/-! `sort_unstable_by_key`, which promises nothing about the order of equal keys. -/

set_option autoImplicit false

namespace MiniWaf

structure SortUnstable {A : Type} (key : A → UInt32) where
  sort : List A → List A
  perm : ∀ l, (sort l).Perm l
  sorted : ∀ l, (sort l).Pairwise fun a b => key a ≤ key b

variable {A : Type} {key : A → UInt32}

theorem pairwise_insertionSort_key (l : List A) :
    (l.insertionSort fun a b => key a ≤ key b).Pairwise fun a b => key a ≤ key b := by
  have : Std.Total fun a b : A => key a ≤ key b := ⟨fun a b => UInt32.le_total _ _⟩
  have : IsTrans A fun a b => key a ≤ key b := ⟨fun _ _ _ => UInt32.le_trans⟩
  exact List.pairwise_insertionSort _ l

/-- Insertion sort is one of the orders the sort may choose. -/
def insertionOrder (key : A → UInt32) : SortUnstable key where
  sort l := l.insertionSort fun a b => key a ≤ key b
  perm := List.perm_insertionSort _
  sorted := pairwise_insertionSort_key

/-- Where no two keys are equal there is one order only. -/
theorem SortUnstable.sort_of_distinct (order : SortUnstable key) {l : List A} (distinct : (l.map key).Nodup) :
    order.sort l = l.insertionSort fun a b => key a ≤ key b := by
  have perm : (order.sort l).Perm (l.insertionSort fun a b => key a ≤ key b) :=
    (order.perm l).trans (List.perm_insertionSort _ l).symm
  refine List.Perm.eq_of_pairwise (fun a b inSorted inOther low high => ?_) (order.sorted l)
    (pairwise_insertionSort_key l) perm
  exact List.inj_on_of_nodup_map distinct ((order.perm l).mem_iff.mp inSorted)
    ((List.perm_insertionSort _ l).mem_iff.mp inOther) (UInt32.le_antisymm low high)

end MiniWaf
