import Mathlib.Data.List.Sort

/-! Where a stable sort puts the elements of a list: entries are told apart by
their positions, so equal elements keep their identity through the sort.
-/

set_option autoImplicit false

namespace MiniWaf.StableSort

variable {A : Type}

-- Order of two entries in a list without repetitions

theorem pair_sublist_of_getElem? {l : List A} {a b : A} {i j : Nat} (first : l[i]? = some a) (second : l[j]? = some b)
    (lt : i < j) : [a, b].Sublist l := by
  induction l generalizing i j with
  | nil => simp at first
  | cons c l ih =>
    cases j with
    | zero => simp at lt
    | succ j =>
      rw [List.getElem?_cons_succ] at second
      cases i with
      | zero =>
        rw [List.getElem?_cons_zero, Option.some.injEq] at first
        subst first
        exact (List.singleton_sublist.mpr (List.mem_of_getElem? second)).cons_cons c
      | succ i =>
        rw [List.getElem?_cons_succ] at first
        exact (ih first second (by omega)).cons c

theorem pair_sublist_or {l : List A} {a b : A} (first : a ∈ l) (second : b ∈ l) (ne : a ≠ b) :
    [a, b].Sublist l ∨ [b, a].Sublist l := by
  obtain ⟨i, at_i⟩ := List.getElem?_of_mem first
  obtain ⟨j, at_j⟩ := List.getElem?_of_mem second
  rcases Nat.lt_trichotomy i j with lt | rfl | lt
  · exact Or.inl (pair_sublist_of_getElem? at_i at_j lt)
  · exact absurd (Option.some.inj (at_i.symm.trans at_j)) ne
  · exact Or.inr (pair_sublist_of_getElem? at_j at_i lt)

theorem mem_front_of_pair {front back : List A} {a b : A} (distinct : (front ++ b :: back).Nodup)
    (pair : [a, b].Sublist (front ++ b :: back)) : a ∈ front := by
  induction front with
  | nil =>
    obtain ⟨fresh, -⟩ := List.nodup_cons.mp distinct
    cases pair with
    | cons _ inside => exact absurd (inside.subset (by simp)) fresh
    | cons_cons _ inside => exact absurd (inside.subset (by simp)) fresh
  | cons c front ih =>
    obtain ⟨-, distinct⟩ := List.nodup_cons.mp distinct
    cases pair with
    | cons _ inside => exact List.mem_cons_of_mem _ (ih distinct inside)
    | cons_cons _ _ => exact List.mem_cons_self

theorem not_both {l : List A} {a b : A} (distinct : l.Nodup) (forward : [a, b].Sublist l)
    (backward : [b, a].Sublist l) : False := by
  obtain ⟨front, back, rfl⟩ := List.append_of_mem (forward.subset (List.mem_cons_of_mem a List.mem_cons_self))
  have inFront := mem_front_of_pair distinct forward
  obtain ⟨ahead, between, rfl⟩ := List.append_of_mem inFront
  rw [List.append_assoc] at distinct backward
  have early := mem_front_of_pair distinct backward
  refine List.disjoint_of_nodup_append distinct early ?_
  simp

-- Sorting with positions

variable (r : A → A → Prop) [DecidableRel r]

def sortedIdx (l : List A) : List (A × Nat) := l.zipIdx.insertionSort fun x y => r x.1 y.1

theorem map_fst_sortedIdx (l : List A) : (sortedIdx r l).map Prod.fst = l.insertionSort r := by
  have sorted := List.map_insertionSort (fun x y : A × Nat => r x.1 y.1) r Prod.fst l.zipIdx fun _ _ _ _ => Iff.rfl
  rw [sortedIdx, sorted, List.zipIdx_map_fst]

theorem mem_sortedIdx {l : List A} {a : A} {i : Nat} : (a, i) ∈ sortedIdx r l ↔ l[i]? = some a := by
  rw [sortedIdx, List.mem_insertionSort]
  exact List.mem_zipIdx_iff_getElem?

theorem nodup_sortedIdx (l : List A) : (sortedIdx r l).Nodup := by
  refine (List.perm_insertionSort _ _).nodup_iff.mpr (List.Nodup.of_map Prod.snd ?_)
  rw [List.zipIdx_map_snd]
  exact List.nodup_range'

def Before (l : List A) (i j : Nat) : Prop := ∃ a b, [(a, i), (b, j)].Sublist (sortedIdx r l)

variable {r} [Std.Total r] [IsTrans A r]

/-- Entries are ordered by the relation, and by position where it does not tell them apart. -/
theorem before_iff {l : List A} {a b : A} {i j : Nat} (first : l[i]? = some a) (second : l[j]? = some b) (ne : i ≠ j) :
    Before r l i j ↔ r a b ∧ (r b a → i < j) := by
  have sorted : (sortedIdx r l).Pairwise fun x y => r x.1 y.1 :=
    haveI : Std.Total fun x y : A × Nat => r x.1 y.1 := ⟨fun x y => Std.Total.total x.1 y.1⟩
    haveI : IsTrans (A × Nat) fun x y => r x.1 y.1 := ⟨fun x y z => IsTrans.trans x.1 y.1 z.1⟩
    List.pairwise_insertionSort _ _
  have inFirst : (a, i) ∈ sortedIdx r l := (mem_sortedIdx r).mpr first
  have inSecond : (b, j) ∈ sortedIdx r l := (mem_sortedIdx r).mpr second
  have zipFirst : l.zipIdx[i]? = some (a, i) := by simp [first]
  have zipSecond : l.zipIdx[j]? = some (b, j) := by simp [second]
  constructor
  · rintro ⟨a', b', pair⟩
    have sameFirst : a' = a := Option.some.inj ((((mem_sortedIdx r).mp (pair.subset (by simp))).symm).trans first)
    have sameSecond : b' = b := Option.some.inj ((((mem_sortedIdx r).mp (pair.subset (by simp))).symm).trans second)
    subst sameFirst sameSecond
    have two : [(a', i), (b', j)].Pairwise fun x y => r x.1 y.1 := List.Pairwise.sublist pair sorted
    have ordered : r a' b' := by simpa using two
    refine ⟨ordered, fun tied => ?_⟩
    by_contra later
    have reversed := List.pair_sublist_insertionSort (r := fun x y : A × Nat => r x.1 y.1) (a := (b', j)) (b := (a', i))
      tied (pair_sublist_of_getElem? zipSecond zipFirst (by omega))
    exact not_both (nodup_sortedIdx r l) pair reversed
  · rintro ⟨ordered, stable⟩
    refine ⟨a, b, ?_⟩
    rcases pair_sublist_or inFirst inSecond (by simp [ne]) with forward | backward
    · exact forward
    · have two : [(b, j), (a, i)].Pairwise fun x y => r x.1 y.1 := List.Pairwise.sublist backward sorted
      have tied : r b a := by simpa using two
      exact List.pair_sublist_insertionSort (r := fun x y : A × Nat => r x.1 y.1) ordered
        (pair_sublist_of_getElem? zipFirst zipSecond (stable tied))

omit [Std.Total r] [IsTrans A r] in
theorem mem_front_of_before {l : List A} {front back : List A} {b : A}
    (split : l.insertionSort r = front ++ b :: back) :
    ∃ j, l[j]? = some b ∧ ∀ i a, l[i]? = some a → Before r l i j → a ∈ front := by
  have sorted := map_fst_sortedIdx r l
  rw [split, List.map_eq_append_iff] at sorted
  obtain ⟨before, after, whole, sameFront, sameBack⟩ := sorted
  obtain ⟨⟨b', j⟩, rest, rfl, sameEntry, -⟩ := List.map_eq_cons_iff.mp sameBack
  dsimp only at sameEntry
  subst sameEntry
  refine ⟨j, (mem_sortedIdx r).mp (by rw [whole]; simp), ?_⟩
  rintro i a at_i ⟨a', b'', pair⟩
  have sameFirst : a' = a := Option.some.inj ((((mem_sortedIdx r).mp (pair.subset (by simp))).symm).trans at_i)
  have inSort : (b', j) ∈ sortedIdx r l := by
    rw [whole]
    simp
  have sameSecond : b'' = b' := Option.some.inj
    (((mem_sortedIdx r).mp (pair.subset (by simp))).symm.trans ((mem_sortedIdx r).mp inSort))
  subst sameFirst sameSecond
  have distinct := nodup_sortedIdx r l
  rw [whole] at distinct pair
  rw [← sameFront]
  exact List.mem_map_of_mem (f := Prod.fst) (mem_front_of_pair distinct pair)

/-- The first entry of the sorted list that has something is foremost among those that have something: by the
relation, and by position where it does not tell them apart. -/
theorem findSome?_insertionSort {B : Type} {f : A → Option B} {l : List A} {b : B}
    (found : (l.insertionSort r).findSome? f = some b) :
    ∃ (i : Nat) (a : A), l[i]? = some a ∧ f a = some b ∧
      ∀ (j : Nat) (c : A), l[j]? = some c → (f c).isSome = true → j ≠ i → r a c ∧ (r c a → i < j) := by
  obtain ⟨front, a, back, split, here, passed⟩ := List.findSome?_eq_some_iff.mp found
  obtain ⟨i, at_i, earlier⟩ := mem_front_of_before split
  refine ⟨i, a, at_i, here, ?_⟩
  intro j c at_j has other
  have notBefore : ¬ Before r l j i := by
    intro before
    rw [passed c (earlier j c at_j before)] at has
    cases has
  rw [before_iff at_j at_i other, not_and] at notBefore
  rcases Std.Total.total (r := r) a c with below | above
  · refine ⟨below, fun tied => ?_⟩
    have late : ¬ j < i := fun lt => notBefore tied fun _ => lt
    omega
  · have tied := notBefore above
    rw [Classical.not_imp] at tied
    exact ⟨tied.1, fun _ => by omega⟩

omit [Std.Total r] [IsTrans A r] in
/-- An entry before all the others comes first, and the others are sorted as if it were not there. -/
theorem insertionSort_foremost {front back : List A} {a : A} (strict : ∀ b ∈ front, ¬ r b a) (before : ∀ b ∈ back, r a b) :
    (front ++ a :: back).insertionSort r = a :: (front ++ back).insertionSort r := by
  induction front with
  | nil => exact List.insertionSort_cons_of_forall_rel r before
  | cons b front ih =>
    obtain ⟨here, rest⟩ := List.forall_mem_cons.mp strict
    rw [List.cons_append, List.insertionSort_cons, ih rest, List.orderedInsert_cons, if_neg here, List.cons_append,
      List.insertionSort_cons]

-- Sorting related lists

omit [Std.Total r] [IsTrans A r] in
theorem forall₂_orderedInsert {B : Type} {s : B → B → Prop} [DecidableRel s] {R : A → B → Prop}
    (respects : ∀ a b x y, R a x → R b y → (r a b ↔ s x y)) {a : A} {x : B} (head : R a x) {l : List A} {m : List B}
    (tail : List.Forall₂ R l m) : List.Forall₂ R (l.orderedInsert r a) (m.orderedInsert s x) := by
  induction tail with
  | nil => exact .cons head .nil
  | @cons b y l m first rest ih =>
    rw [List.orderedInsert_cons, List.orderedInsert_cons]
    by_cases before : r a b
    · rw [if_pos before, if_pos ((respects a b x y head first).mp before)]
      exact .cons head (.cons first rest)
    · rw [if_neg before, if_neg fun after => before ((respects a b x y head first).mpr after)]
      exact .cons first ih

omit [Std.Total r] [IsTrans A r] in
theorem forall₂_insertionSort {B : Type} {s : B → B → Prop} [DecidableRel s] {R : A → B → Prop}
    (respects : ∀ a b x y, R a x → R b y → (r a b ↔ s x y)) {l : List A} {m : List B} (related : List.Forall₂ R l m) :
    List.Forall₂ R (l.insertionSort r) (m.insertionSort s) := by
  induction related with
  | nil => exact .nil
  | cons first rest ih => exact forall₂_orderedInsert respects first ih

omit [Std.Total r] [IsTrans A r] in
theorem positions_congr {B : Type} {s : B → B → Prop} [DecidableRel s] {R : A → B → Prop}
    (respects : ∀ a b x y, R a x → R b y → (r a b ↔ s x y)) {l : List A} {m : List B} (related : List.Forall₂ R l m) :
    (sortedIdx r l).map Prod.snd = (sortedIdx s m).map Prod.snd := by
  have numbered : ∀ k, List.Forall₂ (fun x y => R x.1 y.1 ∧ x.2 = y.2) (l.zipIdx k) (m.zipIdx k) := by
    induction related with
    | nil => exact fun _ => .nil
    | cons first rest ih => exact fun k => .cons ⟨first, rfl⟩ (ih (k + 1))
  have sorted : List.Forall₂ (fun x y => R x.1 y.1 ∧ x.2 = y.2) (sortedIdx r l) (sortedIdx s m) :=
    forall₂_insertionSort (fun a b x y first second => respects a.1 b.1 x.1 y.1 first.1 second.1) (numbered 0)
  generalize sortedIdx r l = first at sorted
  generalize sortedIdx s m = second at sorted
  induction sorted with
  | nil => rfl
  | cons head _ ih => rw [List.map_cons, List.map_cons, head.2, ih]

-- Classes of entries the relation does not tell apart

variable (r)

def tied (a b : A) : Bool := r a b ∧ r b a

variable {r}

omit [Std.Total r] in
theorem pairwise_class (a : A) (l : List A) : (l.filter (tied r a)).Pairwise r := by
  refine List.pairwise_of_forall_mem_list ?_
  intro b first c second
  have tiedB := (List.mem_filter.mp first).2
  have tiedC := (List.mem_filter.mp second).2
  simp only [tied, decide_eq_true_eq] at tiedB tiedC
  exact IsTrans.trans _ _ _ tiedB.2 tiedC.1

omit [Std.Total r] in
theorem class_insertionSort (a : A) (l : List A) : (l.insertionSort r).filter (tied r a) = l.filter (tied r a) := by
  have kept : (l.filter (tied r a)).Sublist (l.insertionSort r) :=
    List.sublist_insertionSort (pairwise_class a l) List.filter_sublist
  have inside := kept.filter (tied r a)
  rw [List.filter_filter] at inside
  simp only [Bool.and_self] at inside
  refine (inside.eq_of_length ?_).symm
  exact (((List.perm_insertionSort r l).filter _).length_eq).symm

omit [IsTrans A r] in
/-- Sorted lists are determined by their classes. -/
theorem eq_of_classes {l l' : List A} (sorted : l.Pairwise r) (sorted' : l'.Pairwise r)
    (classes : ∀ a, l.filter (tied r a) = l'.filter (tied r a)) : l = l' := by
  have self : ∀ a, tied r a a = true := by
    intro a
    have refl : r a a := (Std.Total.total a a).elim id id
    simp [tied, refl]
  induction l generalizing l' with
  | nil =>
    cases l' with
    | nil => rfl
    | cons b l' =>
      have empty := classes b
      simp [self] at empty
  | cons a l ih =>
    obtain ⟨least, rest⟩ := List.pairwise_cons.mp sorted
    have member : a ∈ l'.filter (tied r a) := by
      rw [← classes a]
      simp [self]
    cases l' with
    | nil => simp at member
    | cons b l' =>
      obtain ⟨least', rest'⟩ := List.pairwise_cons.mp sorted'
      have inFirst : b ∈ (a :: l).filter (tied r b) := by
        rw [classes b]
        simp [self]
      have atMost : r a b := by
        rcases List.mem_cons.mp (List.mem_of_mem_filter inFirst) with rfl | later
        · simpa [tied] using self b
        · exact least b later
      have atLeast : r b a := by
        rcases List.mem_cons.mp (List.mem_of_mem_filter member) with rfl | later
        · simpa [tied] using self a
        · exact least' a later
      have heads := classes a
      rw [List.filter_cons_of_pos (self a), List.filter_cons_of_pos (by simp [tied, atMost, atLeast])] at heads
      obtain ⟨rfl, -⟩ := List.cons.inj heads
      refine congrArg (a :: ·) (ih rest rest' fun c => ?_)
      have both := classes c
      by_cases here : tied r c a = true
      · rw [List.filter_cons_of_pos here, List.filter_cons_of_pos here] at both
        exact (List.cons.inj both).2
      · rwa [List.filter_cons_of_neg here, List.filter_cons_of_neg here] at both

theorem insertionSort_congr {l l' : List A} (classes : ∀ a, l.filter (tied r a) = l'.filter (tied r a)) :
    l.insertionSort r = l'.insertionSort r := by
  refine eq_of_classes (List.pairwise_insertionSort _ _) (List.pairwise_insertionSort _ _) fun a => ?_
  rw [class_insertionSort, class_insertionSort, classes a]

theorem filter_insertionSort (keep : A → Bool) (l : List A) :
    (l.insertionSort r).filter keep = (l.filter keep).insertionSort r := by
  refine eq_of_classes ((List.pairwise_insertionSort _ _).filter _) (List.pairwise_insertionSort _ _) fun a => ?_
  rw [class_insertionSort, List.filter_comm, class_insertionSort, List.filter_comm]

end MiniWaf.StableSort
