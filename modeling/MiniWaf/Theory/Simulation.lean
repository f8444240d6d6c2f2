import Mathlib.Data.List.Nodup
import MiniWaf.Theory.Agenda

/-! Simulation of one agenda loop by another. The simulating loop may take extra
steps that the other one does not see; such a step leaves related states related.
-/

set_option autoImplicit false

namespace MiniWaf.Agenda

variable {S T I J : Type} {choose : S → Option I} {act : S → I → S} {stop : S → Bool}
  {choose' : T → Option J} {act' : T → J → T} {stop' : T → Bool} {R : S → T → Prop}

/-- Every step of the second loop is matched by a step of the first or left unseen. -/
structure Simulates (choose : S → Option I) (act : S → I → S) (stop : S → Bool) (choose' : T → Option J)
    (act' : T → J → T) (stop' : T → Bool) (R : S → T → Prop) : Prop where
  stops : ∀ s t, R s t → stop s = stop' t
  quiescent : ∀ s t, R s t → choose' t = none → choose s = none
  step : ∀ s t j, R s t → choose' t = some j →
    R s (act' t j) ∨ ∃ i, choose s = some i ∧ R (act s i) (act' t j)

theorem loop_of_none (n : Nat) {s : S} (chosen : choose s = none) : loop choose act stop n s = s := by
  cases n with
  | zero => rfl
  | succ n => simp [loop, chosen]

theorem loop_of_some (n : Nat) {s : S} {i : I} (chosen : choose s = some i) :
    loop choose act stop (n + 1) s = if stop (act s i) then act s i else loop choose act stop n (act s i) := by
  simp [loop, chosen]

/-- A run of the second loop that ended by itself ends related to the run of the first one,
which needs no more cycles. -/
theorem Simulates.loop (sim : Simulates choose act stop choose' act' stop' R) {n m : Nat} (enough : n ≤ m) {s : S} {t : T}
    (related : R s t) (running : stop s = false)
    (ended : stop' (loop choose' act' stop' n t) = true ∨ choose' (loop choose' act' stop' n t) = none) :
    R (loop choose act stop m s) (loop choose' act' stop' n t) := by
  induction n generalizing m s t with
  | zero =>
    have quiet : choose' t = none := by
      refine ended.resolve_left ?_
      change ¬ stop' t = true
      rw [← sim.stops s t related, running]
      simp
    rw [loop_of_none m (sim.quiescent s t related quiet)]
    exact related
  | succ n ih =>
    cases chosen : choose' t with
    | none =>
      rw [loop_of_none _ chosen, loop_of_none m (sim.quiescent s t related chosen)]
      exact related
    | some j =>
      rw [loop_of_some n chosen] at ended ⊢
      rcases sim.step s t j related chosen with unseen | ⟨i, chosenI, matched⟩
      · have still : stop' (act' t j) = false := by rw [← sim.stops s _ unseen, running]
        simp only [still, Bool.false_eq_true, if_false] at ended ⊢
        exact ih (by omega) unseen running ended
      · obtain ⟨k, rfl⟩ : ∃ k, m = k + 1 := ⟨m - 1, by omega⟩
        have sameStop := sim.stops _ _ matched
        rw [loop_of_some k chosenI]
        by_cases halt : stop' (act' t j) = true
        · rw [if_pos halt, if_pos (sameStop.trans halt)]
          exact matched
        · rw [if_neg halt] at ended ⊢
          rw [if_neg (by rwa [sameStop])]
          exact ih (by omega) matched (by simpa [sameStop] using halt) ended

theorem loop_congr {choose : S → Option I} {act : S → I → S} {stop : S → Bool} {choose' : S → Option J}
    {act' : S → J → S} (Inv : S → Prop) (Matches : I → J → Prop)
    (chooses : ∀ s, Inv s → Option.Rel Matches (choose s) (choose' s))
    (acts : ∀ s i j, Matches i j → act s i = act' s j) (keeps : ∀ s i, Inv s → Inv (act s i)) (n : Nat) {s : S}
    (start : Inv s) : loop choose act stop n s = loop choose' act' stop n s := by
  induction n generalizing s with
  | zero => rfl
  | succ n ih =>
    have chosen := chooses s start
    rw [loop, loop]
    generalize choose s = first at chosen
    generalize choose' s = second at chosen
    cases chosen with
    | none => rfl
    | some matched =>
      dsimp only
      rw [← acts s _ _ matched, ih (keeps s _ start)]

-- What two loops act on

/-- Loops that choose alike in related states act on alike items. -/
theorem items_map_congr {P : Type} (f : I → P) (g : J → P) (stops : ∀ s t, R s t → stop s = stop' t)
    (chooses : ∀ s t, R s t → (choose s).map f = (choose' t).map g)
    (acts : ∀ s t i j, R s t → f i = g j → R (act s i) (act' t j)) (n : Nat) {s : S} {t : T} (related : R s t) :
    (items choose act stop n s).map f = (items choose' act' stop' n t).map g := by
  induction n generalizing s t with
  | zero => rfl
  | succ n ih =>
    have alike := chooses s t related
    rw [items, items]
    cases chosen : choose s with
    | none =>
      rw [chosen, Option.map_none, eq_comm, Option.map_eq_none_iff] at alike
      rw [alike]
      rfl
    | some i =>
      rw [chosen, Option.map_some, eq_comm, Option.map_eq_some_iff] at alike
      obtain ⟨j, chosenJ, same⟩ := alike
      have still := acts s t i j related same.symm
      simp only [chosenJ]
      by_cases halt : stop (act s i) = true
      · rw [if_pos halt, if_pos ((stops _ _ still).symm.trans halt)]
        simp [same]
      · rw [if_neg halt, if_neg fun halt' => halt ((stops _ _ still).trans halt'), List.map_cons, List.map_cons,
          ih still, same]

/-- What was acted on before each of the loop's choices. -/
def scans (choose : S → Option I) (act : S → I → S) (stop : S → Bool) : Nat → S → List (List I)
  | 0, _ => []
  | n + 1, s => [] ::
    match choose s with
    | none => []
    | some i => if stop (act s i) then [] else (scans choose act stop n (act s i)).map (i :: ·)

/-- The second loop keeps related states related when it acts on what the first one chooses. -/
def Follows (choose : S → Option I) (act : S → I → S) (stop : S → Bool) (act' : T → I → T) (R : S → T → Prop) (n : Nat)
    (s : S) : Prop :=
  ∀ before ∈ scans choose act stop n s, ∀ i, choose (before.foldl act s) = some i →
    ∀ u, R (before.foldl act s) u → R (act (before.foldl act s) i) (act' u i)

section
variable {choose' : T → Option I} {act' : T → I → T} {n : Nat} {s : S} {t : T}

theorem nil_mem_scans : [] ∈ scans choose act stop (n + 1) s := List.mem_cons_self

theorem cons_mem_scans {i : I} (chosen : choose s = some i) (running : ¬ stop (act s i) = true) {before : List I}
    (member : before ∈ scans choose act stop n (act s i)) : i :: before ∈ scans choose act stop (n + 1) s := by
  rw [scans, chosen]
  dsimp only
  rw [if_neg running]
  exact List.mem_cons_of_mem _ (List.mem_map_of_mem member)

theorem Follows.first (follows : Follows choose act stop act' R (n + 1) s) (related : R s t) {i : I}
    (chosen : choose s = some i) : R (act s i) (act' t i) :=
  follows [] nil_mem_scans i chosen t related

theorem Follows.rest (follows : Follows choose act stop act' R (n + 1) s) {i : I} (chosen : choose s = some i)
    (running : ¬ stop (act s i) = true) : Follows choose act stop act' R n (act s i) :=
  fun before member => follows (i :: before) (cons_mem_scans chosen running member)

/-- Loops that choose alike at every scan of the first end in related states. -/
theorem loop_related (stops : ∀ s t, R s t → stop s = stop' t) (related : R s t)
    (chooses : ∀ before ∈ scans choose act stop n s, ∀ u, R (before.foldl act s) u →
      choose' u = choose (before.foldl act s))
    (follows : Follows choose act stop act' R n s) :
    R (loop choose act stop n s) (loop choose' act' stop' n t) := by
  induction n generalizing s t with
  | zero => exact related
  | succ n ih =>
    have here : choose' t = choose s := chooses [] nil_mem_scans t related
    cases chosen : choose s with
    | none =>
      rw [loop_of_none _ chosen, loop_of_none _ (here.trans chosen)]
      exact related
    | some i =>
      have still := follows.first related chosen
      rw [loop_of_some n chosen, loop_of_some n (here.trans chosen), ← stops _ _ still]
      by_cases halt : stop (act s i) = true
      · rw [if_pos halt, if_pos halt]
        exact still
      · rw [if_neg halt, if_neg halt]
        exact ih still (fun before member => chooses (i :: before) (cons_mem_scans chosen halt member))
          (follows.rest chosen halt)

/-- Two loops act on the same items exactly if they choose alike at every scan of the first. -/
theorem items_eq_iff (stops : ∀ s t, R s t → stop s = stop' t) (related : R s t)
    (follows : Follows choose act stop act' R n s) :
    items choose act stop n s = items choose' act' stop' n t ↔
      ∀ before ∈ scans choose act stop n s, choose (before.foldl act s) = choose' (before.foldl act' t) := by
  induction n generalizing s t with
  | zero => simp [items, scans]
  | succ n ih =>
    rw [items, items, scans, List.forall_mem_cons, List.foldl_nil, List.foldl_nil]
    cases chosen : choose s with
    | none =>
      cases chosen' : choose' t with
      | none => simp
      | some j => by_cases halt : stop' (act' t j) = true <;> simp [halt]
    | some i =>
      cases chosen' : choose' t with
      | none => by_cases halt : stop (act s i) = true <;> simp [halt]
      | some j =>
        by_cases same : i = j
        · subst same
          have still := follows.first related chosen
          have alike := stops _ _ still
          cases halt : stop (act s i) with
          | true => simp [halt, alike.symm.trans halt]
          | false => simp [halt, alike.symm.trans halt, ih still (follows.rest chosen (by simp [halt]))]
        · have heads : ∀ (l m : List I) (b c : Bool),
              (if b = true then [i] else i :: l) ≠ (if c = true then [j] else j :: m) := by
            intro l m b c
            cases b <;> cases c <;> simp [same]
          constructor
          · intro equal
            exact absurd equal (heads _ _ _ _)
          · rintro ⟨equal, -⟩
            exact absurd (Option.some.inj equal) same

theorem Follows.scanned (follows : Follows choose act stop act' R n s) (related : R s t) {before : List I}
    (member : before ∈ scans choose act stop n s) : R (before.foldl act s) (before.foldl act' t) := by
  induction n generalizing s t before with
  | zero => cases member
  | succ n ih =>
    rw [scans, List.mem_cons] at member
    obtain rfl | later := member
    · exact related
    · cases chosen : choose s with
      | none => simp [chosen] at later
      | some i =>
        simp only [chosen] at later
        by_cases halt : stop (act s i) = true
        · simp [halt] at later
        · rw [if_neg halt] at later
          obtain ⟨rest, inRest, rfl⟩ := List.mem_map.mp later
          exact ih (follows.rest chosen halt) (follows.first related chosen) inRest

end

-- Scans for an entry that is enabled and free

section
variable {A : Type} {enabled free free' : A → Bool}

/-- A scan for something free gets to `x`: it is enabled, and nothing enabled before it is free. -/
def Reaches (enabled free : A → Bool) (l : List A) (x : A) : Prop :=
  ∃ passed rest, l = passed ++ x :: rest ∧ enabled x = true ∧ ∀ y ∈ passed, enabled y = true → free y = false

theorem Reaches.mem {x : A} {l : List A} (reached : Reaches enabled free l x) : x ∈ l := by
  obtain ⟨passed, rest, rfl, -⟩ := reached
  exact List.mem_append_right _ List.mem_cons_self

theorem Reaches.on {x : A} {l : List A} (reached : Reaches enabled free l x) : enabled x = true := by
  obtain ⟨passed, rest, -, on, -⟩ := reached
  exact on

theorem reaches_cons {x y : A} {l : List A} : Reaches enabled free (y :: l) x ↔
    (x = y ∧ enabled y = true) ∨ ((enabled y = true → free y = false) ∧ Reaches enabled free l x) := by
  constructor
  · rintro ⟨passed, rest, split, on, busy⟩
    cases passed with
    | nil =>
      obtain ⟨rfl, -⟩ := List.cons.inj split
      exact .inl ⟨rfl, on⟩
    | cons z passed =>
      obtain ⟨rfl, tail⟩ := List.cons.inj split
      obtain ⟨first, later⟩ := List.forall_mem_cons.mp busy
      exact .inr ⟨first, passed, rest, tail, on, later⟩
  · rintro (⟨rfl, on⟩ | ⟨first, passed, rest, rfl, on, busy⟩)
    · exact ⟨[], l, rfl, on, by simp⟩
    · exact ⟨y :: passed, rest, rfl, on, List.forall_mem_cons.mpr ⟨first, busy⟩⟩

/-- Two scans find the same exactly if they agree on what the first one gets to. -/
theorem find?_eq_iff {l : List A} : (l.find? fun x => enabled x && free x) = (l.find? fun x => enabled x && free' x) ↔
    ∀ x, Reaches enabled free l x → free x = free' x := by
  induction l with
  | nil => simp [Reaches]
  | cons y l ih =>
    have notLater : ∀ q : A → Bool, q y = false → some y ≠ l.find? q := by
      intro q misses same
      rw [List.find?_some same.symm] at misses
      cases misses
    simp only [reaches_cons, or_imp, forall_and, and_imp, forall_eq, List.find?_cons]
    cases on : enabled y with
    | false => simp [ih]
    | true =>
      -- the scans stop here in both cases, in one, or in neither
      cases isFree : free y <;> cases isFree' : free' y
      · simp [ih]
      · simpa using (notLater _ (by simp [isFree])).symm
      · simpa using notLater _ (by simp [isFree'])
      · simp

theorem map_find?_eq_iff {B : Type} {key : A → B} {l : List A} (distinct : (l.map key).Nodup) {p q : A → Bool} :
    (l.find? p).map key = (l.find? q).map key ↔ l.find? p = l.find? q := by
  refine ⟨fun same => ?_, congrArg (Option.map key)⟩
  cases first : l.find? p with
  | none =>
    rw [first, Option.map_none, eq_comm, Option.map_eq_none_iff] at same
    exact same.symm
  | some x =>
    rw [first, Option.map_some, eq_comm, Option.map_eq_some_iff] at same
    obtain ⟨y, second, sameKey⟩ := same
    rw [second]
    exact congrArg some (List.inj_on_of_nodup_map distinct (List.mem_of_find?_eq_some first)
      (List.mem_of_find?_eq_some second) sameKey.symm)

end

end MiniWaf.Agenda
