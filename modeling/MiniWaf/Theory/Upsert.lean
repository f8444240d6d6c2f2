import Mathlib.Data.List.Forall2

/-! Updating the first entry of a list that satisfies a predicate, or appending a new
one where none does.
-/

set_option autoImplicit false

namespace MiniWaf

variable {A B : Type}

def upsert (p : A → Bool) (f : A → A) (new : A) : List A → List A
  | [] => [new]
  | a :: rest => if p a then f a :: rest else a :: upsert p f new rest

namespace Upsert

variable {p : A → Bool} {f : A → A} {new : A}

theorem upsert_eq (l : List A) : upsert p f new l =
    match l.findIdx? p with
    | none => l ++ [new]
    | some i =>
      match l[i]? with
      | some a => l.set i (f a)
      | none => l := by
  induction l with
  | nil => rfl
  | cons a rest ih =>
    rw [upsert, List.findIdx?_cons]
    cases here : p a with
    | true => rfl
    | false =>
      rw [if_neg Bool.false_ne_true, if_neg Bool.false_ne_true, ih]
      cases rest.findIdx? p with
      | none => rfl
      | some i =>
        simp only [Option.map_some, List.getElem?_cons_succ, List.set_cons_succ]
        cases rest[i]? <;> rfl

theorem find?_upsert (kept : ∀ a, p a = true → p (f a) = true) (satisfies : p new = true) (l : List A) :
    (upsert p f new l).find? p = some ((l.find? p).elim new f) := by
  induction l with
  | nil => exact List.find?_cons_of_pos satisfies
  | cons a rest ih =>
    rw [upsert]
    by_cases here : p a = true
    · rw [if_pos here, List.find?_cons_of_pos here, List.find?_cons_of_pos (kept a here)]
      rfl
    · rw [if_neg here, List.find?_cons_of_neg here, List.find?_cons_of_neg here, ih]

theorem find?_upsert_of_disjoint {q : A → Bool} (updated : ∀ a, p a = true → q (f a) = false)
    (disjoint : ∀ a, p a = true → q a = false) (fresh : q new = false) (l : List A) :
    (upsert p f new l).find? q = l.find? q := by
  induction l with
  | nil => exact List.find?_cons_of_neg (Bool.eq_false_iff.mp fresh)
  | cons a rest ih =>
    rw [upsert]
    by_cases here : p a = true
    · rw [if_pos here, List.find?_cons_of_neg (Bool.eq_false_iff.mp (updated a here)),
        List.find?_cons_of_neg (Bool.eq_false_iff.mp (disjoint a here))]
    · rw [if_neg here, List.find?_cons, List.find?_cons, ih]

/-- Related lists stay so where related entries are picked and updated alike. -/
theorem forall₂_upsert {R : A → B → Prop} {q : B → Bool} {g : B → B} {new' : B} (picks : ∀ a b, R a b → p a = q b)
    (updates : ∀ a b, R a b → p a = true → R (f a) (g b)) (fresh : R new new') {l : List A} {m : List B}
    (related : List.Forall₂ R l m) : List.Forall₂ R (upsert p f new l) (upsert q g new' m) := by
  induction related with
  | nil => exact .cons fresh .nil
  | @cons a b l m first rest ih =>
    rw [upsert, upsert, ← picks a b first]
    by_cases here : p a = true
    · rw [if_pos here, if_pos here]
      exact .cons (updates a b first here) rest
    · rw [if_neg here, if_neg here]
      exact .cons first ih

theorem forall₂_of_find {R : A → A → Prop} (refl : ∀ a, R a a) {l : List A} {a : A} (found : l.find? p = some a)
    (updated : R a (f a)) : List.Forall₂ R l (upsert p f new l) := by
  induction l with
  | nil => cases found
  | cons b rest ih =>
    rw [upsert]
    by_cases here : p b = true
    · rw [List.find?_cons_of_pos here, Option.some.injEq] at found
      subst found
      rw [if_pos here]
      exact .cons updated (List.forall₂_same.mpr fun c _ => refl c)
    · rw [List.find?_cons_of_neg here] at found
      rw [if_neg here]
      exact .cons (refl b) (ih found)

theorem nodup_upsert {K : Type} [DecidableEq K] {key : A → Option K} {k : K} (kept : ∀ a, key a = some k → key (f a) = some k)
    (fresh : key new = some k) {l : List A} (distinct : (l.filterMap key).Nodup) :
    ((upsert (fun a => key a = some k) f new l).filterMap key).Nodup ∧
      ∀ j, j ∈ (upsert (fun a => key a = some k) f new l).filterMap key ↔ j = k ∨ j ∈ l.filterMap key := by
  induction l with
  | nil => simp [upsert, fresh]
  | cons a rest ih =>
    rw [upsert]
    by_cases here : key a = some k
    · rw [if_pos (decide_eq_true here), List.filterMap_cons_some (kept a here)]
      rw [List.filterMap_cons_some here] at distinct ⊢
      exact ⟨distinct, fun j => by simp⟩
    · rw [if_neg (by simpa using here)]
      cases other : key a with
      | none =>
        rw [List.filterMap_cons_none other] at distinct ⊢
        rw [List.filterMap_cons_none other]
        exact ih distinct
      | some other' =>
        rw [List.filterMap_cons_some other] at distinct ⊢
        rw [List.filterMap_cons_some other]
        obtain ⟨absent, tail⟩ := List.nodup_cons.mp distinct
        obtain ⟨nodup, members⟩ := ih tail
        have ne : other' ≠ k := by
          rintro rfl
          exact here other
        refine ⟨List.nodup_cons.mpr ⟨?_, nodup⟩, fun j => ?_⟩
        · rw [members]
          exact fun either => either.elim ne absent
        · rw [List.mem_cons, List.mem_cons, members]
          exact or_left_comm

-- Lists that keep their entries and may get more of them

def Grows (R : A → A → Prop) (l m : List A) : Prop := ∀ (i : Nat) (a : A), l[i]? = some a → ∃ b, m[i]? = some b ∧ R a b

variable {R : A → A → Prop}

theorem Grows.refl (same : ∀ a, R a a) (l : List A) : Grows R l l := fun _ a at_i => ⟨a, at_i, same a⟩

theorem Grows.trans (trans : ∀ a b c, R a b → R b c → R a c) {l m n : List A} (first : Grows R l m) (second : Grows R m n) :
    Grows R l n := by
  intro i a at_i
  obtain ⟨b, at_i', once⟩ := first i a at_i
  obtain ⟨c, at_i'', twice⟩ := second i b at_i'
  exact ⟨c, at_i'', trans a b c once twice⟩

theorem grows_upsert (same : ∀ a, R a a) (updated : ∀ a, p a = true → R a (f a)) (l : List A) :
    Grows R l (upsert p f new l) := by
  induction l with
  | nil =>
    intro i a at_i
    cases at_i
  | cons b rest ih =>
    intro i a at_i
    rw [upsert]
    by_cases here : p b = true
    · rw [if_pos here]
      cases i with
      | zero =>
        obtain rfl := Option.some.inj at_i
        exact ⟨f b, rfl, updated b here⟩
      | succ i => exact ⟨a, at_i, same a⟩
    · rw [if_neg here]
      cases i with
      | zero =>
        obtain rfl := Option.some.inj at_i
        exact ⟨b, rfl, same b⟩
      | succ i => exact ih i a at_i

end Upsert

end MiniWaf
