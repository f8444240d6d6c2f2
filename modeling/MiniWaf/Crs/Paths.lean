import MiniWaf.Crs.Transform

/-! What is left of a path after it is normalised. A slash is removed from its
double until none is left, but two dots before a slash only once.
-/

set_option autoImplicit false

namespace MiniWaf.Crs

abbrev traversal (separator : Char) : Text := ['.', '.', separator]

abbrev doubled (separator : Char) : Text := ['.', '.', '.', '.', separator]

-- Slashes

theorem collapseSlashes_clean (s : Text) : ¬ ['/', '/'] <:+: collapseSlashes s := by
  induction s using collapseSlashes.induct with
  | case1 s found ih =>
    rw [collapseSlashes, if_pos found]
    exact ih
  | case2 s absent =>
    rw [collapseSlashes, if_neg absent, ← Text.containsText_iff]
    exact absent

theorem collapseSlashes_of_clean {s : Text} (clean : ¬ ['/', '/'] <:+: s) : collapseSlashes s = s := by
  rw [collapseSlashes, if_neg fun found => clean ((Text.containsText_iff _ _).mp found)]

theorem mem_of_mem_collapseSlashes {s : Text} {c : Char} : c ∈ collapseSlashes s → c ∈ s := by
  induction s using collapseSlashes.induct with
  | case1 s found ih =>
    intro member
    rw [collapseSlashes, if_pos found] at member
    rcases Text.mem_of_mem_replace (by simp) (ih member) with slash | inside
    · obtain rfl := List.mem_singleton.mp slash
      have both := (Text.containsText_iff _ _).mp found
      exact both.subset List.mem_cons_self
    · exact inside
  | case2 s absent =>
    rw [collapseSlashes, if_neg absent]
    exact id

theorem length_collapseSlashes (s : Text) : (collapseSlashes s).length ≤ s.length := by
  induction s using collapseSlashes.induct with
  | case1 s found ih =>
    rw [collapseSlashes, if_pos found]
    exact Nat.le_trans ih (Text.length_replace_le (by decide) s)
  | case2 s absent => rw [collapseSlashes, if_neg absent]

theorem head_replace_slashes (s : Text) : (Text.replace ['/', '/'] ['/'] s).head? = s.head? := by
  induction s using Text.pairs '/' '/' with
  | nil => rfl
  | pair s _ => rw [Text.replace_pair]; rfl
  | skip c s notHere _ => rw [Text.replace_past notHere]; rfl

theorem replace_slashes_cons {c : Char} (other : c ≠ '/') (s : Text) :
    Text.replace ['/', '/'] ['/'] (c :: s) = c :: Text.replace ['/', '/'] ['/'] s := by
  apply Text.replace_past
  intro here
  exact other (List.cons_prefix_cons.mp here).1.symm

theorem prefix_singleton {c : Char} (s : Text) : [c] <+: s ↔ s.head? = some c := by
  cases s with
  | nil => simp
  | cons d s => simp [List.cons_prefix_cons, eq_comm]

theorem dots_prefix_replace (n : Nat) (e : Char) (s : Text) :
    List.replicate n '.' ++ [e] <+: Text.replace ['/', '/'] ['/'] s ↔ List.replicate n '.' ++ [e] <+: s := by
  induction n generalizing s with
  | zero => rw [List.replicate_zero, List.nil_append, prefix_singleton, prefix_singleton, head_replace_slashes]
  | succ n ih =>
    cases s with
    | nil => exact Iff.rfl
    | cons c s =>
      rw [List.replicate_succ, List.cons_append]
      by_cases dot : c = '.'
      · rw [dot, replace_slashes_cons (by decide), List.cons_prefix_cons, List.cons_prefix_cons, ih]
      · have absent (t : Text) (head : t.head? = some c) : ¬ '.' :: (List.replicate n '.' ++ [e]) <+: t := by
          cases t with
          | nil => cases head
          | cons d t =>
            intro here
            have same : '.' = d := (List.cons_prefix_cons.mp here).1
            exact dot (Option.some.inj head ▸ same.symm)
        exact iff_of_false (absent _ (head_replace_slashes _)) (absent _ rfl)

theorem traversal_infix_replace (e : Char) (s : Text) :
    traversal e <:+: Text.replace ['/', '/'] ['/'] s ↔ traversal e <:+: s := by
  have notSlash (t : Text) : ¬ traversal e <+: '/' :: t := by
    intro here
    have same : '.' = '/' := (List.cons_prefix_cons.mp here).1
    exact absurd same (by decide)
  induction s using Text.pairs '/' '/' with
  | nil => exact Iff.rfl
  | pair s ih =>
    rw [Text.replace_pair, List.singleton_append, List.infix_cons_iff, List.infix_cons_iff, List.infix_cons_iff]
    simp only [notSlash, false_or]
    exact ih
  | skip c s notHere ih =>
    have front := dots_prefix_replace 2 e (c :: s)
    rw [Text.replace_past notHere] at front ⊢
    rw [List.infix_cons_iff, List.infix_cons_iff]
    exact or_congr front ih

theorem traversal_infix_collapseSlashes (e : Char) (s : Text) : traversal e <:+: collapseSlashes s ↔ traversal e <:+: s := by
  induction s using collapseSlashes.induct with
  | case1 s found ih =>
    rw [collapseSlashes, if_pos found, ih, traversal_infix_replace]
  | case2 s absent => rw [collapseSlashes, if_neg absent]

-- The path

theorem urlDecodeUni_of_none {s : Text} (none : '%' ∉ s) : urlDecodeUni s = s := by
  have whole : Rete.urlDecode (String.ofList s) = String.ofList s :=
    Rete.urlDecode_of_none (by rwa [String.toList_ofList])
  rw [Rete.urlDecode, String.toList_ofList] at whole
  exact String.ofList_injective whole

def removeTraversals (s : Text) : Text :=
  Text.replace (traversal '\\') ['\\'] (Text.replace (traversal '/') ['/'] s)

theorem normalizePath_eq (s : Text) : normalizePath s = collapseSlashes (removeTraversals (urlDecodeUni s)) := rfl

theorem traversal_infix_removeTraversals (s : Text) :
    (traversal '/' <:+: removeTraversals s ↔ doubled '/' <:+: s) ∧
      (traversal '\\' <:+: removeTraversals s ↔ doubled '\\' <:+: s) := by
  have slash : '/' ≠ '.' := by decide
  have backslash : '\\' ≠ '.' := by decide
  have two := Nat.le_refl 2
  have four : 2 ≤ 4 := by decide
  constructor
  · have outer := Text.run_infix_replace backslash slash two (Text.replace (traversal '/') ['/'] s)
    have inner := Text.run_infix_replace slash slash two s
    exact outer.trans inner
  · have outer := Text.run_infix_replace backslash backslash two (Text.replace (traversal '/') ['/'] s)
    have inner := Text.run_infix_replace slash backslash four s
    exact outer.trans inner

/-- A traversal is left exactly where there were two, one in the other. -/
theorem traversal_infix_normalizePath (s : Text) :
    (traversal '/' <:+: normalizePath s ↔ doubled '/' <:+: urlDecodeUni s) ∧
      (traversal '\\' <:+: normalizePath s ↔ doubled '\\' <:+: urlDecodeUni s) := by
  rw [normalizePath_eq, traversal_infix_collapseSlashes, traversal_infix_collapseSlashes]
  exact traversal_infix_removeTraversals _

theorem mem_of_mem_removeTraversals {s : Text} {c : Char} (other : c ≠ '/' ∧ c ≠ '\\') (member : c ∈ removeTraversals s) :
    c ∈ s := by
  rcases Text.mem_of_mem_replace (by simp) member with new | member
  · exact absurd (List.mem_singleton.mp new) other.2
  · rcases Text.mem_of_mem_replace (by simp) member with new | inside
    · exact absurd (List.mem_singleton.mp new) other.1
    · exact inside

theorem normalizePath_no_percent {s : Text} (none : '%' ∉ s) : '%' ∉ normalizePath s := by
  intro member
  rw [normalizePath_eq, urlDecodeUni_of_none none] at member
  exact none (mem_of_mem_removeTraversals (by decide) (mem_of_mem_collapseSlashes member))

theorem length_removeTraversals (s : Text) :
    (removeTraversals s).length ≤ s.length ∧
      (traversal '/' <:+: s ∨ traversal '\\' <:+: s → (removeTraversals s).length < s.length) := by
  have slash : (Text.replace (traversal '/') ['/'] s).length ≤ s.length ∧ _ :=
    Text.length_replace (by simp) (by simp) s
  have backslash : (removeTraversals s).length ≤ (Text.replace (traversal '/') ['/'] s).length ∧ _ :=
    Text.length_replace (by simp) (by simp) _
  refine ⟨Nat.le_trans backslash.1 slash.1, ?_⟩
  rintro (inside | inside)
  · exact Nat.lt_of_le_of_lt backslash.1 (slash.2 inside)
  · have still := (Text.run_infix_replace (e := '/') (f := '\\') (by decide) (by decide) (Nat.le_refl 2) s).mpr inside
    exact Nat.lt_of_lt_of_le (backslash.2 still) slash.1

/-- A normalised path without escapes is normalised again to itself exactly if no traversal is left in it. -/
theorem normalizePath_fixed {path : Text} (none : '%' ∉ path) (single : ¬ ['/', '/'] <:+: path) :
    normalizePath path = path ↔ ¬ traversal '/' <:+: path ∧ ¬ traversal '\\' <:+: path := by
  rw [normalizePath_eq, urlDecodeUni_of_none none, ← not_or]
  constructor
  · intro same inside
    have shorter := (length_removeTraversals path).2 inside
    have whole := length_collapseSlashes (removeTraversals path)
    rw [same] at whole
    omega
  · intro clean
    rw [not_or] at clean
    have kept : removeTraversals path = path := by
      rw [removeTraversals, Text.replace_absent clean.1, Text.replace_absent clean.2]
    rw [kept, collapseSlashes_of_clean single]

/-- No double slash is left in a path, and no traversal, exactly if in the decoded text none stands in another; and
without escapes it is then normalised. -/
theorem normalizePath_clean (s : Text) :
    ((¬ traversal '/' <:+: normalizePath s ∧ ¬ traversal '\\' <:+: normalizePath s ∧
        ¬ ['/', '/'] <:+: normalizePath s) ∧
      ('%' ∉ s → normalizePath (normalizePath s) = normalizePath s)) ↔
    ¬ doubled '/' <:+: urlDecodeUni s ∧ ¬ doubled '\\' <:+: urlDecodeUni s := by
  obtain ⟨slash, backslash⟩ := traversal_infix_normalizePath s
  have single : ¬ ['/', '/'] <:+: normalizePath s := collapseSlashes_clean _
  rw [← slash, ← backslash]
  constructor
  · exact fun clean => ⟨clean.1.1, clean.1.2.1⟩
  · intro clean
    refine ⟨⟨clean.1, clean.2, single⟩, fun none => ?_⟩
    exact (normalizePath_fixed (normalizePath_no_percent none) single).mpr clean

theorem collapseSlashes_replace (s : Text) : collapseSlashes s = collapseSlashes (Text.replace ['/', '/'] ['/'] s) := by
  by_cases found : ['/', '/'] <:+: s
  · rw [collapseSlashes, if_pos ((Text.containsText_iff _ _).mpr found)]
  · rw [Text.replace_absent found]

theorem normalizePath_of_pass {s path : Text} (none : '%' ∉ s)
    (same : Text.replace ['/', '/'] ['/'] (removeTraversals s) = path)
    (single : Text.containsText ['/', '/'] path = false) : normalizePath s = path := by
  rw [normalizePath_eq, urlDecodeUni_of_none none, collapseSlashes_replace, same]
  apply collapseSlashes_of_clean
  rw [← Text.containsText_iff, single]
  exact Bool.false_ne_true

/-- Four dots and a slash become a traversal, which a second run removes. -/
theorem normalizePath_leaves_traversal :
    normalizePath "/a/..../etc".toList = "/a/../etc".toList ∧ traversal '/' <:+: normalizePath "/a/..../etc".toList ∧
      '%' ∉ "/a/..../etc".toList ∧ normalizePath (normalizePath "/a/..../etc".toList) = "/a/etc".toList := by
  have once : normalizePath "/a/..../etc".toList = "/a/../etc".toList :=
    normalizePath_of_pass (by decide) (by decide) (by decide)
  have twice : normalizePath "/a/../etc".toList = "/a/etc".toList :=
    normalizePath_of_pass (by decide) (by decide) (by decide)
  rw [once, twice]
  exact ⟨rfl, (Text.containsText_iff _ _).mp (by decide), by decide, rfl⟩

end MiniWaf.Crs
