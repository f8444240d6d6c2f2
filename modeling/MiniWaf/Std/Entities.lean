import MiniWaf.Std.Replace

/-! Tables of names that begin with a mark, each for a character: replaced one name
after the other over the whole text, or all in one pass.

The two agree except where the name of the mark itself stands before the rest of a
name that is replaced later.
-/

set_option autoImplicit false

namespace MiniWaf.Text

def replaceEach (table : List (Text × Char)) (s : Text) : Text := table.foldl (fun s e => replace e.1 [e.2] s) s

/-- One pass; `pending` characters of a name still have to be dropped. -/
def replaceOnceFrom (table : List (Text × Char)) : Nat → Text → Text
  | _, [] => []
  | pending + 1, _ :: rest => replaceOnceFrom table pending rest
  | 0, c :: rest =>
    match table.find? fun e => e.1.isPrefixOf (c :: rest) with
    | some e => e.2 :: replaceOnceFrom table (e.1.length - 1) rest
    | none => c :: replaceOnceFrom table 0 rest

def replaceOnce (table : List (Text × Char)) (s : Text) : Text := replaceOnceFrom table 0 s

/-- Each name is the mark and a text without it, and none begins another. -/
structure Names (mark : Char) (table : List (Text × Char)) : Prop where
  marked : ∀ e ∈ table, ∃ rest, e.1 = mark :: rest ∧ mark ∉ rest
  prefixFree : ∀ e ∈ table, ∀ e' ∈ table, e.1 <+: e'.1 → e = e'

/-- No character that replaces a name is in a name, after its mark. -/
def Inert (table : List (Text × Char)) : Prop := ∀ e ∈ table, ∀ e' ∈ table, e.2 ∉ e'.1.tail

section
variable {mark : Char} {table : List (Text × Char)}

theorem Names.sub {some : List (Text × Char)} (names : Names mark table) (sub : some ⊆ table) : Names mark some :=
  ⟨fun e member => names.marked e (sub member),
    fun e member e' member' => names.prefixFree e (sub member) e' (sub member')⟩

theorem Names.ne_nil (names : Names mark table) {e : Text × Char} (member : e ∈ table) : e.1 ≠ [] := by
  obtain ⟨rest, written, -⟩ := names.marked e member
  rw [written]
  exact List.cons_ne_nil _ _

theorem Names.tail (names : Names mark table) {e : Text × Char} (member : e ∈ table) :
    e.1 = mark :: e.1.tail ∧ mark ∉ e.1.tail := by
  obtain ⟨rest, written, unmarked⟩ := names.marked e member
  rw [written]
  exact ⟨rfl, unmarked⟩

theorem Names.unique (names : Names mark table) {e e' : Text × Char} (member : e ∈ table) (member' : e' ∈ table) {s : Text}
    (here : e.1 <+: s) (here' : e'.1 <+: s) : e = e' := by
  rcases List.prefix_or_prefix_of_prefix here here' with first | second
  · exact names.prefixFree e member e' member' first
  · exact (names.prefixFree e' member' e member second).symm

theorem Names.not_front (names : Names mark table) {e : Text × Char} (member : e ∈ table) {c : Char} (other : c ≠ mark)
    (s : Text) : ¬ e.1 <+: c :: s := by
  rw [(names.tail member).1, List.cons_prefix_cons]
  exact fun here => other here.1.symm

-- Single names

theorem replace_unmarked (names : Names mark table) {e : Text × Char} (member : e ∈ table) {replacement front : Text}
    (unmarked : mark ∉ front) (s : Text) : replace e.1 replacement (front ++ s) = front ++ replace e.1 replacement s := by
  induction front with
  | nil => rfl
  | cons c front ih =>
    rw [List.mem_cons, not_or] at unmarked
    rw [List.cons_append, replace_past (names.not_front member (Ne.symm unmarked.1) _), ih unmarked.2, List.cons_append]

theorem replace_kept (names : Names mark table) {e e' : Text × Char} (member : e ∈ table) (member' : e' ∈ table)
    (other : e' ≠ e) {replacement : Text} (s : Text) :
    replace e'.1 replacement (e.1 ++ s) = e.1 ++ replace e'.1 replacement s := by
  obtain ⟨written, unmarked⟩ := names.tail member
  have notHere : ¬ e'.1 <+: e.1 ++ s := fun here => other (names.unique member' member here (List.prefix_append _ _))
  rw [written, List.cons_append] at notHere ⊢
  rw [replace_past notHere, replace_unmarked names member' unmarked, List.cons_append]

/-- A replacement does not change whether a text without the mark, and without the new character, is at the front. -/
theorem prefix_replace (names : Names mark table) {e : Text × Char} (member : e ∈ table) {front : Text}
    (unmarked : mark ∉ front) (inert : e.2 ∉ front) (s : Text) : front <+: replace e.1 [e.2] s ↔ front <+: s := by
  induction front generalizing s with
  | nil => simp
  | cons d front ih =>
    rw [List.mem_cons, not_or] at unmarked inert
    cases s with
    | nil => exact Iff.rfl
    | cons c s =>
      by_cases other : c = mark
      · have absent : ¬ d :: front <+: c :: s := by
          rw [List.cons_prefix_cons, other]
          exact fun here => unmarked.1 here.1.symm
        refine iff_of_false ?_ absent
        by_cases here : e.1 <+: c :: s
        · obtain ⟨rest, whole⟩ := here
          rw [← whole, replace_front (names.ne_nil member), List.singleton_append, List.cons_prefix_cons]
          exact fun front => inert.1 front.1.symm
        · rw [replace_past here, List.cons_prefix_cons, other]
          exact fun front => unmarked.1 front.1.symm
      · rw [replace_past (names.not_front member other s), List.cons_prefix_cons, List.cons_prefix_cons]
        exact and_congr_right fun _ => ih unmarked.2 inert.2 s

theorem prefix_marked_replace (names : Names mark table) (inert : Inert table) {e e' : Text × Char} (member : e ∈ table)
    (member' : e' ∈ table) (s : Text) : e'.1 <+: mark :: replace e.1 [e.2] s ↔ e'.1 <+: mark :: s := by
  obtain ⟨written, unmarked⟩ := names.tail member'
  rw [written, List.cons_prefix_cons, List.cons_prefix_cons, prefix_replace names member unmarked (inert e member e' member')]

-- One name after the other: each step lemma goes through the table

theorem replaceEach_cons (e : Text × Char) (table : List (Text × Char)) (s : Text) :
    replaceEach (e :: table) s = replaceEach table (replace e.1 [e.2] s) := rfl

theorem replaceEach_append (first second : List (Text × Char)) (s : Text) :
    replaceEach (first ++ second) s = replaceEach second (replaceEach first s) := List.foldl_append

theorem replaceEach_unmarked {some : List (Text × Char)} (names : Names mark table) (sub : some ⊆ table) {front : Text}
    (unmarked : mark ∉ front) (s : Text) : replaceEach some (front ++ s) = front ++ replaceEach some s := by
  induction some generalizing s with
  | nil => rfl
  | cons e some ih =>
    obtain ⟨here, later⟩ := List.cons_subset.mp sub
    rw [replaceEach_cons, replace_unmarked names here unmarked, ih later, replaceEach_cons]

theorem replaceEach_past {some : List (Text × Char)} (names : Names mark table) (sub : some ⊆ table) {c : Char}
    (other : c ≠ mark) (s : Text) : replaceEach some (c :: s) = c :: replaceEach some s := by
  have alone : mark ∉ [c] := by simpa using Ne.symm other
  exact replaceEach_unmarked names sub alone s

theorem replaceEach_kept {some : List (Text × Char)} (names : Names mark table) (sub : some ⊆ table) {e : Text × Char}
    (member : e ∈ table) (other : e ∉ some) (s : Text) : replaceEach some (e.1 ++ s) = e.1 ++ replaceEach some s := by
  induction some generalizing s with
  | nil => rfl
  | cons e' some ih =>
    obtain ⟨here, later⟩ := List.cons_subset.mp sub
    rw [List.mem_cons, not_or] at other
    rw [replaceEach_cons, replace_kept names member here (Ne.symm other.1), ih later other.2, replaceEach_cons]

theorem replaceEach_none {some : List (Text × Char)} (names : Names mark table) (inert : Inert table) (sub : some ⊆ table)
    {s : Text} (none : ∀ e ∈ some, ¬ e.1 <+: mark :: s) : replaceEach some (mark :: s) = mark :: replaceEach some s := by
  induction some generalizing s with
  | nil => rfl
  | cons e some ih =>
    obtain ⟨here, later⟩ := List.cons_subset.mp sub
    obtain ⟨notHere, notLater⟩ := List.forall_mem_cons.mp none
    rw [replaceEach_cons, replace_past notHere, ih later, replaceEach_cons]
    intro e' member'
    rw [prefix_marked_replace names inert here (later member')]
    exact notLater e' member'

theorem replaceEach_front {some : List (Text × Char)} (names : Names mark table) (sub : some ⊆ table) {e : Text × Char}
    (member : e ∈ some) (other : e.2 ≠ mark) (s : Text) : replaceEach some (e.1 ++ s) = e.2 :: replaceEach some s := by
  induction some generalizing s with
  | nil => cases member
  | cons e' some ih =>
    obtain ⟨here, later⟩ := List.cons_subset.mp sub
    by_cases same : e' = e
    · subst same
      rw [replaceEach_cons, replace_front (names.ne_nil here), List.singleton_append, replaceEach_past names later other,
        replaceEach_cons]
    · have inRest := (List.mem_cons.mp member).resolve_left (Ne.symm same)
      rw [replaceEach_cons, replace_kept names (later inRest) here same, ih later inRest, replaceEach_cons]

theorem prefix_replaceEach {some : List (Text × Char)} (names : Names mark table) (inert : Inert table) (sub : some ⊆ table)
    {e : Text × Char} (member : e ∈ table) (s : Text) : e.1.tail <+: replaceEach some s ↔ e.1.tail <+: s := by
  induction some generalizing s with
  | nil => exact Iff.rfl
  | cons e' some ih =>
    obtain ⟨here, later⟩ := List.cons_subset.mp sub
    rw [replaceEach_cons, ih later, prefix_replace names here (names.tail member).2 (inert e' here e member)]

-- In one pass

theorem replaceOnceFrom_drop (pending : Nat) (s : Text) :
    replaceOnceFrom table pending s = replaceOnce table (s.drop pending) := by
  induction pending generalizing s with
  | zero => rfl
  | succ pending ih =>
    cases s with
    | nil => rfl
    | cons c s => exact ih s

theorem replaceOnce_past {c : Char} {s : Text} (none : ∀ e ∈ table, ¬ e.1 <+: c :: s) :
    replaceOnce table (c :: s) = c :: replaceOnce table s := by
  have notFound : (table.find? fun e => e.1.isPrefixOf (c :: s)) = Option.none := by
    rw [List.find?_eq_none]
    intro e member here
    exact none e member (List.isPrefixOf_iff_prefix.mp here)
  rw [replaceOnce, replaceOnceFrom, notFound]
  rfl

theorem replaceOnce_front (names : Names mark table) {e : Text × Char} (member : e ∈ table) (s : Text) :
    replaceOnce table (e.1 ++ s) = e.2 :: replaceOnce table s := by
  obtain ⟨written, -⟩ := names.tail member
  have here : e.1.isPrefixOf (mark :: (e.1.tail ++ s)) = true := by
    rw [List.isPrefixOf_iff_prefix, ← List.cons_append, ← written]
    exact List.prefix_append _ _
  have found : (table.find? fun e' => e'.1.isPrefixOf (mark :: (e.1.tail ++ s))) = some e := by
    cases search : table.find? fun e' => e'.1.isPrefixOf (mark :: (e.1.tail ++ s)) with
    | none => exact absurd here (List.find?_eq_none.mp search e member)
    | some e' =>
      have first : e'.1 <+: mark :: (e.1.tail ++ s) := by simpa using List.find?_some search
      rw [names.unique (List.mem_of_find?_eq_some search) member first (List.isPrefixOf_iff_prefix.mp here)]
  have size : e.1.length - 1 = e.1.tail.length := List.length_tail.symm
  rw [written, List.cons_append, replaceOnce, replaceOnceFrom, found]
  simp only [size, replaceOnceFrom_drop, List.drop_left]

@[elab_as_elim]
theorem Names.texts {motive : Text → Prop} (names : Names mark table) (nil : motive [])
    (past : ∀ c s, c ≠ mark → motive s → motive (c :: s)) (front : ∀ e ∈ table, ∀ s, motive s → motive (e.1 ++ s))
    (alone : ∀ s, (∀ e ∈ table, ¬ e.1 <+: mark :: s) → motive s → motive (mark :: s)) (s : Text) : motive s := by
  induction length : s.length using Nat.strongRecOn generalizing s with
  | ind n ih =>
    cases s with
    | nil => exact nil
    | cons c s =>
      rw [List.length_cons] at length
      have tail := ih s.length (by omega) s rfl
      by_cases other : c = mark
      · subst other
        by_cases named : ∃ e ∈ table, e.1 <+: c :: s
        · obtain ⟨e, member, rest, whole⟩ := named
          have size := congrArg List.length whole
          have positive := List.length_pos_of_ne_nil (names.ne_nil member)
          rw [List.length_append, List.length_cons] at size
          rw [← whole]
          exact front e member rest (ih rest.length (by omega) rest rfl)
        · exact alone s (fun e member here => named ⟨e, member, here⟩) tail
      · exact past c s other tail

end

-- The mark's own name

section
variable {mark : Char} {before after : List (Text × Char)} {own : Text}

/-- The names whose rests may follow the name of the mark: they are replaced after it. -/
def Doubled (own : Text) (after : List (Text × Char)) (s : Text) : Prop := ∃ e ∈ after, own ++ e.1.tail <:+: s

theorem doubled_cons {c : Char} {s : Text} (notHere : ¬ own <+: c :: s) :
    Doubled own after (c :: s) ↔ Doubled own after s := by
  apply exists_congr
  intro e
  apply and_congr_right
  intro member
  rw [List.infix_cons_iff, or_iff_right]
  exact fun front => notHere ((List.prefix_append own _).trans front)

theorem doubled_past (names : Names mark (before ++ (own, mark) :: after)) {c : Char} (other : c ≠ mark) (s : Text) :
    Doubled own after (c :: s) ↔ Doubled own after s := by
  have ownMember : (own, mark) ∈ before ++ (own, mark) :: after := by simp
  exact doubled_cons (names.not_front ownMember other s)

/-- Where the mark's own name does not begin, a doubled name is not there and not inside a name. -/
theorem doubled_front (names : Names mark (before ++ (own, mark) :: after)) {e : Text × Char}
    (member : e ∈ before ++ (own, mark) :: after) (other : e ≠ (own, mark)) (s : Text) :
    Doubled own after (e.1 ++ s) ↔ Doubled own after s := by
  have ownMember : (own, mark) ∈ before ++ (own, mark) :: after := by simp
  obtain ⟨written, unmarked⟩ := names.tail member
  obtain ⟨ownWritten, -⟩ := names.tail ownMember
  apply exists_congr
  intro e'
  apply and_congr_right
  intro member'
  constructor
  · intro inside
    rw [written, List.cons_append, List.infix_cons_iff] at inside
    rcases inside with here | later
    · rw [← List.cons_append, ← written] at here
      have own_here := (List.prefix_append own _).trans here
      exact absurd (names.unique member ownMember (List.prefix_append e.1 s) own_here) other
    · have marked : own ++ e'.1.tail = mark :: (own.tail ++ e'.1.tail) := by
        rw [← List.cons_append, ← ownWritten]
      rw [marked] at later ⊢
      exact infix_of_infix_append unmarked later
  · exact fun inside => inside.trans (List.suffix_append _ _).isInfix

theorem doubled_alone {s : Text} (none : ∀ e ∈ before ++ (own, mark) :: after, ¬ e.1 <+: mark :: s) :
    Doubled own after (mark :: s) ↔ Doubled own after s :=
  doubled_cons (none (own, mark) (by simp))

theorem doubled_own (names : Names mark (before ++ (own, mark) :: after)) {s : Text}
    (none : ∀ e ∈ after, ¬ e.1.tail <+: s) : Doubled own after (own ++ s) ↔ Doubled own after s := by
  obtain ⟨written, unmarked⟩ := names.tail (e := (own, mark)) (by simp)
  apply exists_congr
  intro e
  apply and_congr_right
  intro member
  constructor
  · intro inside
    have split : own ++ s = mark :: (own.tail ++ s) := by rw [← List.cons_append, ← written]
    have marked : own ++ e.1.tail = mark :: (own.tail ++ e.1.tail) := by rw [← List.cons_append, ← written]
    rw [split, List.infix_cons_iff, ← split] at inside
    rcases inside with here | later
    · exact absurd ((List.prefix_append_right_inj own).mp here) (none e member)
    · rw [marked] at later ⊢
      exact infix_of_infix_append unmarked later
  · exact fun inside => inside.trans (List.suffix_append _ _).isInfix

theorem replaceEach_nil (table : List (Text × Char)) : replaceEach table [] = [] := by
  induction table with
  | nil => rfl
  | cons e table ih => exact ih

section
variable (names : Names mark (before ++ (own, mark) :: after)) (inert : Inert (before ++ (own, mark) :: after))
  (others : ∀ e ∈ before ++ after, e.2 ≠ mark)
include names others

theorem replaceEach_own (s : Text) : replaceEach (before ++ (own, mark) :: after) (own ++ s) =
    replaceEach after (mark :: replaceEach (before ++ [(own, mark)]) s) := by
  have sub : before ⊆ before ++ (own, mark) :: after := List.subset_append_left _ _
  have notBefore : (own, mark) ∉ before := fun member => others _ (List.mem_append_left _ member) rfl
  have ownMember : (own, mark) ∈ before ++ (own, mark) :: after := by simp
  have kept := replaceEach_kept names sub ownMember notBefore s
  rw [replaceEach_append, kept, replaceEach_cons, replace_front (names.ne_nil ownMember), replaceEach_append]
  rfl

theorem replaceEach_own_doubled {e : Text × Char} (member : e ∈ after) {s : Text} (follows : e.1.tail <+: s) :
    ∃ rest, replaceEach (before ++ (own, mark) :: after) (own ++ s) = e.2 :: rest := by
  have first : before ++ [(own, mark)] ⊆ before ++ (own, mark) :: after := by simp
  have last : after ⊆ before ++ (own, mark) :: after := by
    intro e member
    simp [member]
  obtain ⟨rest, rfl⟩ := follows
  obtain ⟨written, unmarked⟩ := names.tail (last member)
  have whole (t : Text) : mark :: (e.1.tail ++ t) = e.1 ++ t := by rw [← List.cons_append, ← written]
  rw [replaceEach_own names others, replaceEach_unmarked names first unmarked, whole,
    replaceEach_front names last member (others e (List.mem_append_right _ member))]
  exact ⟨_, rfl⟩

include inert

theorem replaceEach_own_alone {s : Text} (none : ∀ e ∈ after, ¬ e.1.tail <+: s) :
    replaceEach (before ++ (own, mark) :: after) (own ++ s) = mark :: replaceEach (before ++ (own, mark) :: after) s := by
  have first : before ++ [(own, mark)] ⊆ before ++ (own, mark) :: after := by simp
  have last : after ⊆ before ++ (own, mark) :: after := by
    intro e member
    simp [member]
  rw [replaceEach_own names others, replaceEach_none names inert last, ← replaceEach_append, List.append_assoc]
  · rfl
  · intro e member front
    rw [(names.tail (last member)).1, List.cons_prefix_cons, prefix_replaceEach names inert first (last member)] at front
    exact none e member front.2

/-- One name after the other is one pass, exactly on the texts where the mark's own name does not stand before the rest
of a name replaced after it. -/
theorem replaceEach_eq_once_iff (s : Text) :
    replaceEach (before ++ (own, mark) :: after) s = replaceOnce (before ++ (own, mark) :: after) s ↔
      ¬ Doubled own after s := by
  have refl := List.Subset.refl (before ++ (own, mark) :: after)
  induction s using names.texts with
  | nil =>
    refine iff_of_true (replaceEach_nil _) ?_
    rintro ⟨e, member, inside⟩
    exact names.ne_nil (e := (own, mark)) (by simp) (List.append_eq_nil_iff.mp (List.infix_nil.mp inside)).1
  | past c s other ih =>
    rw [replaceEach_past names refl other, replaceOnce_past fun e member => names.not_front member other s,
      List.cons_inj_right, doubled_past names other]
    exact ih
  | front e member s ih =>
    rw [replaceOnce_front names member]
    by_cases same : e = (own, mark)
    · subst same
      by_cases follows : ∃ e ∈ after, e.1.tail <+: s
      · obtain ⟨e, later, front⟩ := follows
        obtain ⟨rest, doubled⟩ := replaceEach_own_doubled names others later front
        rw [doubled]
        refine iff_of_false ?_ (not_not.mpr ⟨e, later, ?_⟩)
        · intro equal
          exact others e (List.mem_append_right _ later) (List.cons.inj equal).1
        · exact ((List.prefix_append_right_inj own).mpr front).isInfix
      · have none : ∀ e ∈ after, ¬ e.1.tail <+: s := fun e later front => follows ⟨e, later, front⟩
        rw [replaceEach_own_alone names inert others none, List.cons_inj_right, doubled_own names none]
        exact ih
    · have notMark : e.2 ≠ mark := by
        rcases List.mem_append.mp member with early | late
        · exact others e (List.mem_append_left _ early)
        · exact others e (List.mem_append_right _ ((List.mem_cons.mp late).resolve_left same))
      rw [replaceEach_front names refl member notMark, List.cons_inj_right, doubled_front names member same]
      exact ih
  | alone s none ih =>
    rw [replaceEach_none names inert refl none, replaceOnce_past none, List.cons_inj_right, doubled_alone none]
    exact ih

end

-- Marks written as their name

def escapeMarks (mark : Char) (own t : Text) : Text := t.flatMap fun c => if c = mark then own else [c]

theorem escapeMarks_mark (t : Text) : escapeMarks mark own (mark :: t) = own ++ escapeMarks mark own t := by
  rw [escapeMarks, List.flatMap_cons, if_pos rfl]
  rfl

theorem escapeMarks_past {c : Char} (other : c ≠ mark) (t : Text) :
    escapeMarks mark own (c :: t) = c :: escapeMarks mark own t := by
  rw [escapeMarks, List.flatMap_cons, if_neg other]
  rfl

section
variable (names : Names mark (before ++ (own, mark) :: after))
include names

theorem replaceOnce_escapeMarks (t : Text) :
    replaceOnce (before ++ (own, mark) :: after) (escapeMarks mark own t) = t := by
  have ownMember : (own, mark) ∈ before ++ (own, mark) :: after := by simp
  induction t with
  | nil => rfl
  | cons c t ih =>
    by_cases same : c = mark
    · rw [same, escapeMarks_mark]
      exact (replaceOnce_front names ownMember _).trans (congrArg _ ih)
    · rw [escapeMarks_past same, replaceOnce_past fun e member => names.not_front member same _, ih]

theorem prefix_escapeMarks {front : Text} (unmarked : mark ∉ front) (t : Text) :
    front <+: escapeMarks mark own t ↔ front <+: t := by
  obtain ⟨written, -⟩ := names.tail (e := (own, mark)) (by simp)
  induction front generalizing t with
  | nil => simp
  | cons d front ih =>
    rw [List.mem_cons, not_or] at unmarked
    cases t with
    | nil => exact Iff.rfl
    | cons c t =>
      by_cases same : c = mark
      · rw [same, escapeMarks_mark]
        have here : own ++ escapeMarks mark own t = mark :: (own.tail ++ escapeMarks mark own t) := by
          rw [← List.cons_append, ← written]
        rw [here, List.cons_prefix_cons, List.cons_prefix_cons]
        exact iff_of_false (fun front => unmarked.1 front.1.symm) (fun front => unmarked.1 front.1.symm)
      · rw [escapeMarks_past same, List.cons_prefix_cons, List.cons_prefix_cons, ih unmarked.2]

theorem doubled_escapeMarks (t : Text) :
    Doubled own after (escapeMarks mark own t) ↔ ∃ e ∈ after, e.1 <:+: t := by
  have ownMember : (own, mark) ∈ before ++ (own, mark) :: after := by simp
  apply exists_congr
  intro e
  apply and_congr_right
  intro member
  have member' : e ∈ before ++ (own, mark) :: after := by simp [member]
  obtain ⟨written, unmarked⟩ := names.tail member'
  obtain ⟨ownWritten, ownUnmarked⟩ := names.tail ownMember
  have marked : own ++ e.1.tail = mark :: (own.tail ++ e.1.tail) := by
    rw [← List.cons_append, ← ownWritten]
  change own ++ e.1.tail <:+: escapeMarks mark own t ↔ e.1 <:+: t
  induction t with
  | nil =>
    rw [escapeMarks, List.flatMap_nil, List.infix_nil, List.infix_nil]
    exact iff_of_false (by rw [marked]; exact List.cons_ne_nil _ _) (names.ne_nil member')
  | cons c t ih =>
    by_cases same : c = mark
    · have split : own ++ escapeMarks mark own t = mark :: (own.tail ++ escapeMarks mark own t) := by
        rw [← List.cons_append, ← ownWritten]
      have later : own ++ e.1.tail <:+: own.tail ++ escapeMarks mark own t ↔
          own ++ e.1.tail <:+: escapeMarks mark own t := by
        rw [marked]
        exact ⟨infix_of_infix_append ownUnmarked, fun inside => inside.trans (List.suffix_append _ _).isInfix⟩
      have front : own ++ e.1.tail <+: own ++ escapeMarks mark own t ↔ e.1 <+: mark :: t := by
        rw [List.prefix_append_right_inj, prefix_escapeMarks names unmarked, written, List.cons_prefix_cons, List.tail_cons]
        exact (and_iff_right rfl).symm
      rw [same, escapeMarks_mark, split, List.infix_cons_iff, ← split, front, later, ih, ← List.infix_cons_iff]
    · have past (needle u : Text) : mark :: needle <+: c :: u ↔ False := by
        rw [List.cons_prefix_cons, iff_false]
        exact fun here => same here.1.symm
      rw [escapeMarks_past same, List.infix_cons_iff, List.infix_cons_iff, ih, marked, written, past, past]

end

end

end MiniWaf.Text
