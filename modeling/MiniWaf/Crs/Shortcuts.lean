import MiniWaf.Crs.Paths

/-! When the shortcuts of `apply_transforms` leave a text as the transform would. -/

set_option autoImplicit false

namespace MiniWaf.Crs

-- Trimming

theorem trim_within (s : Text) : Text.trim s <:+: s := by
  obtain ⟨before, after, -, -, shape⟩ := Text.exists_trim s
  refine ⟨before, after, ?_⟩
  rw [List.append_assoc]
  exact shape.symm

theorem trim_eq_self {s : Text} (same : (Text.utf8 (Text.trim s)).length = (Text.utf8 s).length) : Text.trim s = s := by
  obtain ⟨front, back, whole⟩ := trim_within s
  have sizes := congrArg (fun t => (Text.utf8 t).length) whole
  simp only [Text.utf8_append, List.length_append, same] at sizes
  have front_nil : front = [] := by
    apply List.eq_nil_of_length_eq_zero
    have most := (Text.length_le_utf8 front).1
    omega
  have back_nil : back = [] := by
    apply List.eq_nil_of_length_eq_zero
    have most := (Text.length_le_utf8 back).1
    omega
  rw [front_nil, back_nil, List.nil_append, List.append_nil] at whole
  exact whole

-- Entities

theorem htmlEntityDecode_of_none {s : Text} (none : '&' ∉ s) : htmlEntityDecode s = s := by
  have begin_ : ∀ entity ∈ entities, ∃ rest, entity.1 = '&' :: rest := by
    simp [entities]
  have general : ∀ some : List (Text × Char), some ⊆ entities →
      some.foldl (fun s entity => Text.replace entity.1 [entity.2] s) s = s := by
    intro some
    induction some with
    | nil => exact fun _ => rfl
    | cons entity later ih =>
      intro sub
      obtain ⟨here, rest⟩ := List.cons_subset.mp sub
      obtain ⟨name, written⟩ := begin_ entity here
      rw [List.foldl_cons, written, Text.replace_of_not_mem none]
      exact ih rest
  exact general entities (List.Subset.refl _)

-- Comments

theorem commentChars_of_none {bytes : List UInt8} (noBlock : ¬ [0x2F, 0x2A] <:+: bytes) (noLine : ¬ [0x2D, 0x2D] <:+: bytes) :
    commentChars bytes = bytes.map asChar := by
  induction bytes with
  | nil => rw [commentChars, List.map_nil]
  | cons b rest ih =>
    rw [List.infix_cons_iff, not_or] at noBlock noLine
    have begins (first second : UInt8) : b = first ∧ rest.head? = some second → [first, second] <+: b :: rest := by
      rintro ⟨rfl, head⟩
      obtain ⟨more, rfl⟩ := List.head?_eq_some_iff.mp head
      exact ⟨more, rfl⟩
    rw [commentChars, if_neg fun here => noBlock.1 (begins _ _ here), if_neg fun here => noLine.1 (begins _ _ here),
      ih noBlock.2 noLine.2, List.map_cons]

theorem map_asChar_utf8 (s : Text) : (Text.utf8 s).map asChar = s ↔ ∀ c ∈ s, c.toNat < 128 := by
  constructor
  · intro same
    have sizes := congrArg List.length same
    rw [List.length_map] at sizes
    exact (Text.length_le_utf8 s).2 sizes
  · intro ascii
    induction s with
    | nil => rfl
    | cons c s ih =>
      obtain ⟨here, later⟩ := List.forall_mem_cons.mp ascii
      rw [Text.utf8_cons, Text.encodeChar_of_ascii here, List.map_append, ih later, List.map_singleton, asChar,
        Text.toNat_byte (by omega), Char.ofNat_toNat]
      rfl

theorem replaceComments_of_none {s : Text} (noBlock : ¬ ['/', '*'] <:+: s) (noLine : ¬ ['-', '-'] <:+: s) :
    replaceComments s = s ↔ ∀ c ∈ s, c.toNat < 128 := by
  have block : ¬ [0x2F, 0x2A] <:+: Text.utf8 s := fun inside => noBlock (Text.infix_utf8 rfl inside)
  have line : ¬ [0x2D, 0x2D] <:+: Text.utf8 s := fun inside => noLine (Text.infix_utf8 rfl inside)
  rw [replaceComments, commentChars_of_none block line, map_asChar_utf8]

-- Steps

def isCapital (c : Char) : Bool := 0x41 ≤ c.toNat && c.toNat ≤ 0x5A

theorem shortcut_lowercase (s : Text) : shortcut .lowercase s = true ↔ ∀ c ∈ s, isCapital c = false := by
  have capital (b : UInt8) : (decide (0x41 ≤ b) && decide (b ≤ 0x5A)) = decide (65 ≤ b.toNat ∧ b.toNat ≤ 90) :=
    Text.between_iff 0x41 b 0x5A
  unfold shortcut
  simp only [List.all_eq_true, Bool.not_eq_true', capital, isCapital, ← Bool.decide_and, decide_eq_false_iff_not]
  constructor
  · intro all c member isCapital
    apply all (UInt8.ofNat c.toNat)
    · apply List.mem_flatMap.mpr ⟨c, member, ?_⟩
      rw [Text.encodeChar_of_ascii (by omega)]
      exact List.mem_singleton_self _
    · rwa [Text.toNat_byte (by omega)]
  · intro all b member isCapital
    obtain ⟨c, inText, inBytes⟩ := List.mem_flatMap.mp member
    have same := Text.char_of_ascii_byte inBytes (by omega)
    exact all c inText (same ▸ isCapital)

section
variable (platform : Platform)

/-- What a text must be for the shortcut to be right: one with an ASCII capital or without capitals of any kind, and
one with a comment or of ASCII alone. -/
def Suits (s : Text) (t : CrsTransform) : Prop :=
  match t with
  | .lowercase => (∃ c ∈ s, isCapital c = true) ∨ (lowercase platform s).toList = s
  | .replaceComments => ['/', '*'] <:+: s ∨ ['-', '-'] <:+: s ∨ ∀ c ∈ s, c.toNat < 128
  | _ => True

/-- A turn of the loop does what the transform does exactly on the texts that suit it. -/
theorem applyTransform_eq_iff (s : Text) (t : CrsTransform) :
    applyTransform platform s t = procedure platform t s ↔ Suits platform s t := by
  have kept (same : shortcut t s = true → procedure platform t s = s) : applyTransform platform s t = procedure platform t s := by
    unfold applyTransform
    by_cases short : shortcut t s = true
    · rw [if_pos short, same short]
    · rw [if_neg short]
  cases t with
  | lowercase =>
    unfold applyTransform
    by_cases short : shortcut .lowercase s = true
    · have none := (shortcut_lowercase s).mp short
      have noCapital : ¬ ∃ c ∈ s, isCapital c = true := by
        rintro ⟨c, member, capital⟩
        rw [none c member] at capital
        cases capital
      rw [if_pos short, Suits, or_iff_right noCapital, eq_comm]
      rfl
    · rw [if_neg short]
      refine iff_of_true rfl (.inl ?_)
      rw [shortcut_lowercase] at short
      simpa using short
  | replaceComments =>
    unfold applyTransform
    by_cases short : shortcut .replaceComments s = true
    · have none := short
      simp only [shortcut, Bool.and_eq_true, Bool.not_eq_true', Bool.eq_false_iff, ne_eq, Text.containsText_iff] at none
      rw [if_pos short, Suits, or_iff_right none.1, or_iff_right none.2, ← replaceComments_of_none none.1 none.2, eq_comm]
      rfl
    · rw [if_neg short]
      refine iff_of_true rfl ?_
      simp only [shortcut, Bool.and_eq_true, Bool.not_eq_true', Bool.eq_false_iff, ne_eq, Text.containsText_iff] at short
      by_cases block : ['/', '*'] <:+: s
      · exact .inl block
      · exact .inr (.inl (not_not.mp fun line => short ⟨block, line⟩))
  | trim => exact iff_of_true (kept fun short => trim_eq_self (by simpa [shortcut] using short)) trivial
  | removeNulls =>
    refine iff_of_true (kept fun short => ?_) trivial
    exact Text.replace_of_not_mem (by simpa [shortcut] using short)
  | urlDecodeUni =>
    refine iff_of_true (kept fun short => ?_) trivial
    exact urlDecodeUni_of_none (by simpa [shortcut] using short)
  | htmlEntityDecode =>
    refine iff_of_true (kept fun short => ?_) trivial
    exact htmlEntityDecode_of_none (by simpa [shortcut] using short)
  | _ => exact iff_of_true rfl trivial

-- Runs

/-- The transforms in order, without shortcuts. -/
def runProcedures (s : Text) (transforms : List CrsTransform) : Text :=
  transforms.foldl (fun s t => procedure platform t s) s

theorem applyTransforms_concat (s : Text) (before : List CrsTransform) (t : CrsTransform) :
    applyTransforms platform s (before ++ [t]) = applyTransform platform (applyTransforms platform s before) t := by
  rw [applyTransforms, List.foldl_append]
  rfl

theorem runProcedures_concat (s : Text) (before : List CrsTransform) (t : CrsTransform) :
    runProcedures platform s (before ++ [t]) = procedure platform t (runProcedures platform s before) := by
  rw [runProcedures, List.foldl_append]
  rfl

def AllSuit (s : Text) (transforms : List CrsTransform) : Prop :=
  ∀ before t, before ++ [t] <+: transforms → Suits platform (runProcedures platform s before) t

/-- The shortcuts change nothing along a list, after any of its transforms, exactly if every transform finds a text
that suits it. -/
theorem shortcuts_exact (s : Text) (transforms : List CrsTransform) :
    (∀ front, front <+: transforms → applyTransforms platform s front = runProcedures platform s front) ↔
      AllSuit platform s transforms := by
  constructor
  · intro same before t inside
    have earlier := same before ((List.prefix_append before [t]).trans inside)
    have here := same (before ++ [t]) inside
    rw [applyTransforms_concat, runProcedures_concat, earlier] at here
    exact (applyTransform_eq_iff platform _ t).mp here
  · intro suits front
    induction front using List.reverseRecOn with
    | nil => exact fun _ => rfl
    | append_singleton before t ih =>
      intro inside
      rw [applyTransforms_concat, runProcedures_concat, ih ((List.prefix_append before [t]).trans inside)]
      exact (applyTransform_eq_iff platform _ t).mpr (suits before t inside)

end

def latin : Platform :=
  { Platform.plain with
    unicodeLower := fun s => s.map fun c =>
      if 0xC0 ≤ c.toNat ∧ c.toNat ≤ 0xDE ∧ c.toNat ≠ 0xD7 then Char.ofNat (c.toNat + 32) else c.toLower }

/-- A capital outside ASCII is overlooked, and so are the bytes that `replace_comments` takes apart. -/
theorem shortcuts_overlook :
    (applyTransforms latin ['É'] [.lowercase] = ['É'] ∧ runProcedures latin ['É'] [.lowercase] = ['é']) ∧
      applyTransforms latin ['é'] [.replaceComments] = ['é'] ∧
        runProcedures latin ['é'] [.replaceComments] = ['Ã', '©'] := by
  refine ⟨⟨by decide +kernel, by decide +kernel⟩, by decide +kernel, ?_⟩
  have block : ¬ [0x2F, 0x2A] <:+: Text.utf8 ['é'] := by decide
  have line : ¬ [0x2D, 0x2D] <:+: Text.utf8 ['é'] := by decide
  change commentChars (Text.utf8 ['é']) = _
  rw [commentChars_of_none block line]
  decide +kernel

end MiniWaf.Crs
