import MiniWaf.Crs.Transform
import MiniWaf.Std.Entities

/-! The entities of `html_entity_decode`. Seven of them are replaced after `&amp;`,
and so take up the ampersand that it leaves.
-/

set_option autoImplicit false

namespace MiniWaf.Crs

def earlierEntities : List (Text × Char) := entities.take 2

def laterEntities : List (Text × Char) := entities.drop 3

theorem entities_eq : entities = earlierEntities ++ ("&amp;".toList, '&') :: laterEntities := rfl

theorem entities_names : Text.Names '&' entities where
  marked := by simp [entities]
  prefixFree := by decide

theorem entities_inert : Text.Inert entities := by
  unfold Text.Inert
  decide

theorem others_not_mark : ∀ e ∈ earlierEntities ++ laterEntities, e.2 ≠ '&' := by decide

theorem htmlEntityDecode_eq (s : Text) : htmlEntityDecode s = Text.replaceEach entities s := rfl

/-- Decoding is one pass exactly on the texts where `&amp;` does not stand before the rest of an entity that is replaced
after it; so a text survives the escaping of its ampersands exactly if it has none of these entities. -/
theorem htmlEntityDecode_exact (s t : Text) :
    (htmlEntityDecode s = Text.replaceOnce entities s ↔ ∀ e ∈ laterEntities, ¬ "&amp;".toList ++ e.1.tail <:+: s) ∧
      (htmlEntityDecode (Text.escapeMarks '&' "&amp;".toList t) = t ↔ ∀ e ∈ laterEntities, ¬ e.1 <:+: t) := by
  have names := entities_names
  have inert := entities_inert
  rw [entities_eq] at names inert
  have once (s : Text) : htmlEntityDecode s = Text.replaceOnce entities s ↔ ¬ Text.Doubled "&amp;".toList laterEntities s := by
    rw [htmlEntityDecode_eq, entities_eq]
    exact Text.replaceEach_eq_once_iff names inert others_not_mark s
  have readBack (t : Text) : Text.replaceOnce entities (Text.escapeMarks '&' "&amp;".toList t) = t :=
    Text.replaceOnce_escapeMarks names t
  have doubled (t : Text) : Text.Doubled "&amp;".toList laterEntities (Text.escapeMarks '&' "&amp;".toList t) ↔
      ∃ e ∈ laterEntities, e.1 <:+: t := Text.doubled_escapeMarks names t
  constructor
  · rw [once, Text.Doubled]
    simp only [not_exists, not_and]
  · have here := once (Text.escapeMarks '&' "&amp;".toList t)
    rw [readBack, doubled] at here
    rw [here]
    simp only [not_exists, not_and]

/-- An escaped ampersand before `quot;` is decoded a second time. -/
theorem htmlEntityDecode_twice :
    htmlEntityDecode "&amp;quot;".toList = ['"'] ∧ Text.replaceOnce entities "&amp;quot;".toList = "&quot;".toList ∧
      Text.escapeMarks '&' "&amp;".toList "&quot;".toList = "&amp;quot;".toList := by
  decide

end MiniWaf.Crs
