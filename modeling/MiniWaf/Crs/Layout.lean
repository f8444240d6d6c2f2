import MiniWaf.Crs.Parser

/-! Lines of a rule file as they are laid out. A line may run over several, of which all
but the last end in a backslash.
-/

set_option autoImplicit false

namespace MiniWaf.Crs

def ending (crlf : Bool) : Text := if crlf then ['\r', '\n'] else ['\n']

structure Piece where
  text : Text
  crlf : Bool
  unbroken : '\n' ∉ text

/-- A line that is continued after each of its pieces but the last, which does not end as if it were. -/
structure Layout where
  continued : List Piece
  last : Piece
  final : last.text.getLast? ≠ some '\\' ∧ last.text.getLast? ≠ some '\r'

namespace Layout

def text (layout : Layout) : Text :=
  (layout.continued.flatMap fun piece => piece.text ++ '\\' :: ending piece.crlf) ++
    (layout.last.text ++ ending layout.last.crlf)

def joined (layout : Layout) : Text :=
  (layout.continued.flatMap fun piece => piece.text ++ [' ']) ++ layout.last.text

end Layout

-- Lines

theorem stripSuffix_of_last {c : Char} {s : Text} (other : s.getLast? ≠ some c) : Text.stripSuffix [c] s = none := by
  cases stripped : Text.stripSuffix [c] s with
  | none => rfl
  | some front =>
    rw [Text.stripSuffix_eq_some] at stripped
    exact absurd (by rw [stripped, List.getLast?_concat]) other

theorem lines_ending {line : Text} (unbroken : '\n' ∉ line) (noReturn : line.getLast? ≠ some '\r') (crlf : Bool)
    (rest : Text) : Text.lines (line ++ (ending crlf ++ rest)) = line :: Text.lines rest := by
  cases crlf with
  | false =>
    have cut := Text.lines_cons unbroken rest
    rw [stripSuffix_of_last noReturn] at cut
    exact cut
  | true =>
    have unbroken' : '\n' ∉ line ++ ['\r'] := by simpa using unbroken
    have cut := Text.lines_cons unbroken' rest
    rw [(Text.stripSuffix_eq_some _ _ line).mpr rfl, List.append_assoc] at cut
    exact cut

theorem lines_continued (pieces : List Piece) (rest : Text) :
    Text.lines ((pieces.flatMap fun piece => piece.text ++ '\\' :: ending piece.crlf) ++ rest) =
      pieces.map (fun piece => piece.text ++ ['\\']) ++ Text.lines rest := by
  induction pieces with
  | nil => rfl
  | cons piece pieces ih =>
    have unbroken : '\n' ∉ piece.text ++ ['\\'] := by simpa using piece.unbroken
    have noReturn : (piece.text ++ ['\\']).getLast? ≠ some '\r' := by
      rw [List.getLast?_concat]
      decide
    have cut := lines_ending unbroken noReturn piece.crlf
      ((pieces.flatMap fun piece => piece.text ++ '\\' :: ending piece.crlf) ++ rest)
    rw [ih, List.append_assoc] at cut
    rw [List.flatMap_cons, List.append_assoc, List.append_assoc]
    exact cut

theorem lines_layout (layout : Layout) (rest : Text) :
    Text.lines (layout.text ++ rest) =
      layout.continued.map (fun piece => piece.text ++ ['\\']) ++ layout.last.text :: Text.lines rest := by
  have cut := lines_ending layout.last.unbroken layout.final.2 layout.last.crlf rest
  rw [Layout.text, List.append_assoc, List.append_assoc, lines_continued]
  exact congrArg _ cut

-- Joining

theorem joinFrom_continued (pieces : List Piece) (current : Text) (rest : List Text) :
    joinFrom current (pieces.map (fun piece => piece.text ++ ['\\']) ++ rest) =
      joinFrom (current ++ pieces.flatMap fun piece => piece.text ++ [' ']) rest := by
  induction pieces generalizing current with
  | nil =>
    rw [List.flatMap_nil, List.append_nil]
    rfl
  | cons piece pieces ih =>
    rw [List.map_cons, List.cons_append, joinFrom, (Text.stripSuffix_eq_some _ _ piece.text).mpr rfl]
    dsimp only
    rw [ih, List.flatMap_cons, List.append_assoc, List.append_assoc, List.append_assoc]

theorem joinFrom_layout (layout : Layout) (rest : List Text) :
    joinFrom [] (layout.continued.map (fun piece => piece.text ++ ['\\']) ++ layout.last.text :: rest) =
      [Text.trim layout.joined].filter (· ≠ []) ++ joinFrom [] rest := by
  rw [joinFrom_continued, List.nil_append, joinFrom, stripSuffix_of_last layout.final.1]
  dsimp only
  rw [← Layout.joined]
  by_cases blank : Text.trim layout.joined = []
  · rw [if_pos blank, blank]
    rfl
  · rw [if_neg blank, List.filter_cons_of_pos (by simpa using blank)]
    rfl

/-- The lines of a file, each in one piece and with nothing around it, blank lines left out. -/
theorem joinContinuations_layout (layouts : List Layout) :
    joinContinuations (layouts.flatMap Layout.text) =
      (layouts.map fun layout => Text.trim layout.joined).filter (· ≠ []) := by
  rw [joinContinuations]
  induction layouts with
  | nil => rfl
  | cons layout layouts ih =>
    rw [List.flatMap_cons, lines_layout, joinFrom_layout, ih, List.map_cons, ← List.filter_append,
      List.singleton_append]

end MiniWaf.Crs
