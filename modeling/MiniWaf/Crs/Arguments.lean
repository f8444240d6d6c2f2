import MiniWaf.Crs.Target
import MiniWaf.Crs.Transform
import MiniWaf.Rete.Percent

/-! The arguments of a form are read back as they were written, by every decoder of
percent escapes.
-/

set_option autoImplicit false

namespace MiniWaf.Crs

open Rete (Escaped KeepsEscapes)

/-- Unescaped characters are themselves, but for `%`. -/
def Literal (c d : Char) : Prop := c = d ∧ c ≠ '%'

/-- Unescaped characters are themselves, but for some that are always escaped, and a space may be a plus. -/
def FormLiteral (escaped : List Char) (c d : Char) : Prop := c = d ∧ c ∉ escaped ∨ c = ' ' ∧ d = '+'

def plusToSpace (c : Char) : Char := if c = '+' then ' ' else c

theorem keepsEscapes_plusToSpace : KeepsEscapes plusToSpace where
  percent := rfl
  digit := by
    intro n d small digit
    obtain ⟨-, alphanum, -⟩ := Rete.digit_of_small n small d digit
    have other : d ≠ '+' := by
      rintro rfl
      exact absurd alphanum (by decide)
    exact if_neg other

theorem plusToSpace_of_formLiteral {escaped : List Char} (percent : '%' ∈ escaped) (plus : '+' ∈ escaped) (c d : Char)
    (written : FormLiteral escaped c d) : plusToSpace d = c ∧ c ≠ '%' := by
  rcases written with ⟨rfl, unescaped⟩ | ⟨rfl, rfl⟩
  · have notPlus : c ≠ '+' := fun same => unescaped (same ▸ plus)
    exact ⟨if_neg notPlus, fun same => unescaped (same ▸ percent)⟩
  · exact ⟨rfl, by decide⟩

theorem urlDecodeUni_escaped {t e : Text} (escaped : Escaped Literal t e) : urlDecodeUni e = t := by
  have plain : ∀ c d, Literal c d → id d = c ∧ c ≠ '%' := fun c d written => ⟨written.1.symm, written.2⟩
  have bytes := Rete.percentDecode_escaped Rete.keepsEscapes_id plain escaped
  rw [List.map_id] at bytes
  rw [urlDecodeUni, bytes, Text.fromUtf8Lossy_utf8]

theorem pctDecode_escaped {must : List Char} (percent : '%' ∈ must) (plus : '+' ∈ must) {t e : Text}
    (escaped : Escaped (FormLiteral must) t e) : pctDecode e = t := by
  have bytes := Rete.percentDecode_escaped keepsEscapes_plusToSpace (plusToSpace_of_formLiteral percent plus) escaped
  have spaces : Text.replace ['+'] [' '] e = e.map plusToSpace := Text.replace_char '+' ' ' e
  rw [pctDecode, spaces, bytes, Text.fromUtf8Lossy_utf8]

theorem urlDecode_eq (e : Text) : Rete.urlDecode (String.ofList e) = String.ofList (urlDecodeUni e) := by
  rw [Rete.urlDecode, String.toList_ofList, urlDecodeUni]

theorem formDecode_eq (e : Text) : Rete.formDecode (String.ofList e) = String.ofList (pctDecode e) := by
  rw [Rete.formDecode, String.toList_ofList, urlDecode_eq, urlDecodeUni, pctDecode]

/-- The decoders read a text back from every way of escaping it. -/
theorem decoders_invert_escaping {t e : Text} :
    (Escaped Literal t e → Rete.urlDecode (String.ofList e) = String.ofList t ∧ urlDecodeUni e = t) ∧
      (Escaped (FormLiteral ['%', '+']) t e → Rete.formDecode (String.ofList e) = String.ofList t ∧ pctDecode e = t) := by
  constructor
  · intro escaped
    rw [urlDecode_eq, urlDecodeUni_escaped escaped]
    exact ⟨rfl, rfl⟩
  · intro escaped
    rw [formDecode_eq, pctDecode_escaped (by decide) (by decide) escaped]
    exact ⟨rfl, rfl⟩

theorem escaped_accent {written : Char → Char → Prop} {t e : Text} (rest : Escaped written t e) :
    Escaped written ('é' :: t) ('%' :: 'c' :: '3' :: '%' :: 'A' :: '9' :: e) := by
  have each : List.Forall₂ Rete.IsEscape (String.utf8EncodeChar 'é') [['%', 'c', '3'], ['%', 'A', '9']] :=
    .cons ⟨'c', '3', .inl rfl, .inl rfl, rfl⟩ (.cons ⟨'A', '9', .inr rfl, .inl rfl, rfl⟩ .nil)
  exact .escape each rest

theorem escaped_percent {written : Char → Char → Prop} {t e : Text} (rest : Escaped written t e) :
    Escaped written ('%' :: t) ('%' :: '2' :: '5' :: e) := by
  have each : List.Forall₂ Rete.IsEscape (String.utf8EncodeChar '%') [['%', '2', '5']] :=
    .cons ⟨'2', '5', .inl rfl, .inl rfl, rfl⟩ .nil
  exact .escape each rest

theorem escaped_plus {written : Char → Char → Prop} {t e : Text} (rest : Escaped written t e) :
    Escaped written ('+' :: t) ('%' :: '2' :: 'b' :: e) := by
  have each : List.Forall₂ Rete.IsEscape (String.utf8EncodeChar '+') [['%', '2', 'b']] :=
    .cons ⟨'2', 'b', .inl rfl, .inl rfl, rfl⟩ .nil
  exact .escape each rest

theorem decoders_invert_escaping_accents :
    (Rete.urlDecode (String.ofList "é%c3%A9 +%25".toList) = String.ofList "éé +%".toList ∧
        urlDecodeUni "é%c3%A9 +%25".toList = "éé +%".toList) ∧
      Rete.formDecode (String.ofList "é%c3%A9+%2b%25".toList) = String.ofList "éé +%".toList ∧
        pctDecode "é%c3%A9+%2b%25".toList = "éé +%".toList := by
  have url : Escaped Literal "éé +%".toList "é%c3%A9 +%25".toList :=
    .plain ⟨rfl, by decide⟩ (escaped_accent (.plain ⟨rfl, by decide⟩ (.plain ⟨rfl, by decide⟩ (escaped_percent .nil))))
  have form : Escaped (FormLiteral ['%', '+']) "éé +%".toList "é%c3%A9+%2b%25".toList :=
    .plain (.inl ⟨rfl, by decide⟩) (escaped_accent (.plain (.inr ⟨rfl, rfl⟩) (escaped_plus (escaped_percent .nil))))
  exact ⟨decoders_invert_escaping.1 url, decoders_invert_escaping.2 form⟩

-- Forms

abbrev ArgumentLiteral : Char → Char → Prop := FormLiteral ['%', '+', '&', '=']

def IsPair (pair : Text × Text) (piece : Text) : Prop :=
  ∃ name value, Escaped ArgumentLiteral pair.1 name ∧ Escaped ArgumentLiteral pair.2 value ∧ piece = name ++ '=' :: value

def IsForm (pairs : List (Text × Text)) (s : Text) : Prop :=
  ∃ pieces, List.Forall₂ IsPair pairs pieces ∧ s = Text.join ['&'] pieces

theorem separator_not_mem {x : Char} (separator : x = '&' ∨ x = '=') {t e : Text} (escaped : Escaped ArgumentLiteral t e) :
    x ∉ e := by
  have notPercent : x ≠ '%' := by rcases separator with rfl | rfl <;> decide
  have notAlphanum : x.isAlphanum = false := by rcases separator with rfl | rfl <;> decide
  apply escaped.not_mem notPercent notAlphanum
  rintro c (⟨rfl, unescaped⟩ | ⟨-, rfl⟩)
  · exact unescaped (by rcases separator with rfl | rfl <;> decide)
  · rcases separator with same | same <;> exact absurd same (by decide)

theorem IsPair.ampersand {pair : Text × Text} {piece : Text} (isPair : IsPair pair piece) : '&' ∉ piece := by
  obtain ⟨name, value, isName, isValue, rfl⟩ := isPair
  rw [List.mem_append, List.mem_cons, not_or, not_or]
  exact ⟨separator_not_mem (.inl rfl) isName, by decide, separator_not_mem (.inl rfl) isValue⟩

theorem IsPair.decoded {pair : Text × Text} {piece : Text} (isPair : IsPair pair piece) :
    pctDecode (pairName piece) = pair.1 ∧ pctDecode (pairValue piece) = pair.2 := by
  obtain ⟨name, value, isName, isValue, rfl⟩ := isPair
  have unseparated := separator_not_mem (.inr rfl) isName
  rw [pairName, Text.split_append unseparated, pairValue, Text.splitOnce_append unseparated]
  exact ⟨pctDecode_escaped (by decide) (by decide) isName, pctDecode_escaped (by decide) (by decide) isValue⟩

theorem map_of_pairs {A : Type} {f : Text → A} {g : Text × Text → A} (each : ∀ pair piece, IsPair pair piece → f piece = g pair)
    {pairs : List (Text × Text)} {pieces : List Text} (isPairs : List.Forall₂ IsPair pairs pieces) :
    pieces.map f = pairs.map g := by
  induction isPairs with
  | nil => rfl
  | cons here _ ih => rw [List.map_cons, List.map_cons, each _ _ here, ih]

theorem ampersand_of_pairs {pairs : List (Text × Text)} {pieces : List Text} (isPairs : List.Forall₂ IsPair pairs pieces) :
    ∀ p ∈ pieces, '&' ∉ p := by
  induction isPairs with
  | nil => exact fun p member => absurd member List.not_mem_nil
  | cons here _ ih => exact List.forall_mem_cons.mpr ⟨here.ampersand, ih⟩

theorem IsForm.split {pairs : List (Text × Text)} {s : Text} (form : IsForm pairs s) :
    s = [] ∧ pairs = [] ∨ s ≠ [] ∧ ∃ pieces, List.Forall₂ IsPair pairs pieces ∧ Text.split '&' s = pieces := by
  obtain ⟨pieces, isPairs, rfl⟩ := form
  cases isPairs with
  | nil => exact .inl ⟨rfl, rfl⟩
  | @cons pair piece pairs pieces here later =>
    right
    have split := Text.split_join (List.cons_ne_nil piece pieces) (ampersand_of_pairs (.cons here later))
    refine ⟨?_, piece :: pieces, .cons here later, split⟩
    obtain ⟨name, value, -, -, rfl⟩ := here
    rw [Text.join_cons]
    simp

/-- The names, the values and their number are those of the pairs. -/
theorem form_arguments {pairs : List (Text × Text)} {s : Text} (form : IsForm pairs s) :
    formNames s = pairs.map Prod.fst ∧ formValues s = pairs.map Prod.snd ∧ formCount s = pairs.length := by
  rcases form.split with ⟨rfl, rfl⟩ | ⟨some, pieces, isPairs, split⟩
  · exact ⟨rfl, rfl, rfl⟩
  · rw [formNames, if_neg some, formValues, if_neg some, formCount, if_neg some, split]
    exact ⟨map_of_pairs (fun _ _ isPair => isPair.decoded.1) isPairs, map_of_pairs (fun _ _ isPair => isPair.decoded.2) isPairs,
      isPairs.length_eq.symm⟩

/-- The arguments of a request are the pairs of its query and then those of its body. -/
theorem arguments_complete (platform : Platform) {pairs : List (Text × Text)} {s : Text} (form : IsForm pairs s) :
    (formNames s = pairs.map Prod.fst ∧ formValues s = pairs.map Prod.snd ∧ formCount s = pairs.length) ∧
      ∀ (ctx : RequestContext) (tx : TxState) (bodyPairs : List (Text × Text)) (body : Text), IsForm bodyPairs body →
        ctx.query = some (String.ofList s) → ctx.body = some (Text.utf8 body) → isFormBody platform ctx = true →
          extractValues platform .argsNames ctx tx = (pairs ++ bodyPairs).map Prod.fst ∧
            extractValues platform .args ctx tx = (pairs ++ bodyPairs).map Prod.snd ∧
            extractValues platform .argsCount ctx tx = [Text.ofNat (pairs ++ bodyPairs).length] := by
  obtain ⟨names, values, count⟩ := form_arguments form
  refine ⟨⟨names, values, count⟩, ?_⟩
  intro ctx tx bodyPairs body bodyForm query isBody urlencoded
  obtain ⟨bodyNames, bodyValues, bodyCount⟩ := form_arguments bodyForm
  have text : formBody platform ctx = some body := by
    rw [formBody, isBody, Option.bind_some, if_pos urlencoded]
    exact (Text.fromUtf8_eq_some _ body).mpr rfl
  have queryText : (ctx.query.getD "").toList = s := by
    rw [query, Option.getD_some, String.toList_ofList]
  simp only [extractValues, text, queryText, Option.map_some, Option.getD_some, names, values, count, bodyNames, bodyValues,
    bodyCount, List.map_append, List.length_append, and_self]

def formRequest (query body : String) : RequestContext :=
  { RequestContext.bare "POST" "/login" with
    query := some query
    headers := AssocMap.empty.insert "Content-Type" "application/x-www-form-urlencoded; charset=utf-8"
    body := some (Text.utf8 body.toList) }

theorem arguments_complete_login :
    (formNames "%c3%A9=+a&=".toList = [['é'], []] ∧ formValues "%c3%A9=+a&=".toList = [" a".toList, []] ∧
        formCount "%c3%A9=+a&=".toList = 2) ∧
      extractValues .plain .argsNames (formRequest "%c3%A9=+a&=" "a=é") .new = [['é'], [], ['a']] ∧
        extractValues .plain .args (formRequest "%c3%A9=+a&=" "a=é") .new = [" a".toList, [], ['é']] ∧
        extractValues .plain .argsCount (formRequest "%c3%A9=+a&=" "a=é") .new = [Text.ofNat 3] := by
  have query : IsForm [(['é'], " a".toList), ([], [])] "%c3%A9=+a&=".toList :=
    ⟨["%c3%A9=+a".toList, "=".toList],
      .cons ⟨"%c3%A9".toList, "+a".toList, escaped_accent .nil, .plain (.inr ⟨rfl, rfl⟩) (.plain (.inl ⟨rfl, by decide⟩) .nil), rfl⟩
        (.cons ⟨[], [], .nil, .nil, rfl⟩ .nil), rfl⟩
  have body : IsForm [(['a'], ['é'])] "a=é".toList :=
    ⟨["a=é".toList], .cons ⟨['a'], ['é'], .plain (.inl ⟨rfl, by decide⟩) .nil, .plain (.inl ⟨rfl, by decide⟩) .nil, rfl⟩ .nil, rfl⟩
  obtain ⟨form, requests⟩ := arguments_complete .plain query
  have queried : (formRequest "%c3%A9=+a&=" "a=é").query = some (String.ofList "%c3%A9=+a&=".toList) := by
    rw [String.ofList_toList]
    rfl
  exact ⟨form, requests _ .new _ _ body queried rfl (by decide +kernel)⟩

end MiniWaf.Crs
