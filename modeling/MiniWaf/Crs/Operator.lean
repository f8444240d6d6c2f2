import MiniWaf.Crs.Target
import MiniWaf.Grl.Functions

/-! Operators of CRS rules: whether a target's text matches. -/

set_option autoImplicit false

namespace MiniWaf.Crs

open Grl (detectSqli detectXss)

abbrev DataAutomata := AssocMap String (List String)

/-- `AhoCorasick::is_match`, without regard to ASCII case. -/
def acIsMatch (phrases : List String) (value : Text) : Bool :=
  phrases.any fun phrase => Text.containsText (phrase.toList.map Char.toLower) (value.map Char.toLower)

/-- `parse::<i64>().map_or(false, ..)`. -/
def numberIs (value : Text) (holds : Int64 → Bool) : Bool := (Text.parseI64 value).any holds

/-- No U+FFFD, which decoding puts for what is not UTF-8. -/
def isValidUtf8Encoded (value : Text) : Bool := Text.replacementChar ∉ value

section
variable (platform : Platform) (automata : DataAutomata) (tx : TxState)

/-- An entry of `@within`: a text, or a `TX` variable that holds a list of them. -/
def withinItem (value : Text) (item : String) : Bool :=
  match (Text.stripStart "%\x7btx.".toList item.toList).bind (Text.stripSuffix ['\x7d']) with
  | some var => (Text.words (tx.getStr platform (String.ofList var)).toList).any (· == value)
  | none => item.toList == value

def matchOperator (value : Text) : CrsOperator → Bool
  | .rx re => re (String.ofList value)
  | .pm phrases => value ≠ [] && acIsMatch phrases value
  | .pmFromFile file => value ≠ [] && (automata.get file).any fun phrases => acIsMatch phrases value
  | .detectSQLi => detectSqli platform (String.ofList value)
  | .detectXSS => detectXss platform (String.ofList value)
  | .lt n => numberIs value (· < n)
  | .le n => numberIs value (· ≤ n)
  | .gt n => numberIs value (n < ·)
  | .ge n => numberIs value (n ≤ ·)
  | .eq n => numberIs value (· == n)
  | .contains needle => Text.containsText needle.toList (platform.toLowercase (String.ofList value)).toList
  | .streq text => value == text.toList
  | .within items => items.any (withinItem platform tx value)
  | .beginsWith text => text.toList.isPrefixOf value
  | .endsWith text => text.toList.isSuffixOf value
  | .ipMatch nets => (IpAddr.parse (Text.trim value)).any fun ip => nets.any fun contains => contains ip
  -- encodings of URLs are not checked
  | .validateUrlEncoding => false
  | .validateUtf8Encoding => !isValidUtf8Encoded value
  | .gtTxRef var => numberIs value (tx.get platform var < ·)
  | .geTxRef var => numberIs value (tx.get platform var ≤ ·)
  | .ltTxRef var => numberIs value (· < tx.get platform var)
  | .leTxRef var => numberIs value (· ≤ tx.get platform var)
  | .eqTxRef var => numberIs value (· == tx.get platform var)

end

theorem numberIs_ofInt (i : Int64) (holds : Int64 → Bool) : numberIs (Text.ofInt i.toInt) holds = holds i := by
  rw [numberIs, Text.parseI64_ofInt, Option.any_some]

-- Encodings

variable {platform : Platform} {automata : DataAutomata} {tx : TxState}

def decodedBytes (s : Text) : List UInt8 := Rete.percentDecode (Text.utf8 (Text.replace ['+'] [' '] s))

/-- The bytes are UTF-8, of a text without a replacement character. -/
def WellEncoded (bytes : List UInt8) : Prop := ∃ t : Text, bytes = Text.utf8 t ∧ Text.replacementChar ∉ t

theorem utf8_rule_iff (s : Text) :
    matchOperator platform automata tx (pctDecode s) .validateUtf8Encoding = true ↔ ¬ WellEncoded (decodedBytes s) := by
  have whole := Text.replacement_iff (decodedBytes s)
  rw [matchOperator, isValidUtf8Encoded, Bool.not_eq_true', decide_eq_false_iff_not, not_not]
  refine whole.trans ⟨fun every ⟨t, same, absent⟩ => absent (every t same), fun broken t same => ?_⟩
  by_contra absent
  exact broken ⟨t, same, absent⟩

def rawPairs (platform : Platform) (ctx : RequestContext) : List Text :=
  let pairs (s : Text) := if s = [] then [] else Text.split '&' s
  pairs (ctx.query.getD "").toList ++ ((formBody platform ctx).map pairs).getD []

theorem formValues_eq (s : Text) :
    formValues s = (if s = [] then [] else Text.split '&' s).map fun pair => pctDecode (pairValue pair) := by
  rw [formValues]
  split <;> rfl

/-- An overlong encoding of a slash, which is no text. -/
example : matchOperator .plain .empty .new (pctDecode "%C0%AF".toList) .validateUtf8Encoding = true := by decide +kernel

end MiniWaf.Crs
