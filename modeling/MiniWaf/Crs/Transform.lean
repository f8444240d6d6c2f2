import MiniWaf.Crs.Parser
import MiniWaf.Rete.WorkingMemory
import MiniWaf.Std.Replace

/-! Transformations of a text before an operator looks at it. The decoders work on
bytes, and `apply_transforms` takes shortcuts where it expects no change.
-/

set_option autoImplicit false

namespace MiniWaf.Crs

open Rete (hexVal percentDecode)

-- Percent escapes

def urlDecodeUni (s : Text) : Text := Text.fromUtf8Lossy (percentDecode (Text.utf8 s))

-- Backslash escapes

/-- `char::from_u32`. -/
def fromU32 (n : Nat) : Option Char := if n.isValidChar then some (Char.ofNat n) else none

def hexByte (high low : UInt8) : Option UInt8 :=
  match hexVal high, hexVal low with
  | some h, some l => some ((h <<< 4) ||| l)
  | _, _ => none

/-- The code point of `\uHHHH` as `escape_seq_decode` puts it together. -/
def escapeCode (h1 h2 l1 l2 : UInt8) : Option Char :=
  match hexVal h1, hexVal h2, hexVal l1, hexVal l2 with
  | some h1, some h2, some l1, some l2 =>
    fromU32 ((h1.toUInt32 <<< 12) ||| (h2.toUInt32 <<< 8) ||| (l1.toUInt32 <<< 4) ||| l2.toUInt32).toNat
  | _, _, _, _ => none

def escapeSeqAt : List UInt8 → Option (List UInt8 × Nat)
  | [] => none
  | kind :: tail =>
    if kind = 0x6E then some ([0x0A], 1)
    else if kind = 0x72 then some ([0x0D], 1)
    else if kind = 0x74 then some ([0x09], 1)
    else if kind = 0x78 then
      match tail with
      | high :: low :: _ => (hexByte high low).map fun byte => ([byte], 3)
      | _ => none
    else if kind = 0x75 then
      match tail with
      | h1 :: h2 :: l1 :: l2 :: _ => (escapeCode h1 h2 l1 l2).map fun c => (String.utf8EncodeChar c, 5)
      | _ => none
    else none

/-- The loop of `escape_seq_decode`: a backslash that begins no escape is kept. -/
def escapeSeqBytes : List UInt8 → List UInt8
  | [] => []
  | b :: rest =>
    match if b = 0x5C then escapeSeqAt rest else none with
    | some (bytes, width) => bytes ++ escapeSeqBytes (rest.drop width)
    | none => b :: escapeSeqBytes rest
termination_by bytes => bytes.length
decreasing_by all_goals simp only [List.length_drop, List.length_cons]; omega

def escapeSeqDecode (s : Text) : Text := Text.fromUtf8Lossy (escapeSeqBytes (Text.utf8 s))

/-- `byte as char`. -/
def asChar (b : UInt8) : Char := Char.ofNat b.toNat

/-- The code of hex digits, as `js_decode` folds them. -/
def foldCode : (acc : UInt16) → List UInt8 → Option UInt16
  | acc, [] => some acc
  | acc, b :: rest => (hexVal b).bind fun v => foldCode ((acc <<< 4) ||| v.toUInt16) rest

def jsAt : List UInt8 → Option (Char × Nat)
  | [] => none
  | kind :: tail =>
    if kind = 0x78 then
      match tail with
      | high :: low :: _ => (hexByte high low).map fun byte => (asChar byte, 3)
      | _ => none
    else if kind = 0x75 then
      match tail with
      | h1 :: h2 :: l1 :: l2 :: _ =>
        ((foldCode 0 [h1, h2, l1, l2]).bind fun n => fromU32 n.toNat).map fun c => (c, 5)
      | _ => none
    else if kind = 0x6E then some ('\n', 1)
    else if kind = 0x72 then some ('\r', 1)
    else if kind = 0x74 then some ('\t', 1)
    else none

/-- The loop of `js_decode`; a byte that is no part of an escape is taken for a character. -/
def jsChars : List UInt8 → Text
  | [] => []
  | b :: rest =>
    match if b = 0x5C then jsAt rest else none with
    | some (c, width) => c :: jsChars (rest.drop width)
    | none => asChar b :: jsChars rest
termination_by bytes => bytes.length
decreasing_by all_goals simp only [List.length_drop, List.length_cons]; omega

def jsDecode (s : Text) : Text := jsChars (Text.utf8 s)

-- White space

/-- A run of white space is one space; `inside` says that one has begun. -/
def compressFrom : (inside : Bool) → Text → Text
  | _, [] => []
  | inside, c :: rest =>
    if Text.isWhitespace c then if inside then compressFrom true rest else ' ' :: compressFrom true rest
    else c :: compressFrom false rest

def compressWhitespace (s : Text) : Text := compressFrom false s

-- Paths

/-- `while out.contains("//") { out = out.replace("//", "/"); }`. -/
def collapseSlashes (out : Text) : Text :=
  if Text.containsText ['/', '/'] out = true then collapseSlashes (Text.replace ['/', '/'] ['/'] out) else out
termination_by out.length
decreasing_by exact Text.length_replace_lt (by decide) ((Text.containsText_iff _ _).mp (by assumption))

def normalizePath (s : Text) : Text :=
  let s := urlDecodeUni s
  let s := Text.replace ['.', '.', '\\'] ['\\'] (Text.replace ['.', '.', '/'] ['/'] s)
  collapseSlashes s

-- HTML entities

def entities : List (Text × Char) :=
  [("&lt;".toList, '<'), ("&gt;".toList, '>'), ("&amp;".toList, '&'), ("&quot;".toList, '"'),
    ("&#x27;".toList, '\''), ("&#39;".toList, '\''), ("&apos;".toList, '\''), ("&#x3C;".toList, '<'),
    ("&#x3E;".toList, '>'), ("&nbsp;".toList, ' ')]

def htmlEntityDecode (s : Text) : Text := entities.foldl (fun s entity => Text.replace entity.1 [entity.2] s) s

-- Base64

def alphabet : List UInt8 :=
  Text.utf8 ("ABCDEFGHIJKLM".toList ++ "NOPQRSTUVWXYZ".toList ++ "abcdefghijklm".toList ++ "nopqrstuvwxyz".toList ++
    "0123456789+/".toList)

/-- The table of `base64_decode`, with `none` for `INVALID`. -/
def sextet (b : UInt8) : Option UInt8 := (alphabet.findIdx? (· == b)).map UInt8.ofNat

/-- The loop of `base64_decode` on the characters that were kept, four at a time. -/
def base64Groups : List UInt8 → List UInt8
  | a :: b :: c :: d :: rest =>
    match sextet a, sextet b with
    | some a, some b =>
      let more := match sextet c with
        | some c =>
          (((b &&& 0x0F) <<< 4) ||| ((c &&& 0x3C) >>> 2)) ::
            match sextet d with
            | some d => [((c &&& 0x03) <<< 6) ||| d]
            | none => []
        | none => []
      ((a <<< 2) ||| ((b &&& 0x30) >>> 4)) :: more ++ base64Groups rest
    | _, _ => []
  | _ => []

def base64Decode (s : Text) : Text :=
  Text.fromUtf8Lossy (base64Groups ((Text.utf8 s).filter fun b => (sextet b).isSome || b == 0x3D))

-- Comments

def afterComment : List UInt8 → List UInt8
  | [] => []
  | b :: rest => if b = 0x2A ∧ rest.head? = some 0x2F then rest.tail else afterComment rest

theorem length_afterComment_le (bytes : List UInt8) : (afterComment bytes).length ≤ bytes.length := by
  induction bytes with
  | nil => exact Nat.le_refl _
  | cons b rest ih =>
    rw [afterComment]
    split
    · rw [List.length_tail, List.length_cons]
      omega
    · rw [List.length_cons]
      omega

/-- The loop of `replace_comments`; what is left of a line comment is from its newline on. -/
def commentChars : List UInt8 → Text
  | [] => []
  | b :: rest =>
    if b = 0x2F ∧ rest.head? = some 0x2A then commentChars (afterComment rest.tail)
    else if b = 0x2D ∧ rest.head? = some 0x2D then commentChars (rest.dropWhile (· != 0x0A))
    else asChar b :: commentChars rest
termination_by bytes => bytes.length
decreasing_by
  · have shorter := length_afterComment_le rest.tail
    simp only [List.length_tail, List.length_cons] at shorter ⊢
    omega
  · exact Nat.lt_succ_of_le (List.dropWhile_suffix _).length_le
  · exact Nat.lt_succ_self _

def replaceComments (s : Text) : Text := commentChars (Text.utf8 s)

-- Transforms

section
variable (platform : Platform)

def procedure (t : CrsTransform) (s : Text) : Text :=
  match t with
  | .utf8ToUnicode => s
  | .cssDecode => s
  | .removeNulls => Text.replace ['\x00'] [] s
  | .trim => Text.trim s
  | .lowercase => (lowercase platform s).toList
  | .urlDecodeUni => urlDecodeUni s
  | .htmlEntityDecode => htmlEntityDecode s
  | .replaceComments => replaceComments s
  | .compressWhitespace => compressWhitespace s
  | .normalizePath => normalizePath s
  | .jsDecode => jsDecode s
  | .base64Decode => base64Decode s
  | .removeWhitespace => s.filter fun c => !Text.isWhitespace c
  | .length => Text.ofNat s.length
  | .escapeSeqDecode => escapeSeqDecode s

/-- Whether `apply_transforms` takes the text for one that the transform leaves as it is. -/
def shortcut (t : CrsTransform) (s : Text) : Bool :=
  match t with
  | .removeNulls => !s.contains '\x00'
  | .trim => (Text.utf8 (Text.trim s)).length == (Text.utf8 s).length
  | .lowercase => (Text.utf8 s).all fun b => !(0x41 ≤ b && b ≤ 0x5A)
  | .urlDecodeUni => !s.contains '%'
  | .htmlEntityDecode => !s.contains '&'
  | .replaceComments => !Text.containsText ['/', '*'] s && !Text.containsText ['-', '-'] s
  | _ => false

def applyTransform (s : Text) (t : CrsTransform) : Text := if shortcut t s then s else procedure platform t s

def applyTransforms (s : Text) (transforms : List CrsTransform) : Text := transforms.foldl (applyTransform platform) s

end

end MiniWaf.Crs
