import MiniWaf.Crs.Target
import MiniWaf.Rules.Matcher

/-! Cookies by the two readers of the `Cookie` header: the matcher, which looks for a name
and a value, and the CRS targets, which list what is there.
-/

set_option autoImplicit false

namespace MiniWaf.Crs

open Rete (LowerKeys)
open Rules.Matcher (isPair checkCookie)

-- One part of the header

/-- A part that is no pair is no cookie to the matcher, and one without a value to the targets. -/
theorem isPair_iff {name value : String} (named : name ≠ "") (valued : value ≠ "") (part : Text) :
    isPair name value part = true ↔ cookiePair part = some (name.toList, value.toList) := by
  have someName : name.toList ≠ [] := fun empty => named (String.toList_inj.mp empty)
  have someValue : value.toList ≠ [] := fun empty => valued (String.toList_inj.mp empty)
  rw [isPair, cookiePair]
  generalize name.toList = n at someName
  generalize value.toList = v at someValue
  cases Text.splitOnce '=' (Text.trim part) with
  | none => simp [someValue.symm]
  | some pair =>
    obtain ⟨k, w⟩ := pair
    by_cases empty : Text.trim k = []
    · simp [empty, someName]
    · simp [empty]

section
variable {platform : Platform} {ctx : RequestContext}

theorem cookiePairs_of_lower (lower : LowerKeys platform ctx.headers) :
    cookiePairs platform ctx = (Text.split ';' ((ctx.headers.get "cookie").getD "").toList).filterMap cookiePair := by
  have same : ∀ e ∈ ctx.headers.entries, (platform.toLowercase e.1 == "cookie") = decide (e.1 = "cookie") := by
    intro e member
    rw [lower e member]
    rfl
  rw [cookiePairs, List.find?_congr same]
  rfl

/-- The matcher finds the cookies that the targets list. -/
theorem checkCookie_iff (lower : LowerKeys platform ctx.headers) {name value : String} (named : name ≠ "")
    (valued : value ≠ "") :
    checkCookie ctx.headers name value = true ↔ (name.toList, value.toList) ∈ cookiePairs platform ctx := by
  rw [cookiePairs_of_lower lower, List.mem_filterMap, checkCookie]
  cases ctx.headers.get "cookie" with
  | none =>
    have blank : cookiePair [] = none := rfl
    simp [Text.split, blank]
  | some cookies =>
    simp only [List.any_eq_true, isPair_iff named valued, Option.getD_some]

end

-- Cookies as they are written

/-- A name and a value that can be told apart in a header. -/
structure PlainCookie (cookie : Text × Text) : Prop where
  named : cookie.1 ≠ []
  noEquals : '=' ∉ cookie.1
  noSemicolon : ';' ∉ cookie.1 ∧ ';' ∉ cookie.2
  tight : Text.Tight cookie.1 ∧ Text.Tight cookie.2

def WrittenCookie (cookie : Text × Text) (part : Text) : Prop :=
  ∃ before gap space after : Text, before.all Text.isWhitespace = true ∧ gap.all Text.isWhitespace = true ∧
    space.all Text.isWhitespace = true ∧ after.all Text.isWhitespace = true ∧
    part = before ++ (cookie.1 ++ (gap ++ '=' :: (space ++ (cookie.2 ++ after))))

def CookieHeader (cookies : List (Text × Text)) (header : Text) : Prop :=
  ∃ parts, List.Forall₂ WrittenCookie cookies parts ∧ header = Text.join [';'] parts

section
variable {cookie : Text × Text} {part : Text}

theorem semicolon_not_mem (plain : PlainCookie cookie) (written : WrittenCookie cookie part) : ';' ∉ part := by
  obtain ⟨before, gap, space, after, white, white₁, white₂, white₃, rfl⟩ := written
  obtain ⟨inName, inValue⟩ := plain.noSemicolon
  have absent {white : Text} (all : white.all Text.isWhitespace = true) : ';' ∉ white := Text.not_mem_of_white all rfl
  simp [absent white, absent white₁, absent white₂, absent white₃, inName, inValue]

theorem trim_written (plain : PlainCookie cookie) (written : WrittenCookie cookie part) :
    ∃ gap tail : Text, gap.all Text.isWhitespace = true ∧ Text.trim part = cookie.1 ++ gap ++ '=' :: tail ∧
      Text.trim tail = cookie.2 := by
  obtain ⟨before, gap, space, after, white, white₁, white₂, white₃, rfl⟩ := written
  obtain ⟨name, value⟩ := cookie
  have begins : ∃ c, name.head? = some c ∧ Text.isWhitespace c = false :=
    ⟨_, List.head?_eq_some_head plain.named, plain.tight.1 _ (.inl (List.head?_eq_some_head plain.named))⟩
  cases empty : value with
  | nil =>
    have tight : Text.Tight (name ++ (gap ++ ['='])) := Text.tight_append begins ⟨'=', by simp, rfl⟩
    have behind : (space ++ after).all Text.isWhitespace = true := by simp [white₂, white₃]
    have trimmed := Text.trim_padded white behind tight
    refine ⟨gap, [], white₁, ?_, rfl⟩
    simpa using trimmed
  | cons c rest =>
    rw [← empty]
    have some : value ≠ [] := by simp [empty]
    have last := List.getLast?_eq_some_getLast some
    have whole : gap ++ '=' :: (space ++ value) = gap ++ '=' :: space ++ value := by simp
    have final : (gap ++ '=' :: (space ++ value)).getLast? = Option.some (value.getLast some) := by
      rw [whole, List.getLast?_append, last, Option.some_or]
    have tight := Text.tight_append begins ⟨_, final, plain.tight.2 _ (.inr last)⟩
    have trimmed := Text.trim_padded white white₃ tight
    have inner : Text.trim (space ++ (value ++ [])) = value := Text.trim_padded white₂ rfl plain.tight.2
    refine ⟨gap, space ++ value, white₁, ?_, ?_⟩
    · simpa using trimmed
    · simpa using inner

theorem cookiePair_written (plain : PlainCookie cookie) (written : WrittenCookie cookie part) :
    cookiePair part = some cookie := by
  obtain ⟨gap, tail, white, trimmed, value⟩ := trim_written plain written
  have notWhite : '=' ∉ gap := Text.not_mem_of_white white rfl
  have absent : '=' ∉ cookie.1 ++ gap := by simp [plain.noEquals, notWhite]
  have name : Text.trim ([] ++ (cookie.1 ++ gap)) = cookie.1 := Text.trim_padded rfl white plain.tight.1
  rw [List.nil_append] at name
  rw [cookiePair, trimmed, Text.splitOnce_append absent]
  simp only [name, value, if_neg plain.named]

end

theorem filterMap_written {cookies : List (Text × Text)} {parts : List Text}
    (written : List.Forall₂ WrittenCookie cookies parts) (plain : ∀ cookie ∈ cookies, PlainCookie cookie) :
    parts.filterMap cookiePair = cookies ∧ ∀ part ∈ parts, ';' ∉ part := by
  induction written with
  | nil => exact ⟨rfl, List.forall_mem_nil _⟩
  | cons here _ ih =>
    obtain ⟨first, later⟩ := List.forall_mem_cons.mp plain
    obtain ⟨listed, absent⟩ := ih later
    rw [List.filterMap_cons_some (cookiePair_written first here), listed]
    exact ⟨rfl, List.forall_mem_cons.mpr ⟨semicolon_not_mem first here, absent⟩⟩

theorem filterMap_header {cookies : List (Text × Text)} {header : Text} (lists : CookieHeader cookies header)
    (plain : ∀ cookie ∈ cookies, PlainCookie cookie) : (Text.split ';' header).filterMap cookiePair = cookies := by
  obtain ⟨parts, written, rfl⟩ := lists
  obtain ⟨listed, absent⟩ := filterMap_written written plain
  cases parts with
  | nil =>
    cases written
    rfl
  | cons part parts => rw [Text.split_join (List.cons_ne_nil part parts) absent, listed]

/-- The two readers agree on every header, and none of the cookies that are written there is lost. -/
theorem cookies_agree {platform : Platform} {ctx : RequestContext} (lower : LowerKeys platform ctx.headers) :
    (∀ name value : String, name ≠ "" → value ≠ "" →
        (checkCookie ctx.headers name value = true ↔ (name.toList, value.toList) ∈ cookiePairs platform ctx)) ∧
      ∀ cookies header, ctx.headers.get "cookie" = some header → CookieHeader cookies header.toList →
        (∀ cookie ∈ cookies, PlainCookie cookie) → cookiePairs platform ctx = cookies := by
  constructor
  · intro name value named valued
    exact checkCookie_iff lower named valued
  · intro cookies header found lists plain
    rw [cookiePairs_of_lower lower, found, Option.getD_some]
    exact filterMap_header lists plain

def sessionRequest : RequestContext :=
  { RequestContext.bare "GET" "/" with headers := ⟨[("cookie", "sid = a=b ;x=\t")], by decide⟩ }

theorem cookies_agree_session :
    (checkCookie sessionRequest.headers "sid" "a=b" = true ↔
        ("sid".toList, "a=b".toList) ∈ cookiePairs .plain sessionRequest) ∧
      cookiePairs .plain sessionRequest = [("sid".toList, "a=b".toList), ("x".toList, [])] := by
  have lower : LowerKeys .plain sessionRequest.headers := by
    intro e member
    rw [List.mem_singleton.mp member]
    decide
  obtain ⟨agree, listed⟩ := cookies_agree lower
  constructor
  · exact agree "sid" "a=b" (by decide) (by decide)
  · have first : WrittenCookie ("sid".toList, "a=b".toList) "sid = a=b ".toList :=
      ⟨[], [' '], [' '], [' '], rfl, rfl, rfl, rfl, rfl⟩
    have second : WrittenCookie ("x".toList, []) "x=\t".toList := ⟨[], [], [], ['\t'], rfl, rfl, rfl, rfl, rfl⟩
    apply listed _ _ rfl ⟨_, .cons first (.cons second .nil), rfl⟩
    intro cookie member
    rw [List.mem_cons, List.mem_singleton] at member
    rcases member with rfl | rfl
    · exact ⟨by decide, by decide, ⟨by decide, by decide⟩, by decide, by decide⟩
    · exact ⟨by decide, by decide, ⟨by decide, by decide⟩, by decide, by decide⟩

end MiniWaf.Crs
