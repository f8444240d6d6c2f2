import MiniWaf.Std.Utf8

/-! Base64 with padding, and texts with characters inserted that it does not use. -/

set_option autoImplicit false

namespace MiniWaf.Base64

def digit (n : Nat) : Char :=
  if n < 26 then Char.ofNat (65 + n)
  else if n < 52 then Char.ofNat (71 + n)
  else if n < 62 then Char.ofNat (n - 4)
  else if n = 62 then '+'
  else '/'

/-- Three bytes are four characters; what is missing of the last three is padded. -/
def encode : List UInt8 → Text
  | [] => []
  | [x] => [digit (x.toNat / 4), digit (x.toNat % 4 * 16), '=', '=']
  | [x, y] => [digit (x.toNat / 4), digit (x.toNat % 4 * 16 + y.toNat / 16), digit (y.toNat % 16 * 4), '=']
  | x :: y :: z :: rest =>
    digit (x.toNat / 4) :: digit (x.toNat % 4 * 16 + y.toNat / 16) :: digit (y.toNat % 16 * 4 + z.toNat / 64) ::
      digit (z.toNat % 64) :: encode rest

def isUsed (c : Char) : Bool := c.isAlphanum || c == '+' || c == '/' || c == '='

inductive Noisy : Text → Text → Prop where
  | nil : Noisy [] []
  | keep (c : Char) {e noisy : Text} : Noisy e noisy → Noisy (c :: e) (c :: noisy)
  | insert {c : Char} {e noisy : Text} : isUsed c = false → Noisy e noisy → Noisy e (c :: noisy)

theorem forall_mem_encode {P : Char → Prop} (padding : P '=') (digits : ∀ n < 64, P (digit n)) (bytes : List UInt8) :
    ∀ c ∈ encode bytes, P c := by
  have high (x : UInt8) : P (digit (x.toNat / 4)) := by
    have bound := x.toNat_lt
    exact digits _ (by omega)
  have low (x : UInt8) (extra : Nat) (small : extra < 16) : P (digit (x.toNat % 4 * 16 + extra)) := digits _ (by omega)
  induction bytes using encode.induct with
  | case1 => exact fun c member => absurd member List.not_mem_nil
  | case2 x => simpa [encode, padding] using ⟨high x, low x 0 (by decide)⟩
  | case3 x y =>
    have bound := y.toNat_lt
    simpa [encode, padding] using ⟨high x, low x _ (by omega), digits _ (by omega)⟩
  | case4 x y z rest ih =>
    have bound := y.toNat_lt
    have bound' := z.toNat_lt
    rw [encode]
    simp only [List.forall_mem_cons]
    exact ⟨high x, low x _ (by omega), digits _ (by omega), digits _ (by omega), ih⟩

end MiniWaf.Base64
