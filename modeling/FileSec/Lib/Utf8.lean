import Mathlib.Data.List.Basic

/-!
# Lossy decoding of UTF-8

Bytes as text: what encodes a character stands for it, and whatever does not is replaced, the longest start of a
character by one replacement character.  Text comes back from its encoding (`lossy_encode`).
-/

namespace Utf8

/-- The encoding of a text. -/
def encode (s : List Char) : List UInt8 := s.flatMap String.utf8EncodeChar

/-- A byte that is not the first of a character. -/
def isContinuation (b : UInt8) : Bool := 0x80 ≤ b && b ≤ 0xBF

/-- The first two bytes of a character of three or four. -/
def isStart (b c : UInt8) : Bool :=
  if b = 0xE0 then 0xA0 ≤ c && c ≤ 0xBF
  else if b = 0xED then 0x80 ≤ c && c ≤ 0x9F
  else if b = 0xF0 then 0x90 ≤ c && c ≤ 0xBF
  else if b = 0xF4 then 0x80 ≤ c && c ≤ 0x8F
  else 0xE1 ≤ b && b ≤ 0xF3 && isContinuation c

/-- The length of the longest start of a character, of at least one byte, in bytes that do not begin with one. -/
def faultLength : List UInt8 → Nat
  | b :: c :: rest =>
    if isStart b c then
      match rest with
      | d :: _ => if 0xF0 ≤ b && isContinuation d then 3 else 2
      | [] => 2
    else 1
  | _ => 1

/-- The loop of `lossy`; the first argument bounds the number of characters. -/
def lossyLoop : Nat → List UInt8 → List Char
  | 0, _ => []
  | _ + 1, [] => []
  | fuel + 1, b :: bytes =>
    match (b :: bytes).toByteArray.utf8DecodeChar? 0 with
    | some c => c :: lossyLoop fuel ((b :: bytes).drop c.utf8Size)
    | none => Char.ofNat 0xFFFD :: lossyLoop fuel ((b :: bytes).drop (faultLength (b :: bytes)))

/-- Decode bytes, with replacement characters for what is not UTF-8. -/
def lossy (bytes : List UInt8) : List Char := lossyLoop bytes.length bytes

@[simp] theorem encode_nil : encode [] = [] := rfl

@[simp] theorem encode_cons (c : Char) (s : List Char) : encode (c :: s) = String.utf8EncodeChar c ++ encode s := rfl

private theorem lossyLoop_encode {fuel : Nat} (s : List Char) (h : s.length ≤ fuel) : lossyLoop fuel (encode s) = s := by
  induction s generalizing fuel with
  | nil => cases fuel <;> rfl
  | cons c s ih =>
    obtain ⟨fuel, rfl⟩ : ∃ k, fuel = k + 1 := Nat.exists_eq_add_one_of_ne_zero (by rintro rfl; simp at h)
    have hlen : (String.utf8EncodeChar c).length = c.utf8Size := String.length_utf8EncodeChar c
    have hne : encode (c :: s) ≠ [] := by
      have := c.utf8Size_pos
      intro hnil
      rw [encode_cons, List.append_eq_nil_iff] at hnil
      rw [hnil.1] at hlen
      simp at hlen
      omega
    obtain ⟨b, bytes, hb⟩ := List.exists_cons_of_ne_nil hne
    have hdecode : (b :: bytes).toByteArray.utf8DecodeChar? 0 = some c := by
      rw [← hb, encode_cons, List.toByteArray_append]
      exact ByteArray.utf8DecodeChar?_utf8EncodeChar_append
    have hdrop : (b :: bytes).drop c.utf8Size = encode s := by
      rw [← hb, encode_cons, List.drop_left' hlen]
    rw [hb, lossyLoop, hdecode]
    dsimp only
    rw [hdrop, ih (by simpa using h)]

/-- Text comes back from its encoding. -/
theorem lossy_encode (s : List Char) : lossy (encode s) = s := by
  refine lossyLoop_encode s ?_
  induction s with
  | nil => exact Nat.le_refl _
  | cons c s ih =>
    have hlen : (String.utf8EncodeChar c).length = c.utf8Size := String.length_utf8EncodeChar c
    have := c.utf8Size_pos
    rw [encode_cons, List.length_append, hlen, List.length_cons]
    omega

example : lossy [0x61, 0xE2, 0x82, 0x62, 0xFF] = ['a', Char.ofNat 0xFFFD, 'b', Char.ofNat 0xFFFD] := by decide

end Utf8
