import Mathlib.Data.List.Basic

/-!
# Base64

The standard encoding of byte strings in 64 characters, three bytes in four of them, with padding and without.  The
decoders refuse bits that are left over and are not zero; with padding, any group may be padded, so that encodings one
after the other are decoded to their bytes one after the other.
-/

namespace Base64

/-- The 64 characters. -/
def alphabet : List Char := "ABCDEFGHIJKLMNOPQRSTUVWXYZabcdefghijklmnopqrstuvwxyz0123456789+/".toList

/-- The character of a number below 64. -/
def digit (n : Nat) : Char := alphabet.getD n '='

/-- The number of a character. -/
def value (c : Char) : Option Nat := alphabet.findIdx? (· = c)

/-- Three bytes at a time, with what is missing of the last four characters. -/
def encode : List UInt8 → List Char
  | [] => []
  | [a] => [digit (a.toNat / 4), digit (a.toNat % 4 * 16), '=', '=']
  | [a, b] => [digit (a.toNat / 4), digit (a.toNat % 4 * 16 + b.toNat / 16), digit (b.toNat % 16 * 4), '=']
  | a :: b :: c :: rest =>
    digit (a.toNat / 4) :: digit (a.toNat % 4 * 16 + b.toNat / 16) :: digit (b.toNat % 16 * 4 + c.toNat / 64) ::
      digit (c.toNat % 64) :: encode rest

/-- The byte of two characters, if they encode one. -/
def decodeTwo (w x : Char) : Option (List UInt8) :=
  match value w, value x with
  | some w, some x => if x % 16 = 0 then some [UInt8.ofNat (w * 4 + x / 16)] else none
  | _, _ => none

/-- The bytes of three characters, if they encode two. -/
def decodeThree (w x y : Char) : Option (List UInt8) :=
  match value w, value x, value y with
  | some w, some x, some y =>
    if y % 4 = 0 then some [UInt8.ofNat (w * 4 + x / 16), UInt8.ofNat (x % 16 * 16 + y / 4)] else none
  | _, _, _ => none

/-- The bytes of four characters, if they encode three. -/
def decodeFour (w x y z : Char) : Option (List UInt8) :=
  match value w, value x, value y, value z with
  | some w, some x, some y, some z =>
    some [UInt8.ofNat (w * 4 + x / 16), UInt8.ofNat (x % 16 * 16 + y / 4), UInt8.ofNat (y % 4 * 64 + z)]
  | _, _, _, _ => none

/-- Four characters at a time, without padding. -/
def decodeNoPad : List Char → Option (List UInt8)
  | [] => some []
  | [_] => none
  | [w, x] => decodeTwo w x
  | [w, x, y] => decodeThree w x y
  | w :: x :: y :: z :: rest =>
    match decodeFour w x y z, decodeNoPad rest with
    | some bytes, some tail => some (bytes ++ tail)
    | _, _ => none

/-- The bytes of a group of four characters, which may be padded. -/
def decodeGroup (w x y z : Char) : Option (List UInt8) :=
  if z = '=' then if y = '=' then decodeTwo w x else decodeThree w x y else decodeFour w x y z

/-- Four characters at a time, each group with its own padding. -/
def decode : List Char → Option (List UInt8)
  | [] => some []
  | [_] => none
  | [_, _] => none
  | [_, _, _] => none
  | w :: x :: y :: z :: rest =>
    match decodeGroup w x y z, decode rest with
    | some bytes, some tail => some (bytes ++ tail)
    | _, _ => none

/-! ### Characters -/

private theorem digit_table : ∀ n < 64, value (digit n) = some n ∧ digit n ∈ alphabet ∧ digit n ≠ '=' := by
  decide +kernel

@[simp] theorem value_digit {n : Nat} (h : n < 64) : value (digit n) = some n := (digit_table n h).1

theorem digit_mem {n : Nat} (h : n < 64) : digit n ∈ alphabet := (digit_table n h).2.1

theorem digit_ne {n : Nat} (h : n < 64) : digit n ≠ '=' := (digit_table n h).2.2

/-! ### Groups -/

private theorem ofNat_eq {n : Nat} {a : UInt8} (h : n = a.toNat) : UInt8.ofNat n = a := by
  rw [h, UInt8.ofNat_toNat]

private theorem decodeTwo_digits (a : UInt8) :
    decodeTwo (digit (a.toNat / 4)) (digit (a.toNat % 4 * 16)) = some [a] := by
  have ha := a.toNat_lt
  unfold decodeTwo
  rw [value_digit (by omega), value_digit (by omega)]
  dsimp only
  rw [if_pos (by omega), ofNat_eq (a := a) (by omega)]

private theorem decodeThree_digits (a b : UInt8) :
    decodeThree (digit (a.toNat / 4)) (digit (a.toNat % 4 * 16 + b.toNat / 16)) (digit (b.toNat % 16 * 4)) =
      some [a, b] := by
  have ha := a.toNat_lt
  have hb := b.toNat_lt
  unfold decodeThree
  rw [value_digit (by omega), value_digit (by omega), value_digit (by omega)]
  dsimp only
  rw [if_pos (by omega), ofNat_eq (a := a) (by omega), ofNat_eq (a := b) (by omega)]

private theorem decodeFour_digits (a b c : UInt8) :
    decodeFour (digit (a.toNat / 4)) (digit (a.toNat % 4 * 16 + b.toNat / 16)) (digit (b.toNat % 16 * 4 + c.toNat / 64))
      (digit (c.toNat % 64)) = some [a, b, c] := by
  have ha := a.toNat_lt
  have hb := b.toNat_lt
  have hc := c.toNat_lt
  unfold decodeFour
  rw [value_digit (by omega), value_digit (by omega), value_digit (by omega), value_digit (by omega)]
  dsimp only
  rw [ofNat_eq (a := a) (by omega), ofNat_eq (a := b) (by omega), ofNat_eq (a := c) (by omega)]

/-! ### What an encoder writes -/

theorem encode_ne_nil {bytes : List UInt8} (h : bytes ≠ []) : encode bytes ≠ [] := by
  match bytes with
  | [] => exact absurd rfl h
  | [a] => exact List.cons_ne_nil _ _
  | [a, b] => exact List.cons_ne_nil _ _
  | a :: b :: c :: rest => exact List.cons_ne_nil _ _

/-- Characters of the alphabet, and the padding. -/
theorem mem_encode {bytes : List UInt8} {c : Char} (h : c ∈ encode bytes) : c ∈ alphabet ∨ c = '=' := by
  induction bytes using encode.induct with
  | case1 => cases h
  | case2 a =>
    have ha := a.toNat_lt
    simp only [encode, List.mem_cons, List.not_mem_nil, or_false] at h
    rcases h with rfl | rfl | rfl | rfl
    · exact Or.inl (digit_mem (by omega))
    · exact Or.inl (digit_mem (by omega))
    · exact Or.inr rfl
    · exact Or.inr rfl
  | case3 a b =>
    have ha := a.toNat_lt
    have hb := b.toNat_lt
    simp only [encode, List.mem_cons, List.not_mem_nil, or_false] at h
    rcases h with rfl | rfl | rfl | rfl
    · exact Or.inl (digit_mem (by omega))
    · exact Or.inl (digit_mem (by omega))
    · exact Or.inl (digit_mem (by omega))
    · exact Or.inr rfl
  | case4 a b c rest ih =>
    have ha := a.toNat_lt
    have hb := b.toNat_lt
    have hc := c.toNat_lt
    simp only [encode, List.mem_cons] at h
    rcases h with rfl | rfl | rfl | rfl | h
    · exact Or.inl (digit_mem (by omega))
    · exact Or.inl (digit_mem (by omega))
    · exact Or.inl (digit_mem (by omega))
    · exact Or.inl (digit_mem (by omega))
    · exact ih h

theorem length_encode (bytes : List UInt8) : (encode bytes).length % 4 = 0 := by
  induction bytes using encode.induct with
  | case1 => rfl
  | case2 a => simp [encode]
  | case3 a b => simp [encode]
  | case4 a b c rest ih =>
    simp only [encode, List.length_cons]
    omega

private theorem filter_digits {n : Nat} (h : n < 64) (l : List Char) :
    (digit n :: l).filter (· ≠ '=') = digit n :: l.filter (· ≠ '=') :=
  List.filter_cons_of_pos (by simpa using digit_ne h)

private theorem count_digits {n : Nat} (h : n < 64) (l : List Char) : (digit n :: l).count '=' = l.count '=' :=
  List.count_cons_of_ne (digit_ne h)

theorem count_encode (bytes : List UInt8) : (encode bytes).count '=' ≤ 2 := by
  induction bytes using encode.induct with
  | case1 => exact Nat.zero_le _
  | case2 a =>
    have ha := a.toNat_lt
    rw [encode, count_digits (by omega), count_digits (by omega)]
    decide
  | case3 a b =>
    have ha := a.toNat_lt
    have hb := b.toNat_lt
    rw [encode, count_digits (by omega), count_digits (by omega), count_digits (by omega)]
    decide
  | case4 a b c rest ih =>
    have ha := a.toNat_lt
    have hb := b.toNat_lt
    have hc := c.toNat_lt
    rw [encode, count_digits (by omega), count_digits (by omega), count_digits (by omega), count_digits (by omega)]
    exact ih

/-! ### Decoding inverts encoding -/

theorem decode_encode (bytes : List UInt8) : decode (encode bytes) = some bytes := by
  induction bytes using encode.induct with
  | case1 => rfl
  | case2 a =>
    rw [encode, decode, decodeGroup, if_pos rfl, if_pos rfl, decodeTwo_digits]
    rfl
  | case3 a b =>
    have hb := b.toNat_lt
    rw [encode, decode, decodeGroup, if_pos rfl, if_neg (digit_ne (by omega)), decodeThree_digits]
    rfl
  | case4 a b c rest ih =>
    have hc := c.toNat_lt
    rw [encode, decode, decodeGroup, if_neg (digit_ne (by omega)), decodeFour_digits, ih]
    rfl

/-- What is encoded is decoded without its padding, too. -/
theorem decodeNoPad_encode (bytes : List UInt8) : decodeNoPad ((encode bytes).filter (· ≠ '=')) = some bytes := by
  induction bytes using encode.induct with
  | case1 => rfl
  | case2 a =>
    have ha := a.toNat_lt
    rw [encode, filter_digits (by omega), filter_digits (by omega)]
    exact decodeTwo_digits a
  | case3 a b =>
    have ha := a.toNat_lt
    have hb := b.toNat_lt
    rw [encode, filter_digits (by omega), filter_digits (by omega), filter_digits (by omega)]
    exact decodeThree_digits a b
  | case4 a b c rest ih =>
    have ha := a.toNat_lt
    have hb := b.toNat_lt
    have hc := c.toNat_lt
    rw [encode, filter_digits (by omega), filter_digits (by omega), filter_digits (by omega), filter_digits (by omega),
      decodeNoPad, decodeFour_digits, ih]
    rfl

/-- Padded text comes in groups of four. -/
theorem length_of_decode {s : List Char} {bytes : List UInt8} (h : decode s = some bytes) : s.length % 4 = 0 := by
  match s with
  | [] => rfl
  | [_] => cases h
  | [_, _] => cases h
  | [_, _, _] => cases h
  | w :: x :: y :: z :: rest =>
    rw [decode] at h
    split at h
    · rename_i tail htail
      have ih := length_of_decode htail
      simp only [List.length_cons]
      omega
    · cases h

end Base64
