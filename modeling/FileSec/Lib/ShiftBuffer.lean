import Mathlib.Data.Nat.Digits.Lemmas
import Mathlib.Tactic.Ring

/-!
# Regrouping digits through a shift buffer

A stream of digits in base `2 ^ w` is rewritten in base `2 ^ v` with a buffer of `capacity` bits: each digit that comes
is shifted in at the low end, each digit that goes out is read off above the `bits` that are still waiting.  The buffer
drops its high bits, so it never holds the number read so far; `Holds` says what it does hold, and there is one rule for
each operation.
-/

namespace ShiftBuffer

/-- The number that a list of digits in base `2 ^ w` denotes, the most significant digit first. -/
def value (w : Nat) (digits : List Nat) : Nat := Nat.ofDigits (2 ^ w) digits.reverse

@[simp] theorem value_nil (w : Nat) : value w [] = 0 := by simp [value]

theorem value_concat (w : Nat) (digits : List Nat) (d : Nat) :
    value w (digits ++ [d]) = value w digits * 2 ^ w + d := by
  unfold value
  rw [List.reverse_concat, Nat.ofDigits_cons]
  ring

/-- Digits of one length denote one number only if they are the same. -/
theorem value_inj {w : Nat} (hw : 0 < w) {l l' : List Nat} (hlen : l.length = l'.length) (h : ∀ d ∈ l, d < 2 ^ w)
    (h' : ∀ d ∈ l', d < 2 ^ w) (heq : value w l = value w l') : l = l' := by
  have hbase : 1 < 2 ^ w := Nat.one_lt_two_pow hw.ne'
  refine List.reverse_injective (Nat.ofDigits_inj_of_len_eq hbase (by simpa using hlen) ?_ ?_ heq)
  · exact fun d hd => h d (List.mem_reverse.1 hd)
  · exact fun d hd => h' d (List.mem_reverse.1 hd)

/-- A buffer of `capacity` bits into which the `total` bits of the number `read` have been shifted: `out` are the digits
taken out, `bits` bits are waiting. -/
structure Holds (capacity v total read : Nat) (out : List Nat) (buffer bits : Nat) : Prop where
  buffer_eq : buffer = read % 2 ^ capacity
  value_eq : value v out = read / 2 ^ bits
  count : out.length * v + bits = total
  digit_lt : ∀ d ∈ out, d < 2 ^ v

variable {capacity v w total read buffer bits d : Nat} {out : List Nat}

theorem Holds.empty : Holds capacity v 0 0 [] 0 0 := ⟨by simp, by simp, by simp, by simp⟩

/-- A digit is shifted in. -/
theorem Holds.shift (h : Holds capacity v total read out buffer bits) (hd : d < 2 ^ w) :
    Holds capacity v (total + w) (read * 2 ^ w + d) out ((buffer <<< w ||| d) % 2 ^ capacity) (bits + w) := by
  refine ⟨?_, ?_, by rw [← h.count, Nat.add_assoc], h.digit_lt⟩
  · rw [← Nat.shiftLeft_add_eq_or_of_lt hd, Nat.shiftLeft_eq, h.buffer_eq]
    rw [Nat.add_mod, Nat.mul_mod, Nat.mod_mod, ← Nat.mul_mod, ← Nat.add_mod]
  · have hread : (read * 2 ^ w + d) / 2 ^ w = read := by
      rw [Nat.mul_comm, Nat.mul_add_div (Nat.two_pow_pos w), Nat.div_eq_of_lt hd, Nat.add_zero]
    rw [h.value_eq, Nat.add_comm bits w, pow_add, ← Nat.div_div_eq_div_mul, hread]

/-- The low bits of the buffer are those of the number. -/
theorem Holds.low (h : Holds capacity v total read out buffer bits) {k n : Nat} (hroom : k + n ≤ capacity) :
    (buffer >>> k) &&& (2 ^ n - 1) = read / 2 ^ k % 2 ^ n := by
  rw [Nat.and_two_pow_sub_one_eq_mod, Nat.shiftRight_eq_div_pow, h.buffer_eq]
  obtain ⟨rest, rfl⟩ := Nat.exists_eq_add_of_le hroom
  rw [Nat.add_assoc, pow_add, Nat.mod_mul_right_div_self, pow_add, Nat.mod_mul_right_mod]

/-- A digit is taken out. -/
theorem Holds.take (h : Holds capacity v total read out buffer (bits + v)) (hroom : bits + v ≤ capacity) :
    Holds capacity v total read (out ++ [(buffer >>> bits) &&& (2 ^ v - 1)]) buffer bits := by
  rw [h.low hroom]
  refine ⟨h.buffer_eq, ?_, ?_, ?_⟩
  · rw [value_concat, h.value_eq, pow_add, ← Nat.div_div_eq_div_mul]
    exact Nat.div_add_mod' _ _
  · rw [List.length_append, List.length_singleton, ← h.count]
    ring
  · intro d hd
    rcases List.mem_append.1 hd with hd | hd
    · exact h.digit_lt d hd
    · rw [List.mem_singleton.1 hd]
      exact Nat.mod_lt _ (Nat.two_pow_pos v)

/-- What is waiting. -/
theorem Holds.waiting (h : Holds capacity v total read out buffer bits) (hroom : bits ≤ capacity) :
    buffer &&& (2 ^ bits - 1) = read % 2 ^ bits := by
  have hlow := h.low (k := 0) (n := bits) (by omega)
  simpa using hlow

end ShiftBuffer
