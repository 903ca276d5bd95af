import Mathlib.Data.List.Basic

/-!
# Cutting a sequence into blocks

A writer that collects what it is given and hands on blocks of `size` elements: `Cut` says what it has handed on and what
it still holds of a sequence.  There is one rule for each way a piece can be taken, and the sequence alone determines
blocks and rest, however it was split into pieces.
-/

namespace Blocks

variable {α : Type*}

/-- `data` are full `blocks` and a `rest` that is not. -/
structure Cut (size : Nat) (data : List α) (blocks : List (List α)) (rest : List α) : Prop where
  flatten : blocks.flatten ++ rest = data
  full : ∀ b ∈ blocks, b.length = size
  rest_lt : rest.length < size

/-- The blocks with the rest, if there is any, as a last one. -/
def withRest (blocks : List (List α)) (rest : List α) : List (List α) := if rest = [] then blocks else blocks ++ [rest]

variable {size : Nat} {data piece rest rest' : List α} {blocks blocks' : List (List α)}

theorem Cut.empty (h : 0 < size) : Cut size ([] : List α) [] [] := ⟨rfl, by simp, h⟩

/-- A piece that does not fill the block is held. -/
theorem Cut.hold (h : Cut size data blocks rest) (hlt : (rest ++ piece).length < size) :
    Cut size (data ++ piece) blocks (rest ++ piece) :=
  ⟨by rw [← h.flatten, List.append_assoc], h.full, hlt⟩

/-- A piece that fills the block is handed on with it. -/
theorem Cut.fill (h : Cut size data blocks rest) (hfull : (rest ++ piece).length = size) :
    Cut size (data ++ piece) (blocks ++ [rest ++ piece]) [] := by
  refine ⟨?_, ?_, Nat.lt_of_le_of_lt (Nat.zero_le _) h.rest_lt⟩
  · rw [List.flatten_concat, List.append_nil, ← h.flatten, List.append_assoc]
  · intro b hb
    rcases List.mem_append.1 hb with hb | hb
    · exact h.full b hb
    · rw [List.mem_singleton.1 hb, hfull]

@[simp] theorem flatten_withRest (blocks : List (List α)) (rest : List α) :
    (withRest blocks rest).flatten = blocks.flatten ++ rest := by
  unfold withRest
  split
  · rename_i h
    rw [h, List.append_nil]
  · rw [List.flatten_concat]

/-- What is handed on in the end is never empty and never too long. -/
theorem Cut.mem_withRest (h : Cut size data blocks rest) {b : List α} (hb : b ∈ withRest blocks rest) :
    b ≠ [] ∧ b.length ≤ size := by
  have hpos : 0 < size := Nat.lt_of_le_of_lt (Nat.zero_le _) h.rest_lt
  have hblock : b ∈ blocks → b ≠ [] ∧ b.length ≤ size := by
    intro hin
    have hlen := h.full b hin
    refine ⟨fun hnil => ?_, Nat.le_of_eq hlen⟩
    rw [hnil, List.length_nil] at hlen
    omega
  unfold withRest at hb
  split at hb
  · exact hblock hb
  · rename_i hne
    rcases List.mem_append.1 hb with hb | hb
    · exact hblock hb
    · rw [List.mem_singleton.1 hb]
      exact ⟨hne, Nat.le_of_lt h.rest_lt⟩

/-- There are no more blocks than elements. -/
theorem Cut.length_le (h : Cut size data blocks rest) : blocks.length ≤ data.length := by
  have hpos : 0 < size := Nat.lt_of_le_of_lt (Nat.zero_le _) h.rest_lt
  have hcount : ∀ {l : List (List α)}, (∀ b ∈ l, b.length = size) → l.length ≤ l.flatten.length := by
    intro l hl
    induction l with
    | nil => exact Nat.le_refl _
    | cons b l ih =>
      have hb := hl b (by simp)
      have hrest := ih fun x hx => hl x (by simp [hx])
      rw [List.length_cons, List.flatten_cons, List.length_append]
      omega
  have hle := hcount h.full
  rw [← h.flatten, List.length_append]
  omega

/-- The sequence determines its blocks. -/
theorem Cut.unique (h : Cut size data blocks rest) (h' : Cut size data blocks' rest') : blocks = blocks' ∧ rest = rest' := by
  induction blocks generalizing data blocks' with
  | nil =>
    cases blocks' with
    | nil => exact ⟨rfl, by simpa using h.flatten.trans h'.flatten.symm⟩
    | cons b' blocks' =>
      have hlen := congrArg List.length (h.flatten.trans h'.flatten.symm)
      have hb := h'.full b' (by simp)
      have hlt := h.rest_lt
      simp only [List.flatten_nil, List.nil_append, List.flatten_cons, List.length_append] at hlen
      omega
  | cons b blocks ih =>
    cases blocks' with
    | nil =>
      have hlen := congrArg List.length (h.flatten.trans h'.flatten.symm)
      have hb := h.full b (by simp)
      have hlt := h'.rest_lt
      simp only [List.flatten_nil, List.nil_append, List.flatten_cons, List.length_append] at hlen
      omega
    | cons b' blocks' =>
      have heq := h.flatten.trans h'.flatten.symm
      rw [List.flatten_cons, List.flatten_cons, List.append_assoc, List.append_assoc] at heq
      obtain ⟨rfl, hrest⟩ := List.append_inj heq ((h.full b (by simp)).trans (h'.full b' (by simp)).symm)
      obtain ⟨rfl, rfl⟩ := ih ⟨rfl, fun x hx => h.full x (by simp [hx]), h.rest_lt⟩
        ⟨hrest.symm, fun x hx => h'.full x (by simp [hx]), h'.rest_lt⟩
      exact ⟨rfl, rfl⟩

end Blocks
