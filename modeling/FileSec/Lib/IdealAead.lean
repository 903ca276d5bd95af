import Mathlib.Data.List.Basic
import Mathlib.Data.List.Nodup

/-!
# Ideal authenticated encryption

An ideal AEAD opens what has been sealed with it and nothing else: it keeps a log of the sealings whose ciphertexts have
been given out and looks up what it is asked to open.
-/

/-- A ciphertext that has been given out, and what it was made of. -/
structure Sealing (κ ν α π γ : Type*) where
  key : κ
  nonce : ν
  aad : α
  plain : π
  cipher : γ

namespace Sealing

variable {κ ν α π γ : Type*} [DecidableEq κ] [DecidableEq ν] [DecidableEq α] [DecidableEq γ]
  {log log' : List (Sealing κ ν α π γ)} {e : Sealing κ ν α π γ} {k : κ} {n : ν} {a : α} {c : γ} {p : π}

/-- The sealing is the one that opening the ciphertext `c` asks for. -/
def Answers (e : Sealing κ ν α π γ) (k : κ) (n : ν) (a : α) (c : γ) : Prop :=
  e.key = k ∧ e.nonce = n ∧ e.aad = a ∧ e.cipher = c

instance : Decidable (e.Answers k n a c) := inferInstanceAs (Decidable (_ ∧ _ ∧ _ ∧ _))

/-- Open a ciphertext. -/
def openIn (log : List (Sealing κ ν α π γ)) (k : κ) (n : ν) (a : α) (c : γ) : Option π :=
  (log.find? fun e => e.Answers k n a c).map (·.plain)

/-- What opens has been sealed. -/
theorem mem_of_openIn (h : openIn log k n a c = some p) : ∃ e ∈ log, e.Answers k n a c ∧ e.plain = p := by
  unfold openIn at h
  obtain ⟨e, he, rfl⟩ := Option.map_eq_some_iff.1 h
  exact ⟨e, List.mem_of_find?_eq_some he, by simpa using List.find?_some he, rfl⟩

/-- What has been sealed opens, as long as the question has one answer. -/
theorem openIn_of_mem (he : e ∈ log) (hanswers : e.Answers k n a c)
    (huniq : ∀ e' ∈ log, e'.Answers k n a c → e'.plain = e.plain) : openIn log k n a c = some e.plain := by
  unfold openIn
  cases hf : log.find? fun e => e.Answers k n a c with
  | none =>
    have := List.find?_eq_none.1 hf e he
    simp [hanswers] at this
  | some e' =>
    have hmem := List.mem_of_find?_eq_some hf
    have hans : e'.Answers k n a c := by simpa using List.find?_some hf
    exact congrArg some (huniq e' hmem hans)

/-- Nothing is opened that has not been sealed. -/
theorem openIn_eq_none (h : ∀ e ∈ log, ¬ e.Answers k n a c) : openIn log k n a c = none := by
  unfold openIn
  rw [List.find?_eq_none.2 fun e he => by simpa using h e he]
  rfl

end Sealing
