import Mathlib.Data.List.Basic

/-!
# Runs of a machine

A machine is a function from a state and an event to the next state; `run` follows a list of events.  `Along` says that
every event of a run meets a condition in the state it finds, and `run_along` is the rule that carries an invariant
from the start to the end of such a run.
-/

namespace Runs

variable {σ ε : Type*} {step : σ → ε → σ} {C C' : σ → ε → Prop} {s : σ} {events : List ε}

/-- The state after the events. -/
def run (step : σ → ε → σ) (s : σ) (events : List ε) : σ := events.foldl step s

/-- Each event meets the condition in the state it happens in. -/
def Along (step : σ → ε → σ) (C : σ → ε → Prop) : σ → List ε → Prop
  | _, [] => True
  | s, e :: events => C s e ∧ Along step C (step s e) events

@[simp] theorem run_nil : run step s [] = s := rfl

@[simp] theorem run_cons {e : ε} : run step s (e :: events) = run step (step s e) events := rfl

theorem run_append {events' : List ε} : run step s (events ++ events') = run step (run step s events) events' :=
  List.foldl_append

@[simp] theorem along_nil : Along step C s [] := trivial

@[simp] theorem along_cons {e : ε} : Along step C s (e :: events) ↔ C s e ∧ Along step C (step s e) events := Iff.rfl

instance decidableAlong [∀ s e, Decidable (C s e)] : ∀ s events, Decidable (Along step C s events)
  | _, [] => inferInstanceAs (Decidable True)
  | s, e :: events => @instDecidableAnd _ _ inferInstance (decidableAlong (step s e) events)

theorem Along.mono (h : Along step C s events) (hC : ∀ s e, C s e → C' s e) : Along step C' s events := by
  induction events generalizing s with
  | nil => trivial
  | cons e events ih => exact ⟨hC s e h.1, ih h.2⟩

theorem along_and : Along step (fun s e => C s e ∧ C' s e) s events ↔ Along step C s events ∧ Along step C' s events := by
  induction events generalizing s with
  | nil => simp
  | cons e events ih =>
    simp only [along_cons, ih]
    exact and_and_and_comm

theorem along_append {events' : List ε} :
    Along step C s (events ++ events') ↔ Along step C s events ∧ Along step C (run step s events) events' := by
  induction events generalizing s with
  | nil => simp
  | cons e events ih => simp [ih, and_assoc]

/-- An invariant that each event keeps holds at the end of every run. -/
theorem run_inv (inv : σ → Prop) (hstep : ∀ s e, inv s → inv (step s e)) (h : inv s) : inv (run step s events) := by
  induction events generalizing s with
  | nil => exact h
  | cons e events ih => exact ih (hstep s e h)

/-- An invariant that each event keeps where it meets the condition holds at the end of the run. -/
theorem run_along (inv : σ → Prop) (hstep : ∀ s e, inv s → C s e → inv (step s e)) (h : inv s)
    (hC : Along step C s events) : inv (run step s events) := by
  induction events generalizing s with
  | nil => exact h
  | cons e events ih => exact ih (hstep s e h hC.1) hC.2

/-- Along a run, a condition may be replaced by what it implies where an invariant holds that the condition keeps. -/
theorem Along.imp_along (inv : σ → Prop) (hstep : ∀ s e, inv s → C s e → inv (step s e))
    (hC : ∀ s e, inv s → C s e → C' s e) (h : inv s) (hA : Along step C s events) : Along step C' s events := by
  induction events generalizing s with
  | nil => trivial
  | cons e events ih => exact ⟨hC s e h hA.1, ih (hstep s e h hA.1) hA.2⟩

/-- Along a run of events of a kind, a condition may be replaced by what it implies where the invariant holds. -/
theorem Along.imp_inv (inv : σ → Prop) (kind : ε → Prop) (hstep : ∀ s e, inv s → kind e → inv (step s e))
    (hC : ∀ s e, inv s → kind e → C s e → C' s e) (h : inv s) (hkind : ∀ e ∈ events, kind e)
    (hA : Along step C s events) : Along step C' s events := by
  induction events generalizing s with
  | nil => trivial
  | cons e events ih =>
    have he := hkind e List.mem_cons_self
    exact ⟨hC s e h he hA.1, ih (hstep s e h he) (fun e' he' => hkind e' (List.mem_cons_of_mem _ he')) hA.2⟩

end Runs
