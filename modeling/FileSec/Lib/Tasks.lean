import FileSec.Lib.Prog
import Mathlib.Data.List.Induction
import Mathlib.Logic.Function.Basic

/-!
# Lists of tasks that may be run again

`runAll` runs a task for each element of a list, up to the first one that fails.  A list is `Resumable` when every task
keeps an invariant however it ends, leaves alone what the other tasks have done, and has done its own part when it
succeeds: then the list may be run again and again, each run may stop anywhere, and the first run that gets through has
done all of it (`Resumable.run`).  `Writes` is the case of tasks that each write one value of a table under a key; there
the last write under a key counts, so the keys may repeat (`Writes.run`).
-/

namespace Prog

variable {σ ε α κ β : Type} {s : σ}

/-- A run, as a postcondition of itself. -/
theorem wp_self (p : Prog σ ε α) (s : σ) : wp p (fun r s' => exec p s = (r, s')) s := rfl

/-- Run the task for each element, up to the first failure. -/
def runAll (task : α → Prog σ ε Unit) : List α → Prog σ ε Unit
  | [] => pure ()
  | a :: l => do
    task a
    runAll task l

theorem Respects.runAll {R : σ → σ → Prop} [IsPreorder σ R] {task : α → Prog σ ε Unit} {l : List α}
    (h : ∀ a ∈ l, Respects R (task a)) : Respects R (runAll task l) := by
  induction l with
  | nil => exact .pure _
  | cons a l ih => exact .bind (h a List.mem_cons_self) fun _ => ih fun b hb => h b (List.mem_cons_of_mem _ hb)

/-! ### Tasks that do not undo each other -/

/-- The tasks of the list keep the invariant and what has been done, and do their part when they succeed. -/
structure Resumable (task : α → Prog σ ε Unit) (inv : σ → Prop) (done : α → σ → Prop) (l : List α) : Prop where
  step : ∀ a ∈ l, ∀ s, inv s → wp (task a) (fun r s' => inv s' ∧ (∀ b ∈ l, done b s → done b s') ∧
    (r = .ok () → done a s')) s

section Resumable

variable {task : α → Prog σ ε Unit} {inv : σ → Prop} {done : α → σ → Prop} {l : List α}

/-- A run keeps the invariant and what has been done before; a run that gets through has done everything. -/
theorem Resumable.run (h : Resumable task inv done l) (hs : inv s) :
    wp (runAll task l) (fun r s' => inv s' ∧ (∀ b ∈ l, done b s → done b s') ∧
      (r = .ok () → ∀ b ∈ l, done b s')) s := by
  -- the tasks that are left are a part of the list
  have hpart : ∀ l' : List α, l' ⊆ l → ∀ s, inv s → wp (runAll task l') (fun r s' => inv s' ∧
      (∀ b ∈ l, done b s → done b s') ∧ (r = .ok () → ∀ b ∈ l', done b s')) s := by
    intro l'
    induction l' with
    | nil =>
      intro _ s hs
      exact ⟨hs, fun _ _ hd => hd, by simp⟩
    | cons a l' ih =>
      intro hsub s hs
      unfold runAll
      rw [wp_bind]
      refine wp_mono (h.step a (hsub List.mem_cons_self) s hs) ?_
      rintro r s₁ ⟨hs₁, hkeep, hdone⟩
      cases r with
      | error e => exact ⟨hs₁, hkeep, by simp⟩
      | ok u =>
        refine wp_mono (ih (fun b hb => hsub (List.mem_cons_of_mem _ hb)) s₁ hs₁) ?_
        rintro r s₂ ⟨hs₂, hkeep₂, hdone₂⟩
        refine ⟨hs₂, fun b hb hd => hkeep₂ b hb (hkeep b hb hd), fun hr b hb => ?_⟩
        rcases List.mem_cons.1 hb with rfl | hb
        · exact hkeep₂ b (hsub List.mem_cons_self) (hdone rfl)
        · exact hdone₂ hr b hb
  exact hpart l (List.Subset.refl l) s hs

/-- On states where every task of the list succeeds, the whole run does. -/
theorem runAll_ok (good : σ → Prop) (h : ∀ a ∈ l, ∀ s, good s → wp (task a) (fun r s' => r = .ok () ∧ good s') s)
    (hs : good s) : wp (runAll task l) (fun r s' => r = .ok () ∧ good s') s := by
  induction l generalizing s with
  | nil => exact ⟨rfl, hs⟩
  | cons a l ih =>
    unfold runAll
    rw [wp_bind]
    refine wp_mono (h a List.mem_cons_self s hs) ?_
    rintro r s₁ ⟨rfl, hs₁⟩
    exact ih (fun b hb => h b (List.mem_cons_of_mem _ hb)) hs₁

end Resumable

/-! ### Tasks that write a table -/

/-- The tasks write `value a` under `key a` into the table that `read` shows, and leave the rest of it alone. -/
structure Writes (task : α → Prog σ ε Unit) (inv : σ → Prop) (read : σ → κ → β) (key : α → κ) (value : α → β)
    (l : List α) : Prop where
  step : ∀ a ∈ l, ∀ s, inv s → wp (task a) (fun r s' => inv s' ∧ (∀ k, k ≠ key a → read s' k = read s k) ∧
    match r with
    | .ok _ => read s' (key a) = value a
    | .error _ => read s' (key a) = read s (key a)) s

section Writes

variable {task : α → Prog σ ε Unit} {inv : σ → Prop} {read : σ → κ → β} {key : α → κ} {value : α → β} {l : List α}

/-- What the writes of the list make of a table: under each key the last value written, or what was there. -/
def written [DecidableEq κ] (key : α → κ) (value : α → β) (l : List α) (f : κ → β) (k : κ) : β :=
  l.foldl (fun b a => if key a = k then value a else b) (f k)

theorem written_cons [DecidableEq κ] (a : α) (f : κ → β) : written key value (a :: l) f =
    written key value l (Function.update f (key a) (value a)) := by
  funext k
  unfold written
  rw [List.foldl_cons]
  by_cases h : key a = k
  · subst h
    rw [if_pos rfl, Function.update_self]
  · rw [if_neg h, Function.update_of_ne fun h' => h h'.symm]

theorem written_of_not_mem [DecidableEq κ] {f : κ → β} {k : κ} (h : ∀ a ∈ l, key a ≠ k) : written key value l f k = f k := by
  induction l generalizing f with
  | nil => rfl
  | cons a l ih =>
    rw [written_cons, ih fun b hb => h b (List.mem_cons_of_mem _ hb)]
    exact Function.update_of_ne (fun h' => h a List.mem_cons_self h'.symm) _ _

/-- Under each key the last element counts. -/
theorem written_eq_find [DecidableEq κ] {f : κ → β} {k : κ} : written key value l f k =
    match l.reverse.find? (key · = k) with
    | some a => value a
    | none => f k := by
  induction l using List.reverseRecOn with
  | nil => rfl
  | append_singleton l a ih =>
    have hstep : written key value (l ++ [a]) f k = if key a = k then value a else written key value l f k := by
      unfold written
      rw [List.foldl_append]
      rfl
    rw [hstep, List.reverse_append, List.reverse_singleton, List.singleton_append, List.find?_cons]
    by_cases h : key a = k
    · simp [h]
    · simp [h, ih]

/-- What lies under a key that is written does not matter. -/
theorem written_congr [DecidableEq κ] {f g : κ → β} {k : κ} (h : (∃ a ∈ l, key a = k) ∨ f k = g k) :
    written key value l f k = written key value l g k := by
  induction l generalizing f g with
  | nil =>
    rcases h with ⟨a, ha, -⟩ | h
    · cases ha
    · exact h
  | cons a l ih =>
    rw [written_cons, written_cons]
    by_cases hk : key a = k
    · subst hk
      exact ih (Or.inr (by rw [Function.update_self, Function.update_self]))
    · refine ih ?_
      rcases h with ⟨b, hb, hbk⟩ | h
      · rcases List.mem_cons.1 hb with rfl | hb
        · exact absurd hbk hk
        · exact Or.inl ⟨b, hb, hbk⟩
      · have hne : k ≠ key a := fun h' => hk h'.symm
        exact Or.inr (by rw [Function.update_of_ne hne, Function.update_of_ne hne, h])

/-- Where nothing is written under a key, the table is as it was; a run that gets through has written the whole list. -/
theorem Writes.run [DecidableEq κ] (h : Writes task inv read key value l) (hs : inv s) :
    wp (runAll task l) (fun r s' => inv s' ∧ (∀ k, (∀ a ∈ l, key a ≠ k) → read s' k = read s k) ∧
      (r = .ok () → ∀ k, read s' k = written key value l (read s) k)) s := by
  induction l generalizing s with
  | nil => exact ⟨hs, fun _ _ => rfl, fun _ _ => rfl⟩
  | cons a l ih =>
    have htail : Writes task inv read key value l := ⟨fun b hb => h.step b (List.mem_cons_of_mem _ hb)⟩
    unfold runAll
    rw [wp_bind]
    refine wp_mono (h.step a List.mem_cons_self s hs) ?_
    rintro r s₁ ⟨hs₁, hothers, hself⟩
    cases r with
    | error e =>
      exact ⟨hs₁, fun k hk => hothers k fun h' => hk a List.mem_cons_self h'.symm, by simp⟩
    | ok u =>
      refine wp_mono (ih htail hs₁) ?_
      rintro r s₂ ⟨hs₂, hrest, hwritten⟩
      refine ⟨hs₂, fun k hk => ?_, fun hr k => ?_⟩
      · rw [hrest k fun b hb => hk b (List.mem_cons_of_mem _ hb)]
        exact hothers k fun h' => hk a List.mem_cons_self h'.symm
      · rw [hwritten hr k, written_cons]
        refine written_congr (Or.inr ?_)
        by_cases hk : k = key a
        · subst hk
          rw [Function.update_self]
          exact hself
        · rw [Function.update_of_ne hk]
          exact hothers k hk

end Writes

end Prog
