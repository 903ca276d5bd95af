import Mathlib.Order.Defs.Unbundled

/-!
# Programs that change a state and may fail

A program runs on a state and ends in a result or an error; either way the state stays as the program left it.  `wp`
is the weakest precondition of a postcondition that sees the outcome together with the final state, so one rule covers
the success and the failure of a step.
-/

/-- A program on states `σ` with errors `ε`. -/
abbrev Prog (σ ε α : Type) := ExceptT ε (StateM σ) α

namespace Prog

variable {σ ε α β : Type} {s : σ}

/-- Run a program: its outcome and the state it leaves. -/
def exec (p : Prog σ ε α) (s : σ) : Except ε α × σ := (ExceptT.run p).run s

/-- The postcondition `Q` holds of the outcome and the final state. -/
def wp (p : Prog σ ε α) (Q : Except ε α → σ → Prop) (s : σ) : Prop := Q (exec p s).1 (exec p s).2

/-- Run a program on a part of the state. -/
def zoom {τ : Type} (view : σ → τ) (put : τ → σ → σ) (p : Prog τ ε α) : Prog σ ε α :=
  ExceptT.mk fun s => let (r, t) := exec p (view s); (r, put t s)

/-- Run a program and return its outcome instead of failing. -/
def attempt (p : Prog σ ε α) : Prog σ ε (Except ε α) := ExceptT.mk fun s => let (r, s') := exec p s; (.ok r, s')

/-! ### Running the basic programs -/

@[simp] theorem exec_pure (a : α) : exec (pure a : Prog σ ε α) s = (.ok a, s) := rfl

@[simp] theorem exec_throw (e : ε) : exec (throw e : Prog σ ε α) s = (.error e, s) := rfl

@[simp] theorem exec_get : exec (get : Prog σ ε σ) s = (.ok s, s) := rfl

@[simp] theorem exec_modify (f : σ → σ) : exec (modify f : Prog σ ε PUnit) s = (.ok ⟨⟩, f s) := rfl

@[simp] theorem exec_liftM (r : Except ε α) : exec (liftM r : Prog σ ε α) s = (r, s) := by
  cases r <;> rfl

theorem exec_bind (p : Prog σ ε α) (f : α → Prog σ ε β) : exec (p >>= f) s =
    match exec p s with
    | (.ok a, s') => exec (f a) s'
    | (.error e, s') => (.error e, s') := by
  unfold exec
  simp only [bind, ExceptT.bind, ExceptT.run, ExceptT.mk, StateT.bind, StateT.run]
  rcases h : p s with ⟨r, s'⟩
  cases r <;> rfl

theorem exec_zoom {τ : Type} (view : σ → τ) (put : τ → σ → σ) (p : Prog τ ε α) :
    exec (zoom view put p) s = ((exec p (view s)).1, put (exec p (view s)).2 s) := rfl

theorem exec_attempt (p : Prog σ ε α) : exec (attempt p) s = (.ok (exec p s).1, (exec p s).2) := rfl

/-- A step that is known to succeed. -/
@[simp] theorem lift_ok_bind (a : α) (f : α → Prog σ ε β) :
    (liftM (Except.ok a : Except ε α) : Prog σ ε α) >>= f = f a := rfl

/-- A step that is known to fail. -/
@[simp] theorem lift_error_bind (e : ε) (f : α → Prog σ ε β) :
    (liftM (Except.error e : Except ε α) : Prog σ ε α) >>= f = throw e := rfl

/-! ### Weakest preconditions -/

section Rules

variable {Q Q' : Except ε α → σ → Prop}

@[simp] theorem wp_pure (a : α) : wp (pure a) Q s ↔ Q (.ok a) s := Iff.rfl

@[simp] theorem wp_throw (e : ε) : wp (throw e) Q s ↔ Q (.error e) s := Iff.rfl

@[simp] theorem wp_get {Q : Except ε σ → σ → Prop} : wp get Q s ↔ Q (.ok s) s := Iff.rfl

@[simp] theorem wp_modify {Q : Except ε PUnit → σ → Prop} (f : σ → σ) : wp (modify f) Q s ↔ Q (.ok ⟨⟩) (f s) := Iff.rfl

@[simp] theorem wp_liftM (r : Except ε α) : wp (liftM r) Q s ↔ Q r s := by
  unfold wp
  rw [exec_liftM]

/-- The rule of sequencing: after a failing first step the second one does not run. -/
@[simp] theorem wp_bind (p : Prog σ ε α) (f : α → Prog σ ε β) {Q : Except ε β → σ → Prop} : wp (p >>= f) Q s ↔
    wp p (fun r s' => match r with
      | .ok a => wp (f a) Q s'
      | .error e => Q (.error e) s') s := by
  unfold wp
  rw [exec_bind]
  rcases exec p s with ⟨r, s'⟩
  cases r <;> rfl

@[simp] theorem wp_ite (c : Prop) [Decidable c] (p p' : Prog σ ε α) :
    wp (if c then p else p') Q s ↔ (c → wp p Q s) ∧ (¬ c → wp p' Q s) := by
  split <;> simp_all

/-- A program on a part of the state leaves the rest alone. -/
@[simp] theorem wp_zoom {τ : Type} (view : σ → τ) (put : τ → σ → σ) (p : Prog τ ε α) :
    wp (zoom view put p) Q s ↔ wp p (fun r t => Q r (put t s)) (view s) := Iff.rfl

@[simp] theorem wp_attempt (p : Prog σ ε α) {Q : Except ε (Except ε α) → σ → Prop} :
    wp (attempt p) Q s ↔ wp p (fun r s' => Q (.ok r) s') s := Iff.rfl

/-- The rule of consequence. -/
theorem wp_mono {p : Prog σ ε α} (h : wp p Q s) (hQ : ∀ r s', Q r s' → Q' r s') : wp p Q' s := hQ _ _ h

theorem wp_and {p : Prog σ ε α} (h : wp p Q s) (h' : wp p Q' s) : wp p (fun r s' => Q r s' ∧ Q' r s') s := ⟨h, h'⟩

/-- A postcondition of a run that is known. -/
theorem of_wp {p : Prog σ ε α} {r : Except ε α} {s' : σ} (h : wp p Q s) (hp : exec p s = (r, s')) : Q r s' := by
  unfold wp at h
  rwa [hp] at h

end Rules

/-! ### Programs that return certain values -/

/-- Whatever the program returns satisfies `Q`. -/
def Returns (Q : α → Prop) (p : Prog σ ε α) : Prop := ∀ s, wp p (fun r _ => ∀ a, r = .ok a → Q a) s

section Returns

variable {Q : α → Prop}

theorem Returns.pure {a : α} (h : Q a) : Returns Q (Pure.pure a : Prog σ ε α) := by
  rintro s b ⟨⟩
  exact h

theorem Returns.throw (e : ε) : Returns Q (MonadExcept.throw e : Prog σ ε α) := by
  rintro s b ⟨⟩

theorem Returns.lift {r : Except ε α} (h : ∀ a, r = .ok a → Q a) : Returns Q (liftM r : Prog σ ε α) := by
  intro s
  rw [wp_liftM]
  exact h

theorem Returns.bind {p : Prog σ ε β} {f : β → Prog σ ε α} (hf : ∀ b, Returns Q (f b)) : Returns Q (p >>= f) := by
  intro s
  rw [wp_bind]
  unfold wp
  rcases exec p s with ⟨r, s'⟩
  cases r with
  | error e => simp
  | ok b => exact hf b s'

theorem Returns.bind_of {A : β → Prop} {p : Prog σ ε β} {f : β → Prog σ ε α} (hp : Returns A p)
    (hf : ∀ b, A b → Returns Q (f b)) : Returns Q (p >>= f) := by
  intro s
  rw [wp_bind]
  refine wp_mono (hp s) ?_
  intro r s' hr
  cases r with
  | error e => simp
  | ok b => exact hf b (hr b rfl) s'

theorem Returns.attempt {p : Prog σ ε α} (hp : Returns Q p) :
    Returns (fun r : Except ε α => ∀ a, r = .ok a → Q a) (attempt p) := by
  rintro s r ⟨⟩
  exact hp s

theorem Returns.ite {c : Prop} [Decidable c] {p q : Prog σ ε α} (hp : Returns Q p) (hq : Returns Q q) :
    Returns Q (if c then p else q) := by
  split
  · exact hp
  · exact hq

end Returns

/-! ### Programs that respect a preorder -/

/-- However it ends, the program takes every state to one related to it. -/
def Respects (R : σ → σ → Prop) (p : Prog σ ε α) : Prop := ∀ s, wp p (fun _ s' => R s s') s

section Respects

variable {R : σ → σ → Prop} [IsPreorder σ R]

theorem Respects.pure (a : α) : Respects R (Pure.pure a : Prog σ ε α) := fun s => Std.Refl.refl s

theorem Respects.throw (e : ε) : Respects R (MonadExcept.throw e : Prog σ ε α) := fun s => Std.Refl.refl s

theorem Respects.get : Respects R (MonadState.get : Prog σ ε σ) := fun s => Std.Refl.refl s

theorem Respects.lift (r : Except ε α) : Respects R (liftM r : Prog σ ε α) := fun s => by
  rw [wp_liftM]
  exact Std.Refl.refl s

omit [IsPreorder σ R] in
theorem Respects.modify {f : σ → σ} (h : ∀ s, R s (f s)) : Respects R (modify f : Prog σ ε PUnit) := h

theorem Respects.bind {p : Prog σ ε α} {f : α → Prog σ ε β} (hp : Respects R p) (hf : ∀ a, Respects R (f a)) :
    Respects R (p >>= f) := by
  intro s
  rw [wp_bind]
  refine wp_mono (hp s) ?_
  intro r s' hr
  cases r with
  | error e => exact hr
  | ok a => exact wp_mono (hf a s') fun _ _ h => IsTrans.trans _ _ _ hr h

/-- Sequencing, with what is known of the value of the first step. -/
theorem Respects.bind_of {Q : α → Prop} {p : Prog σ ε α} {f : α → Prog σ ε β} (hp : Respects R p) (hQ : Returns Q p)
    (hf : ∀ a, Q a → Respects R (f a)) : Respects R (p >>= f) := by
  intro s
  rw [wp_bind]
  refine wp_mono (wp_and (hp s) (hQ s)) ?_
  rintro r s' ⟨hr, ha⟩
  cases r with
  | error e => exact hr
  | ok a => exact wp_mono (hf a (ha a rfl) s') fun _ _ h => IsTrans.trans _ _ _ hr h

omit [IsPreorder σ R] in
theorem Respects.attempt {p : Prog σ ε α} (hp : Respects R p) : Respects R (attempt p) := hp

omit [IsPreorder σ R] in
/-- A look at the state, and what is done with it there. -/
theorem Respects.get_bind {f : σ → Prog σ ε α} (hf : ∀ s, wp (f s) (fun _ s' => R s s') s) :
    Respects R (MonadState.get >>= f) := fun s => by
  rw [wp_bind]
  exact hf s

omit [IsPreorder σ R] in
theorem Respects.ite {c : Prop} [Decidable c] {p q : Prog σ ε α} (hp : Respects R p) (hq : Respects R q) :
    Respects R (if c then p else q) := by
  split
  · exact hp
  · exact hq

end Respects

/-! ### Blind programs

A program that only writes a part of its state, without ever reading it, does the same whatever that part is: `put`
puts the part `τ` into the state, and `T s g s'` says what a run from `s` to `s'` that changes the part by `g` is like.
-/

/-- Relations that hold of a run if they hold of its parts. -/
class Composes {τ : Type} (T : σ → (τ → τ) → σ → Prop) : Prop where
  refl : ∀ s, T s id s
  trans : ∀ {s s' s'' g g'}, T s g s' → T s' g' s'' → T s (g' ∘ g) s''

/-- The relation that says nothing of a run. -/
def AnyRun {τ : Type} (_ : σ) (_ : τ → τ) (_ : σ) : Prop := True

instance {τ : Type} : Composes (AnyRun (σ := σ) (τ := τ)) := ⟨fun _ => trivial, fun _ _ => trivial⟩

/-- From `s`, the program changes the part `τ` of its state without looking at it. -/
def BlindAt {τ : Type} (put : τ → σ → σ) (T : σ → (τ → τ) → σ → Prop) (p : Prog σ ε α) (s : σ) : Prop :=
  ∃ r s' g, T s g s' ∧ ∀ t, exec p (put t s) = (r, put (g t) s')

/-- The program changes the part `τ` of its state without looking at it. -/
def Blind {τ : Type} (put : τ → σ → σ) (T : σ → (τ → τ) → σ → Prop) (p : Prog σ ε α) : Prop := ∀ s, BlindAt put T p s

section Blind

variable {τ : Type} {put : τ → σ → σ} {T : σ → (τ → τ) → σ → Prop} [Composes T]

theorem Blind.pure (a : α) : Blind put T (Pure.pure a : Prog σ ε α) :=
  fun s => ⟨.ok a, s, id, Composes.refl s, fun _ => rfl⟩

theorem Blind.throw (e : ε) : Blind put T (MonadExcept.throw e : Prog σ ε α) :=
  fun s => ⟨.error e, s, id, Composes.refl s, fun _ => rfl⟩

theorem Blind.lift (r : Except ε α) : Blind put T (liftM r : Prog σ ε α) :=
  fun s => ⟨r, s, id, Composes.refl s, fun _ => by rw [exec_liftM]; rfl⟩

omit [Composes T] in
theorem BlindAt.modify {f : σ → σ} {s : σ} (s' : σ) (g : τ → τ) (hT : T s g s') (hf : ∀ t, f (put t s) = put (g t) s') :
    BlindAt put T (modify f : Prog σ ε PUnit) s :=
  ⟨.ok ⟨⟩, s', g, hT, fun t => by rw [exec_modify, hf]⟩

omit [Composes T] in
theorem Blind.modify {f : σ → σ} (f' : σ → σ) (g : σ → τ → τ) (hT : ∀ s, T s (g s) (f' s))
    (hf : ∀ s t, f (put t s) = put (g s t) (f' s)) : Blind put T (modify f : Prog σ ε PUnit) :=
  fun s => .modify (f' s) (g s) (hT s) (hf s)

theorem Blind.bind {p : Prog σ ε α} {f : α → Prog σ ε β} (hp : Blind put T p) (hf : ∀ a, Blind put T (f a)) :
    Blind put T (p >>= f) := by
  intro s
  obtain ⟨r, s', g, hT, hrun⟩ := hp s
  cases r with
  | error e => exact ⟨.error e, s', g, hT, fun t => by rw [exec_bind, hrun]⟩
  | ok a =>
    obtain ⟨r', s'', g', hT', hrun'⟩ := hf a s'
    refine ⟨r', s'', g' ∘ g, Composes.trans hT hT', fun t => ?_⟩
    rw [exec_bind, hrun]
    exact hrun' (g t)

omit [Composes T] in
/-- What a look at the state is used for may not depend on the part. -/
theorem Blind.get_bind_at {f : σ → Prog σ ε β} (hf : ∀ s, BlindAt put T (f s) s) (hput : ∀ s t, f (put t s) = f s) :
    Blind put T (get >>= f) := by
  intro s
  obtain ⟨r, s', g, hT, hrun⟩ := hf s
  refine ⟨r, s', g, hT, fun t => ?_⟩
  rw [exec_bind, exec_get]
  show exec (f (put t s)) (put t s) = _
  rw [hput, hrun]

omit [Composes T] in
theorem Blind.get_bind {f : σ → Prog σ ε β} (hf : ∀ s, Blind put T (f s)) (hput : ∀ s t, f (put t s) = f s) :
    Blind put T (get >>= f) :=
  .get_bind_at (fun s => hf s s) hput

omit [Composes T] in
theorem Blind.attempt {p : Prog σ ε α} (hp : Blind put T p) : Blind put T (attempt p) := by
  intro s
  obtain ⟨r, s', g, hT, hrun⟩ := hp s
  exact ⟨.ok r, s', g, hT, fun t => by rw [exec_attempt, hrun]⟩

omit [Composes T] in
/-- A blind program on a larger state that the part belongs to. -/
theorem Blind.zoom {ρ : Type} {put' : τ → ρ → ρ} {T' : ρ → (τ → τ) → ρ → Prop} {view : ρ → σ} {set : σ → ρ → ρ}
    {p : Prog σ ε α} (hp : Blind put T p) (hview : ∀ t s, view (put' t s) = put t (view s))
    (hset : ∀ t a t' s, set (put t a) (put' t' s) = put' t (set a s))
    (hT : ∀ s g a, T (view s) g a → T' s g (set a s)) : Blind put' T' (zoom view set p) := by
  intro s
  obtain ⟨r, a, g, h, hrun⟩ := hp (view s)
  refine ⟨r, set a s, g, hT s g a h, fun t => ?_⟩
  rw [exec_zoom, hview, hrun]
  simp only [hset]

omit [Composes T] in
theorem Blind.mono {T' : σ → (τ → τ) → σ → Prop} {p : Prog σ ε α} (hp : Blind put T p)
    (h : ∀ s g s', T s g s' → T' s g s') : Blind put T' p := by
  intro s
  obtain ⟨r, s', g, hT, hrun⟩ := hp s
  exact ⟨r, s', g, h s g s' hT, hrun⟩

end Blind

end Prog
