import FileSec.Store.Anchors

/-!
# Accepting states

The steps that compare an authenticated state with the anchor of its object, move the anchor forward and put suspect
files into quarantine (`accept_state`, `check_loaded_state` and the functions around them).
-/

namespace FileSec

open CrashDir Folders Prog

variable {S : StorePrims}

/-- A path of the data directory that holds the state of an object. -/
inductive Spot where
  | root (name : Str)
  | vault (name : Str)
  deriving DecidableEq, Repr

/-- The last component of the path. -/
def Spot.leaf : Spot → Str
  | .root name => name
  | .vault name => name

/-- What lies at a spot. -/
def Store.node (s : Store S) : Spot → Option (DirEntry S.toPrims)
  | .root name => (s.root.get name).map .file
  | .vault name => s.vaults.get name

/-- Whether `rename` can put the first node in the place of the second. -/
def DirEntry.replaces {P : Prims} : DirEntry P → Option (DirEntry P) → Bool
  | _, none => true
  | .file _, some (.file _) => true
  | _, some _ => false

/-- The store after what lies at the spot has been renamed into the directory `quarantine/`. -/
def Store.setAside (s : Store S) (spot : Spot) (target : Str) (node : DirEntry S.toPrims) : Store S :=
  match spot with
  | .root name => { s with root := s.root.remove name, quarantined := s.quarantined.insert target node }
  | .vault name => { s with vaults := s.vaults.remove name, quarantined := s.quarantined.insert target node }

/-- `quarantine` -/
def quarantine (spot : Spot) : StoreM S Unit := do
  call ioText
  let suffix ← drawBytes S 8
  call ioText
  let s ← get
  let target := spot.leaf ++ ".rollback-".toList ++ hex suffix
  match s.node spot with
  | none => throw ioText
  | some node =>
    if node.replaces (s.quarantined.lookup target) then modify fun s => s.setAside spot target node
    else throw ioText

/-- `current_anchor` -/
def currentAnchor (fingerprint : Bytes) (objectType : StateObjectType) (objectId : Str) :
    StoreM S (Option (StateAnchor S.Digest)) := do
  let anchor ← getAnchorLocked objectType objectId
  match anchor with
  | some anchor =>
    if anchor.identityFingerprint ≠ fingerprint then
      throw ("state-anchor mismatch for ".toList ++ objectType.display ++ [' '] ++ objectId ++
        ": it belongs to a different identity".toList)
    else pure (some anchor)
  | none => pure none

/-- The closures of `accept_state` and `check_loaded_state`; `first` says whether a first anchor is recorded. -/
def moveAnchor (first : Bool) (state : StateMetadata S.Digest) : StoreM S Unit := do
  let anchor ← getAnchorLocked state.objectType state.objectId
  let shouldUpdate ← match anchor with
    | some anchor => liftM (Result.text (anchor.checkCandidate state))
    | none => pure first
  if shouldUpdate then putAnchorLocked (StateAnchor.fromMetadata state) else pure ()

/-- Whether there is something at the spot. -/
def Store.holds (s : Store S) (spot : Spot) : Bool := (s.node spot).isSome

/-- Fail with `e`, with the suspect path put into quarantine if it is there. -/
def refuse (suspect : Option Spot) (e : Str) : StoreM S Unit := do
  let s ← get
  match suspect with
  | some spot =>
    if s.holds spot then do
      let _ ← attempt (quarantine spot)
      throw e
    else throw e
  | none => throw e

/-- `accept_state` and `check_loaded_state`. -/
def judge (first : Bool) (state : StateMetadata S.Digest) (suspect : Option Spot) : StoreM S Unit := do
  let result ← attempt (moveAnchor first state)
  match result with
  | .ok () => pure ()
  | .error e => refuse suspect e

/-- `accept_state` -/
def acceptState (state : StateMetadata S.Digest) (suspect : Option Spot) : StoreM S Unit := judge true state suspect

/-- `check_loaded_state` -/
def checkLoadedState (state : StateMetadata S.Digest) (suspect : Spot) : StoreM S Unit :=
  judge false state (some suspect)

/-- `check_state_transition` -/
def checkStateTransition (state : StateMetadata S.Digest) : StoreM S Unit := do
  let anchor ← getAnchorLocked state.objectType state.objectId
  match anchor with
  | some anchor => do
    let _ ← liftM (Result.text (anchor.checkCandidate state))
    pure ()
  | none => pure ()

/-- `commit_state` -/
def commitState (state : StateMetadata S.Digest) : StoreM S Unit := acceptState state none

/-! ### What accepting does -/

/-- The store after a state has passed its anchor. -/
inductive Store.Passed (s : Store S) (first : Bool) (state : StateMetadata S.Digest) : Store S → Prop
  /-- The state is the anchored one. -/
  | anchored (a : StateAnchor S.Digest) (k : Nat) (ha : s.anchor state.objectType state.objectId = .ok (some a))
      (hc : a.checkCandidate state = .ok false) : s.Passed first state (s.later k)
  /-- It is the direct successor, and the anchor moves on. -/
  | successor (a : StateAnchor S.Digest) (k : Nat) {s' : Store S}
      (ha : s.anchor state.objectType state.objectId = .ok (some a)) (hc : a.checkCandidate state = .ok true)
      (hput : (s.later k).Put (StateAnchor.fromMetadata state) s') : s.Passed first state s'
  /-- The object has no anchor, and gets its first one. -/
  | first (k : Nat) {s' : Store S} (ha : s.anchor state.objectType state.objectId = .ok none) (hf : first = true)
      (hput : (s.later k).Put (StateAnchor.fromMetadata state) s') : s.Passed first state s'
  /-- The object has no anchor, and none is recorded. -/
  | unanchored (k : Nat) (ha : s.anchor state.objectType state.objectId = .ok none) (hf : first = false) :
      s.Passed first state (s.later k)

theorem moveAnchor_spec (first : Bool) (state : StateMetadata S.Digest) (s : Store S) :
    wp (moveAnchor first state) (fun r s' => match r with
      | .ok () => s.Passed first state s'
      | .error _ => ∃ k, s' = s.later k) s := by
  unfold moveAnchor
  rw [wp_bind]
  refine wp_mono (getAnchorLocked_spec _ _ s) ?_
  rintro r _ ⟨⟨k, rfl⟩, hok, -⟩
  -- what the write at the end does when there is one
  have hput : wp (putAnchorLocked (StateAnchor.fromMetadata state)) (fun r s' => match r with
      | .ok () => (s.later k).Put (StateAnchor.fromMetadata state) s'
      | .error _ => ∃ k, s' = s.later k) (s.later k) := by
    refine wp_mono (putAnchorLocked_spec _ _) ?_
    intro r s' hr
    cases r with
    | ok u => exact hr
    | error e =>
      obtain ⟨j, rfl⟩ := hr
      exact ⟨k + j, later_later s k j⟩
  cases r with
  | error e => exact ⟨k, rfl⟩
  | ok anchor =>
    have ha := hok anchor rfl
    cases anchor with
    | none =>
      simp only [wp_bind, wp_pure, wp_ite]
      refine ⟨fun hf => wp_mono hput ?_, fun hf => .unanchored k ha (by simpa using hf)⟩
      intro r s' hr
      cases r with
      | ok u => exact .first k ha hf hr
      | error e => exact hr
    | some a =>
      simp only [wp_bind, wp_liftM]
      cases hc : a.checkCandidate state with
      | error e => exact ⟨k, rfl⟩
      | ok update =>
        simp only [Result.text_ok, wp_ite, wp_pure]
        refine ⟨fun hu => wp_mono hput ?_, fun hu => ?_⟩
        · intro r s' hr
          rw [hu] at hc
          cases r with
          | ok u => exact .successor a k ha hc hr
          | error e => exact hr
        · rw [Bool.not_eq_true] at hu
          exact .anchored a k ha (hu ▸ hc)

/-- The store after `k` more draws. -/
def Store.drawn (s : Store S) (k : Nat) : Store S := { s with rng := fun i => s.rng (i + k) }

/-- What putting something into quarantine leaves: it is there or where it was. -/
inductive Store.Quarantined (s : Store S) (spot : Spot) : Store S → Prop
  | moved (k : Nat) (target : Str) (node : DirEntry S.toPrims) (hnode : s.node spot = some node) :
      s.Quarantined spot (((s.later k).drawn 1).setAside spot target node)
  | kept (k j : Nat) : s.Quarantined spot ((s.later k).drawn j)

theorem quarantine_spec (spot : Spot) (s : Store S) : wp (quarantine spot) (fun r s' => match r with
    | .ok () => ∃ k target node, s.node spot = some node ∧ s' = ((s.later k).drawn 1).setAside spot target node
    | .error _ => ∃ k j, s' = (s.later k).drawn j) s := by
  unfold quarantine drawBytes
  simp only [wp_bind, wp_call, wp_get, wp_modify, wp_liftM]
  refine ⟨fun _ => ?_, fun _ => ⟨1, 0, rfl⟩⟩
  cases hr : Result.text (randomVec 8 (s.tick.rng 0)) with
  | error e => exact ⟨1, 1, rfl⟩
  | ok suffix =>
    simp only
    have hlater : ({ s.tick with rng := fun i => s.tick.rng (i + 1) } : Store S).tick = (s.later 2).drawn 1 := rfl
    have hnode : ((s.later 2).drawn 1).node spot = s.node spot := by
      cases spot <;> rfl
    rw [hlater, hnode]
    refine ⟨fun _ => ?_, fun _ => ⟨2, 1, rfl⟩⟩
    cases hn : s.node spot with
    | none => exact ⟨2, 1, rfl⟩
    | some node =>
      simp only [wp_ite, wp_modify, wp_throw]
      exact ⟨fun _ => ⟨2, _, node, rfl, rfl⟩, fun _ => ⟨2, 1, rfl⟩⟩

theorem refuse_spec (spot : Spot) (e : Str) (s : Store S) :
    wp (refuse (some spot) e) (fun r s' => r = .error e ∧ s.Quarantined spot s') s := by
  unfold refuse
  simp only [wp_bind, wp_get, wp_ite, wp_attempt, wp_throw]
  refine ⟨fun _ => wp_mono (quarantine_spec spot s) ?_, fun _ => ⟨trivial, .kept 0 0⟩⟩
  intro r s' hr
  cases r with
  | ok u =>
    obtain ⟨k, target, node, hnode, rfl⟩ := hr
    exact ⟨trivial, .moved k target node hnode⟩
  | error e' =>
    obtain ⟨k, j, rfl⟩ := hr
    exact ⟨trivial, .kept k j⟩

/-- A state passes, or what it was read from may be put into quarantine. -/
theorem judge_spec (first : Bool) (state : StateMetadata S.Digest) (suspect : Option Spot) (s : Store S) :
    wp (judge first state suspect) (fun r s' => match r with
      | .ok () => s.Passed first state s'
      | .error _ => (∃ k, s' = s.later k) ∨ ∃ k spot, suspect = some spot ∧ (s.later k).Quarantined spot s') s := by
  unfold judge
  simp only [wp_bind, wp_attempt]
  refine wp_mono (moveAnchor_spec first state s) ?_
  intro r s' hr
  cases r with
  | ok u => exact hr
  | error e =>
    obtain ⟨k, rfl⟩ := hr
    cases suspect with
    | none => exact Or.inl ⟨k, rfl⟩
    | some spot =>
      refine wp_mono (refuse_spec spot e _) ?_
      rintro r s' ⟨rfl, hq⟩
      exact Or.inr ⟨k, spot, rfl, hq⟩

theorem currentAnchor_spec (fingerprint : Bytes) (ty : StateObjectType) (id : Str) (s : Store S) :
    wp (currentAnchor fingerprint ty id) (fun r s' => (∃ k, s' = s.later k) ∧ ∀ a, r = .ok a →
      s.anchor ty id = .ok a ∧ ∀ b, a = some b → b.identityFingerprint = fingerprint) s := by
  unfold currentAnchor
  rw [wp_bind]
  refine wp_mono (getAnchorLocked_spec ty id s) ?_
  rintro r _ ⟨⟨k, rfl⟩, hok, -⟩
  cases r with
  | error e => exact ⟨⟨k, rfl⟩, by simp⟩
  | ok anchor =>
    have ha := hok anchor rfl
    cases anchor with
    | none =>
      refine ⟨⟨k, rfl⟩, ?_⟩
      rintro a ⟨⟩
      exact ⟨ha, by simp⟩
    | some b =>
      simp only [wp_ite, wp_throw, wp_pure]
      refine ⟨fun _ => ⟨⟨k, rfl⟩, by simp⟩, fun hfp => ⟨⟨k, rfl⟩, ?_⟩⟩
      rintro a ⟨⟩
      refine ⟨ha, ?_⟩
      rintro b ⟨⟩
      simpa using hfp

theorem checkStateTransition_spec (state : StateMetadata S.Digest) (s : Store S) :
    wp (checkStateTransition state) (fun r s' => (∃ k, s' = s.later k) ∧ (r = .ok () → ∃ anchor,
      s.anchor state.objectType state.objectId = .ok anchor ∧
        ∀ a, anchor = some a → ∃ update, a.checkCandidate state = .ok update)) s := by
  unfold checkStateTransition
  rw [wp_bind]
  refine wp_mono (getAnchorLocked_spec _ _ s) ?_
  rintro r _ ⟨⟨k, rfl⟩, hok, -⟩
  cases r with
  | error e => exact ⟨⟨k, rfl⟩, by simp⟩
  | ok anchor =>
    have ha := hok anchor rfl
    cases anchor with
    | none => exact ⟨⟨k, rfl⟩, fun _ => ⟨none, ha, by simp⟩⟩
    | some a =>
      simp only [wp_bind, wp_liftM]
      cases hc : a.checkCandidate state with
      | error e => exact ⟨⟨k, rfl⟩, by simp⟩
      | ok update =>
        refine ⟨⟨k, rfl⟩, fun _ => ⟨some a, ha, ?_⟩⟩
        rintro b ⟨⟩
        exact ⟨update, hc⟩

end FileSec
