import FileSec.Store.Beside
import FileSec.Store.Ideal

/-!
# Suspects

What makes a load put an object into quarantine.  The step that compares a state with its anchor fails when the anchor
refuses the state and when the backend of the anchors fails, and the loads treat both alike (`spares_iff`).
-/

namespace FileSec

open CrashDir Folders Prog

variable {S : StorePrims}

/-! ### Loads -/

/-- The loads of the objects of a store. -/
inductive Load (S : StorePrims) : Type → Type 1 where
  | keystore : Load S S.KeystoreFile
  | contacts (identity : Identity) : Load S S.ContactBook
  | registry (identity : Identity) : Load S Registry
  | vault (identity : Identity) (id : Str) (io : GcIo) : Load S (VaultReaderV2 S.toPrims)

/-- The object's path. -/
def Load.spot {α : Type} : Load S α → Spot
  | .keystore => .root keystoreFile
  | .contacts _ => .root contactsFile
  | .registry _ => .root indexFile
  | .vault _ id _ => .vault (vaultDirV2 id)

/-- The load. -/
def Load.run {α : Type} : Load S α → StoreM S α
  | .keystore => loadKeystore
  | .contacts identity => loadContacts identity
  | .registry identity => loadRegistry identity
  | .vault identity id io => openVaultLocked identity id io

/-- Whether the load records a first anchor. -/
def Load.first {α : Type} : Load S α → Bool
  | .keystore => false
  | _ => true

/-- Read the keystore and its state. -/
def readKeystore : StoreM S (S.KeystoreFile × StateMetadata S.Digest) := do
  let bytes ← readBoundedFile keystoreFile maxKeystoreFileLen "keystore file".toList
  let ks ← liftM (Result.text (S.keystoreFromBytes bytes))
  let state ← liftM (keystoreStateOr noKeystoreState ks)
  pure (ks, state)

/-- Read a vault and its state. -/
def readVaultState (identity : Identity) (id : Str) :
    StoreM S (VaultReaderV2 S.toPrims × StateMetadata S.Digest) := do
  let s ← get
  if (s.vaults.get (vaultDirV2 id)).isSome then do
    let reader ← readVault (vaultDirV2 id) identity
    let state ← liftM reader.stateOr
    pure (reader, state)
  else if (s.vaults.get (vaultPath id)).isSome then
    throw "legacy local vault requires explicit recovery before it can be opened".toList
  else throw ("vault not found: ".toList ++ id)

/-- The state of a record, if one could be read. -/
def recordState {T : Type} : StoreResult (Option (ProtectedState S.Digest T)) → Option (StateMetadata S.Digest)
  | .ok (some record) => some record.state
  | _ => none

/-- The state of a vault, if it is that of the vault `id`. -/
def vaultState (id : Str) (p : VaultReaderV2 S.toPrims × StateMetadata S.Digest) : Option (StateMetadata S.Digest) :=
  if p.2.objectId ≠ id then none else some p.2

/-- The part of a load before the anchor: read and authenticate the object, and return its state if it has one to be
judged. -/
def Load.read {α : Type} : Load S α → StoreM S (Option (StateMetadata S.Digest))
  | .keystore => do
    let ks ← readKeystore
    pure (some ks.2)
  | .contacts identity => do
    let result ← attempt (readProtectedRecord (contactsRecord S) identity)
    pure (recordState result)
  | .registry identity => do
    let result ← attempt (readProtectedRecord (registryRecord S) identity)
    pure (recordState result)
  | .vault identity id _ => do
    let opened ← readVaultState identity id
    pure (vaultState id opened)

/-! ### The anchor's verdict -/

/-- The object's anchor is read, and refuses the state as a rollback, a fork or another object's. -/
def Store.Refuses (s : Store S) (state : StateMetadata S.Digest) : Prop :=
  ∃ a e, (exec (getAnchorLocked state.objectType state.objectId) s).1 = .ok (some a) ∧
    a.checkCandidate state = .error e

/-- The state has to be recorded. -/
def needsUpdate {Digest : Type} [DecidableEq Digest] (first : Bool) (state : StateMetadata Digest) :
    Option (StateAnchor Digest) → Prop
  | none => first = true
  | some a => a.checkCandidate state = .ok true

/-- The backend of the anchors fails: it cannot read the object's anchor, or not store the state that has to be
recorded. -/
def Store.BackendFails (s : Store S) (first : Bool) (state : StateMetadata S.Digest) : Prop :=
  let read := exec (getAnchorLocked state.objectType state.objectId) s
  (∃ e, read.1 = .error e) ∨ ∃ anchor e, read.1 = .ok anchor ∧ needsUpdate first state anchor ∧
    (exec (putAnchorLocked (StateAnchor.fromMetadata state)) read.2).1 = .error e

/-- What is moved does not pass its anchor, and what has changed is only the anchor. -/
theorem moveAnchor_error_iff (first : Bool) (state : StateMetadata S.Digest) (s : Store S) :
    (∃ e, (exec (moveAnchor first state) s).1 = .error e) ↔ s.Refuses state ∨ s.BackendFails first state := by
  unfold Store.Refuses Store.BackendFails moveAnchor
  rw [exec_bind]
  rcases hr : exec (getAnchorLocked state.objectType state.objectId) s with ⟨r, s'⟩
  cases r with
  | error e => simp
  | ok anchor =>
    cases anchor with
    | none =>
      cases first with
      | false => simp [needsUpdate]
      | true => simp [needsUpdate]
    | some a =>
      cases hc : a.checkCandidate state with
      | error e => simp [hc, needsUpdate]
      | ok update =>
        cases update with
        | false => simp [hc, needsUpdate]
        | true => simp [hc, needsUpdate]

theorem not_refuses_of_backendFails {first : Bool} {state : StateMetadata S.Digest} {s : Store S}
    (h : s.BackendFails first state) : ¬ s.Refuses state := by
  rintro ⟨a, e, ha, hc⟩
  rcases h with ⟨e', he⟩ | ⟨anchor, e', hanchor, hneeds, -⟩
  · rw [ha] at he
    simp at he
  · rw [ha, Except.ok.injEq] at hanchor
    subst hanchor
    rw [needsUpdate, hc] at hneeds
    simp at hneeds

/-! ### What the verdict does -/

/-- The stores differ only in what the machine is going to do. -/
def Store.Idle (s s' : Store S) : Prop := ∃ k j, s' = (s.later k).drawn j

instance : IsPreorder (Store S) Store.Idle where
  refl _ := ⟨0, 0, rfl⟩
  trans := by
    rintro s _ _ ⟨k, j, rfl⟩ ⟨k', j', rfl⟩
    refine ⟨k + k', j + j', ?_⟩
    unfold Store.drawn Store.later
    simp only [Store.mk.injEq, true_and]
    refine ⟨funext fun i => ?_, funext fun i => ?_⟩
    · show s.works (i + k' + k) = s.works (i + (k + k'))
      congr 1
      omega
    · show s.rng (i + j' + j) = s.rng (i + (j + j'))
      congr 1
      omega

theorem idle_later (s : Store S) (k : Nat) : s.Idle (s.later k) := ⟨k, 0, rfl⟩

theorem Store.Idle.holds {s s' : Store S} (h : s.Idle s') (spot : Spot) : s'.holds spot = s.holds spot := by
  obtain ⟨k, j, rfl⟩ := h
  cases spot <;> rfl

/-- Something in quarantine is gone from its path; a failing quarantine changes nothing. -/
theorem quarantine_cases (spot : Spot) (s : Store S) :
    ((exec (quarantine spot) s).1 = .ok () ∧ (exec (quarantine spot) s).2.holds spot = false) ∨
      ((∃ e, (exec (quarantine spot) s).1 = .error e) ∧ s.Idle (exec (quarantine spot) s).2) := by
  have h := quarantine_spec spot s
  unfold wp at h
  cases hr : (exec (quarantine spot) s).1 with
  | ok u =>
    rw [hr] at h
    obtain ⟨k, target, node, -, hs⟩ := h
    refine Or.inl ⟨rfl, ?_⟩
    rw [hs]
    cases spot with
    | root name => simp [Store.holds, Store.node, Store.setAside]
    | vault name => simp [Store.holds, Store.node, Store.setAside]
  | error e =>
    rw [hr] at h
    exact Or.inr ⟨⟨e, rfl⟩, h⟩

/-- The verdict on a state that was read from an object that is there. -/
theorem exec_judge (first : Bool) (state : StateMetadata S.Digest) (spot : Spot) (s : Store S)
    (hs : s.holds spot = true) : exec (judge first state (some spot)) s =
      match exec (moveAnchor first state) s with
      | (.ok (), s') => (.ok (), s')
      | (.error e, s') => (.error e, (exec (quarantine spot) s').2) := by
  have hspec := moveAnchor_spec first state s
  unfold wp at hspec
  unfold judge
  rw [exec_bind, exec_attempt]
  rcases hm : exec (moveAnchor first state) s with ⟨r, s'⟩
  cases r with
  | ok u => rfl
  | error e =>
    rw [hm] at hspec
    obtain ⟨k, rfl⟩ := hspec
    show exec (refuse (some spot) e) (s.later k) = _
    unfold refuse
    rw [exec_bind, exec_get]
    simp only
    rw [if_pos (((idle_later s k).holds spot).trans hs), exec_bind, exec_attempt]
    rfl

/-! ### What is bound to another object -/

/-- The container of the record opens, but the record in it is bound to another identity or another object. -/
def RecordKind.Misbound {T : Type} (o : RecordKind S T) (identity : Identity) (s : Store S) : Prop :=
  ∃ raw blob record, s.root.get o.path = some raw ∧ readContainer S identity raw o.entryName = .ok blob ∧
    o.record.decode blob.1 = some record ∧ (record.state.identityFingerprint ≠ identity.fingerprint ∨
      record.state.objectType ≠ o.objectType ∨ record.state.objectId ≠ o.objectId)

/-- The record can be read and is bound as it should be, but it is of another version, its state is of another suite than
its container, or its state does not commit to its payload. -/
def RecordKind.Unfit {T : Type} (o : RecordKind S T) (identity : Identity) (s : Store S) : Prop :=
  ∃ blob record, (exec (loadBlob identity o.path o.entryName) s).1 = .ok (some blob) ∧
    o.record.decode blob.1 = some record ∧ record.state.identityFingerprint = identity.fingerprint ∧
    record.state.objectType = o.objectType ∧ record.state.objectId = o.objectId ∧
    (record.version ≠ protectedStateVersion ∨ record.state.suiteId ≠ blob.2.toU16 ∨
      ∃ e, record.state.verifyPayload S.hashState (o.payload.encode record.payload) = .error e)

/-- The object authenticates, but is bound to something else. -/
def Load.Misbound {α : Type} (s : Store S) : Load S α → Prop
  | .keystore => False
  | .contacts identity => (contactsRecord S).Misbound identity s
  | .registry identity => (registryRecord S).Misbound identity s
  | .vault identity id _ => ∃ reader state, openVault S.toPrims (s.host (vaultDirV2 id)).top.shown identity = .ok reader ∧
      reader.state = some state ∧ state.objectId ≠ id

/-- The object is bound as it should be, but unfit otherwise; only records can be. -/
def Load.Unfit {α : Type} (s : Store S) : Load S α → Prop
  | .keystore => False
  | .contacts identity => (contactsRecord S).Unfit identity s
  | .registry identity => (registryRecord S).Unfit identity s
  | .vault _ _ _ => False

/-- The object has been tampered with: the anchor refuses its state, or it is bound to something else. -/
def Load.Tampered {α : Type} (l : Load S α) (s : Store S) : Prop :=
  (∃ state, (exec l.read s).1 = .ok (some state) ∧ (exec l.read s).2.Refuses state) ∨ l.Misbound s

/-- The load moves the object only if it has been tampered with, and a failure of the backend of the anchors leaves every
file where it is: the next load does what it would have done. -/
structure Load.Spares {α : Type} (l : Load S α) (s : Store S) : Prop where
  moved : s.holds l.spot = true → (exec l.run s).2.holds l.spot = false → l.Tampered s
  kept : ∀ state, (exec l.read s).1 = .ok (some state) → (exec l.read s).2.BackendFails l.first state →
    (exec l.run s).2.root = s.root ∧ (exec l.run s).2.vaults = s.vaults ∧
      (exec l.run s).2.quarantined = s.quarantined ∧
      ∃ j, ∀ works, exec l.run ((exec l.run s).2.withWorks works) = exec l.run ((s.drawn j).withWorks works)

/-- The backend of the anchors fails when the load asks it, or the object is unfit though bound as it should be, and the
quarantine takes the object. -/
def Load.Defect {α : Type} (l : Load S α) (s : Store S) : Prop :=
  (∃ state, (exec l.read s).1 = .ok (some state) ∧ (exec l.read s).2.BackendFails l.first state ∧
    (exec (quarantine l.spot) (exec (moveAnchor l.first state) (exec l.read s).2).2).1 = .ok ()) ∨
  (l.Unfit s ∧ (exec (quarantine l.spot) (exec l.read s).2).1 = .ok ())

/-! ### The parts of a load -/

/-- How a load ends. -/
inductive Load.Outcome {α : Type} (l : Load S α) (s : Store S) : Prop
  /-- The object has been read, and its state judged. -/
  | judged (state : StateMetadata S.Digest) (s₁ : Store S) (hread : exec l.read s = (.ok (some state), s₁))
      (hfit : ¬ l.Unfit s) (hidle : s.Idle s₁) (hholds : s.holds l.spot = true)
      (hbad : ∀ e s₂, exec (judge l.first state (some l.spot)) s₁ = (.error e, s₂) → (exec l.run s).2 = s₂)
      (hgood : ∀ s₂, exec (judge l.first state (some l.spot)) s₁ = (.ok (), s₂) →
        (exec l.run s).2.holds l.spot = s₂.holds l.spot)
  /-- It has not been read. -/
  | unread (hread : ∀ state, (exec l.read s).1 ≠ .ok (some state)) (hfit : ¬ l.Unfit s)
      (hidle : s.Idle (exec l.run s).2)
  /-- It is bound to something else. -/
  | misbound (hread : ∀ state, (exec l.read s).1 ≠ .ok (some state)) (h : l.Misbound s)
  /-- It is unfit, and the load puts it into quarantine. -/
  | unfit (hread : ∀ state, (exec l.read s).1 ≠ .ok (some state)) (h : l.Unfit s) (hholds : s.holds l.spot = true)
      (hidle : s.Idle (exec l.read s).2) (hrun : (exec l.run s).2 = (exec (quarantine l.spot) (exec l.read s).2).2)

theorem holds_of_passed {first : Bool} {state : StateMetadata S.Digest} {s s' : Store S} {spot : Spot}
    (h : s.Passed first state s') (hspot : spot ≠ .root anchorsFile) : s'.holds spot = s.holds spot := by
  have hw : s.Within (fun _ => False) (fun _ => False) (fun _ _ => True) s' := h.within trivial
  cases spot with
  | root name =>
    have hne : name ≠ anchorsFile := by simpa using hspot
    simp only [Store.holds, Store.node, hw.root.get name (by simpa using hne)]
  | vault name => simp only [Store.holds, Store.node, hw.vaults.get name (by simp)]

/-- Among the core's errors only a mismatch puts a record into quarantine. -/
theorem not_prefix_display {e : Error} (h : ∀ label, e ≠ .stateMismatch label) :
    mismatchPrefix.isPrefixOf e.display = false := by
  cases e with
  | stateMismatch label => exact absurd rfl (h label)
  | _ => rfl

private theorem readContainer_error {identity : Identity} {raw : S.Raw} {name e : Str}
    (hc : readContainer S identity raw name = .error e) : mismatchPrefix.isPrefixOf e = false := by
  unfold readContainer at hc
  cases ho : S.openContainer raw identity with
  | error err =>
    rw [ho] at hc
    obtain rfl := Except.error.inj hc
    exact not_prefix_display fun label => S.openContainer_error raw identity err label ho
  | ok c =>
    rw [ho] at hc
    simp only at hc
    split at hc
    · obtain rfl := Except.error.inj hc
      rfl
    · split at hc
      · obtain rfl := Except.error.inj hc
        rfl
      · cases hentry : c.readEntry name with
        | ok bytes => rw [hentry] at hc; cases hc
        | error err =>
          rw [hentry] at hc
          obtain rfl := Except.error.inj hc
          exact not_prefix_display fun label => S.readEntry_error raw identity c _ err label ho hentry

/-- What is read is what is under the path; the texts of its errors say nothing of mismatches. -/
private theorem loadBlob_spec (identity : Identity) (path name : Str) (s : Store S) :
    wp (loadBlob identity path name) (fun r s' => s.Idle s' ∧ match r with
      | .ok none => True
      | .ok (some blob) => ∃ raw, s.root.get path = some raw ∧ readContainer S identity raw name = .ok blob
      | .error e => mismatchPrefix.isPrefixOf e = false) s := by
  unfold loadBlob
  simp only [wp_bind, wp_get]
  cases hg : s.root.get path with
  | none => exact ⟨idle_later s 0, trivial⟩
  | some raw =>
    simp only [wp_bind, wp_call, wp_ite, wp_throw, wp_liftM]
    refine ⟨fun _ => ⟨fun _ => ⟨idle_later s 1, rfl⟩, fun _ => ⟨fun _ => ?_, fun _ => ⟨idle_later s 2, rfl⟩⟩⟩,
      fun _ => ⟨idle_later s 1, rfl⟩⟩
    cases hc : readContainer S identity raw name with
    | error e => exact ⟨idle_later s 2, readContainer_error hc⟩
    | ok blob => exact ⟨idle_later s 2, raw, rfl, hc⟩

/-- A record is not both bound to another object and unfit itself. -/
private theorem RecordKind.Unfit.not_misbound {T : Type} {o : RecordKind S T} {identity : Identity} {s : Store S}
    (h : o.Unfit identity s) : ¬ o.Misbound identity s := by
  obtain ⟨blob, record, hload, hdec, hfp, hty, hid, -⟩ := h
  rintro ⟨raw, blob', record', hget, hread, hdec', hbad⟩
  have hspec := loadBlob_spec identity o.path o.entryName s
  unfold wp at hspec
  rw [hload] at hspec
  obtain ⟨-, raw', hget', hread'⟩ := hspec
  obtain rfl : raw' = raw := Option.some.inj (hget'.symm.trans hget)
  obtain rfl : blob = blob' := Except.ok.inj (hread'.symm.trans hread)
  obtain rfl : record = record' := Option.some.inj (hdec.symm.trans hdec')
  exact hbad.elim (absurd hfp) fun h => h.elim (absurd hty) (absurd hid)

private theorem Load.Unfit.not_misbound {α : Type} {l : Load S α} {s : Store S} (h : l.Unfit s) : ¬ l.Misbound s := by
  cases l with
  | keystore => exact h.elim
  | contacts identity => exact RecordKind.Unfit.not_misbound h
  | registry identity => exact RecordKind.Unfit.not_misbound h
  | vault identity id io => exact h.elim

/-- A load spares its object exactly if it does not meet the defect, given how it ends. -/
theorem Load.Outcome.spares_iff {α : Type} {l : Load S α} {s : Store S} (h : l.Outcome s)
    (hspot : l.spot ≠ .root anchorsFile) : l.Spares s ↔ ¬ l.Defect s := by
  cases h with
  | unread hread hfit hidle =>
    refine ⟨?_, fun _ => ⟨fun hh hn => ?_, fun state hs => (hread state hs).elim⟩⟩
    · rintro - (⟨state, hs, -⟩ | ⟨hunfit, -⟩)
      · exact hread state hs
      · exact hfit hunfit
    · rw [hidle.holds, hh] at hn
      simp at hn
  | misbound hread hm =>
    refine ⟨?_, fun _ => ⟨fun _ _ => Or.inr hm, fun state hs => (hread state hs).elim⟩⟩
    rintro - (⟨state, hs, -⟩ | ⟨hunfit, -⟩)
    · exact hread state hs
    · exact hunfit.not_misbound hm
  | unfit hread hunfit hholds hidle hrun =>
    rcases quarantine_cases l.spot (exec l.read s).2 with ⟨hq, hgone⟩ | ⟨⟨e, hq⟩, hstay⟩
    · -- the object is in quarantine now, although nobody has touched it
      refine ⟨fun hsp => ?_, fun hno => absurd (Or.inr ⟨hunfit, hq⟩) hno⟩
      rcases hsp.moved hholds (by rw [hrun]; exact hgone) with ⟨state, hs, -⟩ | hm
      · exact (hread state hs).elim
      · exact (hunfit.not_misbound hm).elim
    · -- the quarantine fails, and everything stays
      refine ⟨?_, fun _ => ⟨fun _ hn => ?_, fun state hs => (hread state hs).elim⟩⟩
      · rintro - (⟨state, hs, -⟩ | ⟨-, hok⟩)
        · exact hread state hs
        · rw [hq] at hok
          simp at hok
      · rw [hrun, (IsTrans.trans _ _ _ hidle hstay : s.Idle _).holds, hholds] at hn
        simp at hn
  | judged state s₁ hread hfit hidle hholds hbad hgood =>
    have hr1 : (exec l.read s).1 = .ok (some state) := by rw [hread]
    have hr2 : (exec l.read s).2 = s₁ := by rw [hread]
    have hstate : ∀ st, (exec l.read s).1 = .ok (some st) → st = state := by
      intro st hst
      rw [hr1] at hst
      exact (Option.some.inj (Except.ok.inj hst)).symm
    have hs₁ : s₁.holds l.spot = true := (hidle.holds _).trans hholds
    have hjudge := exec_judge l.first state l.spot s₁ hs₁
    have hmove := moveAnchor_spec l.first state s₁
    have herror := moveAnchor_error_iff l.first state s₁
    unfold wp at hmove
    rcases hm : exec (moveAnchor l.first state) s₁ with ⟨r, s'⟩
    rw [hm] at hjudge hmove herror
    cases r with
    | ok u =>
      -- the state passes, and nothing moves
      have hnot : ¬ s₁.BackendFails l.first state := fun hb => by simpa using herror.2 (Or.inr hb)
      refine ⟨?_, fun _ => ⟨fun _ hn => ?_, ?_⟩⟩
      · rintro - (⟨st, hst, hb, -⟩ | ⟨hunfit, -⟩)
        · obtain rfl := hstate st hst
          exact hnot (hr2 ▸ hb)
        · exact hfit hunfit
      · rw [hgood s' hjudge, holds_of_passed hmove hspot, hs₁] at hn
        simp at hn
      · intro st hst hb
        obtain rfl := hstate st hst
        exact (hnot (hr2 ▸ hb)).elim
    | error e =>
      obtain ⟨k, rfl⟩ := hmove
      have hafter := hbad e _ hjudge
      have hidle' : s.Idle (s₁.later k) := IsTrans.trans _ _ _ hidle (idle_later s₁ k)
      have hkeep : s₁.BackendFails l.first state → (exec l.read s).2.BackendFails l.first state := fun hb => hr2 ▸ hb
      rcases quarantine_cases l.spot (s₁.later k) with ⟨hq, hgone⟩ | ⟨⟨e', hq⟩, hstay⟩
      · -- the object is in quarantine now
        have hmoved : (exec l.run s).2.holds l.spot = false := by rw [hafter]; exact hgone
        have hdefect : s₁.BackendFails l.first state → l.Defect s := by
          intro hb
          refine Or.inl ⟨state, hr1, hkeep hb, ?_⟩
          rw [hr2, hm]
          exact hq
        constructor
        · rintro hsp (⟨st, hst, hb, -⟩ | ⟨hunfit, -⟩)
          · obtain rfl := hstate st hst
            obtain ⟨hroot, hvaults, -⟩ := hsp.kept st hst hb
            have hnode : (exec l.run s).2.node l.spot = s.node l.spot := by
              cases hsp' : l.spot <;> simp only [Store.node, hroot, hvaults]
            simp only [Store.holds, hnode] at hmoved
            simp only [Store.holds, hmoved] at hholds
            simp at hholds
          · exact hfit hunfit
        · intro hno
          have hrefuses : s₁.Refuses state := (herror.1 ⟨e, rfl⟩).resolve_right fun hb => hno (hdefect hb)
          refine ⟨fun _ _ => Or.inl ⟨state, hr1, hr2 ▸ hrefuses⟩, fun st hst hb => ?_⟩
          obtain rfl := hstate st hst
          exact (hno (hdefect (hr2 ▸ hb))).elim
      · -- the quarantine fails, and everything stays
        obtain ⟨k', j, hs'⟩ := IsTrans.trans _ _ _ hidle' hstay
        rw [hs'] at hafter
        refine ⟨?_, fun _ => ⟨fun _ hn => ?_, fun st hst hb => ?_⟩⟩
        · rintro - (⟨st, hst, -, hok⟩ | ⟨hunfit, -⟩)
          · obtain rfl := hstate st hst
            rw [hr2, hm] at hok
            rw [hq] at hok
            simp at hok
          · exact hfit hunfit
        · have hi : s.Idle (exec l.run s).2 := ⟨k', j, hafter⟩
          rw [hi.holds, hholds] at hn
          simp at hn
        · rw [hafter]
          exact ⟨rfl, rfl, rfl, j, fun works => rfl⟩

/-- How a load ends that goes on with `k` after it has read `x` by `p`. -/
theorem Load.outcome_of {α β : Type} {l : Load S α} {s : Store S} {p : StoreM S β}
    {state : β → Option (StateMetadata S.Digest)} {k : β → StoreM S α} (Q : β → Prop)
    (hread : l.read = p >>= fun x => pure (state x)) (hrun : l.run = p >>= k)
    (hp : wp p (fun r s' => s.Idle s' ∧ (∀ e, r = .error e → ¬ l.Unfit s) ∧ ∀ x, r = .ok x → Q x) s)
    (hsome : ∀ x st, Q x → state x = some st → ¬ l.Unfit s ∧ s.holds l.spot = true ∧ ∃ rest : StoreM S α,
      (k x = do
        judge l.first st (some l.spot)
        rest) ∧ ∀ s, wp rest (fun _ s' => s'.holds l.spot = s.holds l.spot) s)
    (hnone : ∀ x, Q x → state x = none → ∀ s', s.Idle s' → l.Misbound s ∨
      (l.Unfit s ∧ s.holds l.spot = true ∧ (exec (k x) s').2 = (exec (quarantine l.spot) s').2) ∨
      (¬ l.Unfit s ∧ wp (k x) (fun _ s'' => s.Idle s'') s')) :
    l.Outcome s := by
  have hr := congrArg (fun q => exec q s) hread
  have hx := congrArg (fun q => exec q s) hrun
  simp only [exec_bind] at hr hx
  unfold wp at hp
  rcases he : exec p s with ⟨r, s₁⟩
  rw [he] at hr hx hp
  obtain ⟨hidle, herror, hQ⟩ := hp
  cases r with
  | error e =>
    refine .unread ?_ (herror e rfl) ?_
    · rw [hr]
      simp
    · rw [hx]
      exact hidle
  | ok x =>
    simp only [exec_pure] at hr hx
    cases hs : state x with
    | none =>
      have hunread : ∀ st, (exec l.read s).1 ≠ .ok (some st) := by
        rw [hr, hs]
        simp
      rcases hnone x (hQ x rfl) hs s₁ hidle with hm | ⟨hunfit, hholds, hk⟩ | ⟨hfit, hk⟩
      · exact .misbound hunread hm
      · refine .unfit hunread hunfit hholds ?_ ?_
        · rw [hr]
          exact hidle
        · rw [hx, hr]
          exact hk
      · refine .unread hunread hfit ?_
        rw [hx]
        exact hk
    | some st =>
      obtain ⟨hfit, hholds, rest, hk, hrest⟩ := hsome x st (hQ x rfl) hs
      rw [hs] at hr
      rw [hk, exec_bind] at hx
      refine .judged st s₁ hr hfit hidle hholds (fun e s₂ hj => ?_) fun s₂ hj => ?_
      · rw [hx, hj]
      · rw [hx, hj]
        exact hrest s₂

/-! ### The loads -/

theorem readBoundedFile_spec (name : Str) (max : Nat) (label : Str) (s : Store S) :
    wp (readBoundedFile name max label) (fun r s' => s' = s.later 1 ∧ ∀ raw, r = .ok raw → s.root.get name = some raw)
      s := by
  unfold readBoundedFile
  simp only [wp_bind, wp_call, wp_get, wp_liftM]
  exact ⟨fun _ => ⟨rfl, fun raw h => (readBounded_eq_ok.1 (Result.labelled_eq_ok.1 h)).1⟩,
    fun _ => ⟨rfl, by rintro _ ⟨⟩⟩⟩

theorem keystore_outcome (s : Store S) : Load.Outcome (.keystore : Load S S.KeystoreFile) s := by
  refine Load.outcome_of (p := readKeystore) (k := fun x => do
    checkLoadedState x.2 (.root keystoreFile)
    pure x.1) (fun _ => (s.root.get keystoreFile).isSome = true) rfl ?_ ?_ ?_ ?_
  · show loadKeystore = _
    unfold loadKeystore readKeystore
    simp only [bind_assoc, pure_bind]
  · unfold readKeystore
    rw [wp_bind]
    refine wp_mono (readBoundedFile_spec _ _ _ s) ?_
    rintro r _ ⟨rfl, hget⟩
    cases r with
    | error e => exact ⟨idle_later s 1, fun _ _ => id, by simp⟩
    | ok bytes =>
      have hsome : (s.root.get keystoreFile).isSome = true := by rw [hget bytes rfl]; rfl
      simp only [wp_bind, wp_liftM]
      cases Result.text (S.keystoreFromBytes bytes) with
      | error e => exact ⟨idle_later s 1, fun _ _ => id, fun _ _ => hsome⟩
      | ok ks =>
        simp only
        cases keystoreStateOr noKeystoreState ks with
        | error e => exact ⟨idle_later s 1, fun _ _ => id, fun _ _ => hsome⟩
        | ok state => exact ⟨idle_later s 1, fun _ _ => id, fun _ _ => hsome⟩
  · rintro ⟨ks, state⟩ st hQ ⟨⟩
    refine ⟨id, ?_, pure ks, rfl, fun s => rfl⟩
    exact Option.isSome_map.trans hQ
  · rintro ⟨ks, state⟩ - hs
    simp at hs

/-- A record that reads as another object's or as unfit has an error of the prefix, and no other record has. -/
private theorem authenticate_error {T : Type} (o : RecordKind S T) (identity : Identity) (blob : S.Raw × SuiteId) :
    (∃ e, o.authenticate identity blob = .error e ∧ mismatchPrefix.isPrefixOf e = true) ↔
      ∃ record, o.record.decode blob.1 = some record ∧
        (record.version ≠ protectedStateVersion ∨ record.state.identityFingerprint ≠ identity.fingerprint ∨
          record.state.objectType ≠ o.objectType ∨ record.state.objectId ≠ o.objectId ∨
          record.state.suiteId ≠ blob.2.toU16 ∨
          ∃ e, record.state.verifyPayload S.hashState (o.payload.encode record.payload) = .error e) := by
  unfold RecordKind.authenticate
  cases hdec : o.record.decode blob.1 with
  | none =>
    refine ⟨?_, by rintro ⟨record, ⟨⟩, -⟩⟩
    rintro ⟨e, he, hp⟩
    simp only at he
    split at he
    · obtain rfl := Except.error.inj he
      cases hp
    · obtain rfl := Except.error.inj he
      cases hp
  | some record =>
    simp only [Option.some.injEq, exists_eq_left']
    split
    · rename_i hbad
      exact ⟨fun _ => by tauto, fun _ => ⟨_, rfl, rfl⟩⟩
    · rename_i hgood
      cases hv : record.state.verifyPayload S.hashState (o.payload.encode record.payload) with
      | ok u =>
        refine ⟨by rintro ⟨e, ⟨⟩, -⟩, fun h => ?_⟩
        have hno : ¬ ∃ e : Error, (Except.ok u : Result Unit) = .error e := by rintro ⟨e, ⟨⟩⟩
        exact absurd h (by tauto)
      | error err =>
        refine ⟨fun _ => by simp, fun _ => ⟨err.display, rfl, ?_⟩⟩
        unfold StateMetadata.verifyPayload at hv
        split at hv
        · obtain rfl := Except.error.inj hv
          rfl
        · cases hv

/-- What reading a record returns, and when its error is one that puts it into quarantine. -/
theorem readProtectedRecord_spec {T : Type} (o : RecordKind S T) (identity : Identity) (s : Store S) :
    wp (readProtectedRecord o identity) (fun r s' => s.Idle s' ∧ match r with
      | .ok none => ¬ o.Unfit identity s
      | .ok (some _) => ¬ o.Unfit identity s ∧ (s.root.get o.path).isSome = true
      | .error e => if mismatchPrefix.isPrefixOf e = true then
          o.Misbound identity s ∨ (o.Unfit identity s ∧ (s.root.get o.path).isSome = true)
        else ¬ o.Unfit identity s) s := by
  unfold readProtectedRecord
  rw [wp_bind]
  have hload := loadBlob_spec identity o.path o.entryName s
  -- an unfit record is the one that is read
  have hunfit : ∀ blob, o.Unfit identity s → (exec (loadBlob identity o.path o.entryName) s).1 = .ok (some blob) →
      ∃ e, o.authenticate identity blob = .error e ∧ mismatchPrefix.isPrefixOf e = true := by
    rintro blob ⟨blob', record, hread, hdec, -, -, -, hbad⟩ hblob
    obtain rfl : blob' = blob := Option.some.inj (Except.ok.inj (hread.symm.trans hblob))
    exact (authenticate_error o identity blob').2 ⟨record, hdec, by tauto⟩
  have hnot : (∀ blob, (exec (loadBlob identity o.path o.entryName) s).1 ≠ .ok (some blob)) → ¬ o.Unfit identity s := by
    rintro h ⟨blob, record, hread, -⟩
    exact h blob hread
  unfold wp at hload ⊢
  rcases he : exec (loadBlob identity o.path o.entryName) s with ⟨r, s₁⟩
  rw [he] at hload hunfit hnot
  obtain ⟨hidle, hload⟩ := hload
  cases r with
  | error e =>
    have hp : ¬ mismatchPrefix.isPrefixOf e = true := Bool.eq_false_iff.1 hload
    refine ⟨hidle, ?_⟩
    dsimp only
    rw [if_neg hp]
    exact hnot fun blob => by simp
  | ok found =>
    cases found with
    | none => exact ⟨hidle, hnot fun blob => by simp⟩
    | some blob =>
      obtain ⟨raw, hget, hread⟩ := hload
      have hthere : (s.root.get o.path).isSome = true := by rw [hget]; rfl
      simp only [exec_bind, exec_liftM]
      cases ha : o.authenticate identity blob with
      | ok record =>
        refine ⟨hidle, fun h => ?_, hthere⟩
        obtain ⟨e, herror, -⟩ := hunfit blob h rfl
        rw [ha] at herror
        cases herror
      | error e =>
        refine ⟨hidle, ?_⟩
        dsimp only
        by_cases hp : mismatchPrefix.isPrefixOf e = true
        · obtain ⟨record, hdec, hbad⟩ := (authenticate_error o identity blob).1 ⟨e, ha, hp⟩
          rw [if_pos hp]
          by_cases hmis : o.Misbound identity s
          · exact Or.inl hmis
          · refine Or.inr ⟨⟨blob, record, by rw [he], hdec, ?_⟩, hthere⟩
            have hbound : ¬ (record.state.identityFingerprint ≠ identity.fingerprint ∨
                record.state.objectType ≠ o.objectType ∨ record.state.objectId ≠ o.objectId) :=
              fun h => hmis ⟨raw, blob, record, hget, hread, hdec, h⟩
            tauto
        · rw [if_neg hp]
          intro h
          obtain ⟨e', herror, hp'⟩ := hunfit blob h rfl
          rw [ha] at herror
          obtain rfl := Except.error.inj herror
          exact hp hp'

private theorem record_outcome {T α : Type} (o : RecordKind S T) (identity : Identity) (l : Load S α)
    (f : Option (ProtectedState S.Digest T) → α) (hspot : l.spot = .root o.path) (hfirst : l.first = true)
    (hread : l.read = attempt (readProtectedRecord o identity) >>= fun x => pure (recordState x))
    (hrun : l.run = loadProtectedRecord o identity >>= fun record => pure (f record)) (s : Store S)
    (hmis : o.Misbound identity s → l.Misbound s) (hunfit : o.Unfit identity s ↔ l.Unfit s) : l.Outcome s := by
  have hthere : (s.root.get o.path).isSome = true → s.holds l.spot = true := by
    intro h
    rw [hspot]
    exact Option.isSome_map.trans h
  refine Load.outcome_of (p := attempt (readProtectedRecord o identity)) (fun x => match x with
      | .ok none => ¬ o.Unfit identity s
      | .ok (some _) => ¬ o.Unfit identity s ∧ (s.root.get o.path).isSome = true
      | .error e => if mismatchPrefix.isPrefixOf e = true then
          o.Misbound identity s ∨ (o.Unfit identity s ∧ (s.root.get o.path).isSome = true)
        else ¬ o.Unfit identity s) hread
    (hrun.trans (bind_assoc _ _ _)) ?_ ?_ ?_
  · rw [wp_attempt]
    refine wp_mono (readProtectedRecord_spec o identity s) ?_
    rintro r s' ⟨hidle, hr⟩
    refine ⟨hidle, by rintro e ⟨⟩, ?_⟩
    rintro _ ⟨⟩
    exact hr
  · intro x st hQ hst
    cases x with
    | error e => cases hst
    | ok record =>
      cases record with
      | none => cases hst
      | some record =>
        obtain rfl := Option.some.inj hst
        refine ⟨fun h => hQ.1 (hunfit.2 h), hthere hQ.2, pure (f (some record)), ?_, fun s => rfl⟩
        rw [hspot, hfirst]
        simp only [bind_assoc, pure_bind]
        rfl
  · intro x hQ hst s' hidle
    cases x with
    | ok record =>
      cases record with
      | none => exact Or.inr (Or.inr ⟨fun h => hQ (hunfit.2 h), hidle⟩)
      | some record => cases hst
    | error e =>
      by_cases hp : mismatchPrefix.isPrefixOf e = true
      · simp only [if_pos hp] at hQ ⊢
        rcases hQ with hm | ⟨hu, hget⟩
        · exact Or.inl (hmis hm)
        · refine Or.inr (Or.inl ⟨hunfit.1 hu, hthere hget, ?_⟩)
          rw [hspot, exec_bind, exec_bind, exec_attempt]
          rfl
      · simp only [if_neg hp] at hQ ⊢
        refine Or.inr (Or.inr ⟨fun h => hQ (hunfit.2 h), ?_⟩)
        rw [wp_bind, wp_throw]
        exact hidle

theorem contacts_outcome (identity : Identity) (s : Store S) : (Load.contacts identity : Load S S.ContactBook).Outcome s := by
  refine record_outcome (contactsRecord S) identity _ (fun record => (record.map (·.payload)).getD S.emptyBook) rfl rfl
    rfl ?_ s id Iff.rfl
  show loadContacts identity = _
  unfold loadContacts loadProtectedBlob
  simp only [bind_assoc, pure_bind]

theorem registry_outcome (identity : Identity) (s : Store S) : (Load.registry identity : Load S Registry).Outcome s := by
  refine record_outcome (registryRecord S) identity _ (fun record => (record.map (·.payload)).getD ⟨[]⟩) rfl rfl
    rfl ?_ s id Iff.rfl
  show loadRegistry identity = _
  unfold loadRegistry loadProtectedBlob
  simp only [bind_assoc, pure_bind]

/-- Work in a directory leaves what is under each name a directory or a file. -/
theorem holds_inVault {α : Type} (name : Str) (reader : VaultReaderV2 S.toPrims) (p : SessionM S.toPrims α) (s : Store S)
    (spot : Spot) : wp (inVault name reader p) (fun _ s' => s'.holds spot = s.holds spot) s := by
  rw [wp_inVault]
  refine wp_mono (Q := fun _ _ => True) trivial fun r t _ => ?_
  unfold Store.setHost
  split
  · cases spot with
    | root n => rfl
    | vault n => exact isSome_get_adjust
  · rfl

theorem readVaultState_spec (identity : Identity) (id : Str) (s : Store S) :
    wp (readVaultState identity id) (fun r s' => s.Idle s' ∧ ∀ p, r = .ok p →
      s.holds (.vault (vaultDirV2 id)) = true ∧ openVault S.toPrims (s.host (vaultDirV2 id)).top.shown identity = .ok p.1 ∧
        p.1.state = some p.2) s := by
  unfold readVaultState readVault
  simp only [wp_bind, wp_get, wp_ite, wp_call, wp_liftM, wp_throw]
  refine ⟨fun hthere => ?_, fun _ => ⟨fun _ => ⟨idle_later s 0, by rintro _ ⟨⟩⟩, fun _ => ⟨idle_later s 0, by rintro _ ⟨⟩⟩⟩⟩
  refine ⟨fun _ => ⟨fun _ => ?_, fun _ => ⟨idle_later s 2, by rintro _ ⟨⟩⟩⟩, fun _ => ⟨idle_later s 1, by rintro _ ⟨⟩⟩⟩
  have hhost : s.tick.tick.host (vaultDirV2 id) = s.host (vaultDirV2 id) := rfl
  rw [hhost]
  cases ho : openVault S.toPrims (s.host (vaultDirV2 id)).top.shown identity with
  | error e => exact ⟨idle_later s 2, by rintro _ ⟨⟩⟩
  | ok reader =>
    simp only [Result.text_ok]
    cases hs : reader.state with
    | none =>
      have hst : reader.stateOr = .error noVaultState := by rw [VaultReaderV2.stateOr, hs]
      rw [hst]
      exact ⟨idle_later s 2, by rintro _ ⟨⟩⟩
    | some state =>
      have hst : reader.stateOr = .ok state := by rw [VaultReaderV2.stateOr, hs]
      rw [hst]
      refine ⟨idle_later s 2, ?_⟩
      rintro p ⟨⟩
      exact ⟨hthere, rfl, hs⟩

theorem vault_outcome (identity : Identity) (id : Str) (io : GcIo) (s : Store S) :
    (Load.vault identity id io : Load S (VaultReaderV2 S.toPrims)).Outcome s := by
  refine Load.outcome_of (p := readVaultState identity id) (k := fun p =>
    if p.2.objectId ≠ id then do
      let _ ← attempt (quarantine (.vault (vaultDirV2 id)))
      throw "vault object id does not match its registry/path id".toList
    else do
      acceptState p.2 (some (.vault (vaultDirV2 id)))
      let _ ← attempt (wipeFile (vaultPath id))
      let x ← inVault (vaultDirV2 id) p.1 (collectGarbage io)
      pure x.2)
    (fun p => s.holds (.vault (vaultDirV2 id)) = true ∧
      openVault S.toPrims (s.host (vaultDirV2 id)).top.shown identity = .ok p.1 ∧ p.1.state = some p.2) rfl ?_
    (wp_mono (readVaultState_spec identity id s) ?_) ?_ ?_
  · show openVaultLocked identity id io = _
    unfold openVaultLocked openVaultDir readVaultState
    rw [bind_assoc]
    congr 1
    funext s'
    split
    · simp only [bind_assoc, pure_bind]
    · split <;> rfl
  · rintro r s' ⟨hidle, hread⟩
    exact ⟨hidle, fun _ _ h => h, hread⟩
  · rintro ⟨reader, state⟩ st ⟨hthere, -, -⟩ hst
    unfold vaultState at hst
    split at hst
    · cases hst
    · rename_i hid
      obtain rfl := Option.some.inj hst
      refine ⟨fun h => h, hthere, _, if_neg hid, fun s' => ?_⟩
      rw [wp_bind, wp_attempt]
      -- wiping the old file leaves the directory alone
      have hwipe : Respects (Store.Within (fun _ => False) (· = vaultPath id) fun _ _ => False)
          (wipeFile (vaultPath id) : StoreM S Unit) := wipeFile_within rfl
      refine wp_mono (hwipe s') ?_
      intro r s₂ hw
      have hsame : s₂.holds (.vault (vaultDirV2 id)) = s'.holds (.vault (vaultDirV2 id)) := by
        simp only [Store.holds, Store.node, hw.vaults.get _ (vaultPath_ne_vaultDirV2 id).symm]
      rw [wp_bind]
      refine wp_mono (holds_inVault _ _ _ s₂ (.vault (vaultDirV2 id))) ?_
      intro r s₃ h₃
      cases r with
      | ok a => exact h₃.trans hsame
      | error e => exact h₃.trans hsame
  · rintro ⟨reader, state⟩ ⟨-, ho, hs⟩ hst s' -
    unfold vaultState at hst
    split at hst
    · rename_i hid
      exact Or.inl ⟨reader, state, ho, hs, hid⟩
    · cases hst

/-- A load spares its object unless the backend of the anchors fails or the object, though bound as it should be, is unfit
otherwise, and the quarantine takes the object. -/
theorem load_spares_iff {α : Type} (l : Load S α) (s : Store S) : l.Spares s ↔ ¬ l.Defect s := by
  cases l with
  | keystore => exact (keystore_outcome s).spares_iff fun h => keystoreFile_ne (Spot.root.inj h)
  | contacts identity => exact (contacts_outcome identity s).spares_iff fun h => contactsFile_ne (Spot.root.inj h)
  | registry identity => exact (registry_outcome identity s).spares_iff fun h => indexFile_ne (Spot.root.inj h)
  | vault identity id io => exact (vault_outcome identity id io s).spares_iff nofun

/-! ### A backend that fails once -/

/-- The owner's store with a contact book, while the backend cannot read the anchor of the book at the next load. -/
def Sym.unreadable : Store Sym.store := (Sym.withBook .secureStorage).withWorks fun i => i ≠ 2

theorem unreadable_read : ((exec (Load.contacts Sym.alice).read Sym.unreadable).1).toOption.join.isSome = true := by
  decide

/-- The contact book is moved although the backend alone has failed. -/
theorem contacts_not_spared : ¬ (Load.contacts Sym.alice : Load Sym.store _).Spares Sym.unreadable := by
  intro h
  have hfails : ∀ state : StateMetadata Sym.store.Digest, ∃ e, (exec (getAnchorLocked state.objectType state.objectId)
      (exec (Load.contacts Sym.alice).read Sym.unreadable).2).1 = .error e := fun state => ⟨readAnchorsText, rfl⟩
  have hroot := (h.kept _ (eq_ok_some unreadable_read) (Or.inl (hfails _))).1
  have hget : Sym.bookFile (exec (Load.contacts Sym.alice).run Sym.unreadable).2 = Sym.bookFile Sym.unreadable :=
    congrArg (fun root => root.get contactsFile) hroot
  exact absurd hget (by decide)

end FileSec
