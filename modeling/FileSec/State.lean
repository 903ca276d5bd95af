import FileSec.Text

/-!
# Rollback-resistant state metadata

The canonical binding and hash-chain rules of `state.rs`.  The hash is a parameter: `Digest` is the type of its values
and `hash` takes the fields that `expected_hash` feeds it, length-prefixed, in the order they are fed.
-/

namespace FileSec

/-- The largest `u64`. -/
def u64Max : Nat := 2 ^ 64 - 1

/-- `StateObjectType` -/
inductive StateObjectType where
  | keystore
  | contacts
  | registry
  | vaultManifest
  deriving DecidableEq, Repr

/-- `Display for StateObjectType` -/
def StateObjectType.display : StateObjectType → Str
  | .keystore => "keystore".toList
  | .contacts => "contacts".toList
  | .registry => "registry".toList
  | .vaultManifest => "vault manifest".toList

/-- `StateMetadata` -/
structure StateMetadata (Digest : Type) where
  identityFingerprint : Bytes
  objectType : StateObjectType
  objectId : Str
  suiteId : Nat
  epoch : Nat
  previousStateHash : Digest
  currentStateHash : Digest
  deriving DecidableEq

/-- `StateAnchor` -/
structure StateAnchor (Digest : Type) where
  identityFingerprint : Bytes
  objectType : StateObjectType
  objectId : Str
  suiteId : Nat
  epoch : Nat
  currentStateHash : Digest
  deriving DecidableEq

/-- What `expected_hash` hashes: the metadata except the hash itself, and the payload. -/
structure StatePreimage (Digest Payload : Type) where
  identityFingerprint : Bytes
  objectType : StateObjectType
  objectId : Str
  suiteId : Nat
  epoch : Nat
  previousStateHash : Digest
  payload : Payload
  deriving DecidableEq

variable {Digest Payload : Type}

/-- `StateMetadata::label` -/
def StateMetadata.label (s : StateMetadata Digest) : Str := s.objectType.display ++ [' '] ++ s.objectId

/-- The fields `expected_hash` feeds to the hash. -/
def StateMetadata.preimage (s : StateMetadata Digest) (payload : Payload) : StatePreimage Digest Payload where
  identityFingerprint := s.identityFingerprint
  objectType := s.objectType
  objectId := s.objectId
  suiteId := s.suiteId
  epoch := s.epoch
  previousStateHash := s.previousStateHash
  payload := payload

/-- `StateMetadata::expected_hash` -/
def StateMetadata.expectedHash (hash : StatePreimage Digest Payload → Digest) (s : StateMetadata Digest)
    (payload : Payload) : Digest := hash (s.preimage payload)

/-- The last step of `StateMetadata::next`: commit to the payload. -/
def StateMetadata.commitTo (hash : StatePreimage Digest Payload → Digest) (s : StateMetadata Digest)
    (payload : Payload) : StateMetadata Digest := { s with currentStateHash := s.expectedHash hash payload }

/-- `StateMetadata::next` -/
def StateMetadata.next (hash : StatePreimage Digest Payload → Digest) (genesis : Digest)
    (identityFingerprint : Bytes) (objectType : StateObjectType) (objectId : Str) (suiteId : Nat)
    (previous : Option (StateAnchor Digest)) (payload : Payload) : Result (StateMetadata Digest) :=
  match previous with
  | some anchor =>
    if anchor.identityFingerprint ≠ identityFingerprint ∨ anchor.objectType ≠ objectType ∨
        anchor.objectId ≠ objectId then
      .error (.stateMismatch (objectType.display ++ [' '] ++ objectId))
    else if anchor.epoch + 1 > u64Max then .error (.format "state epoch overflow".toList)
    else .ok (StateMetadata.commitTo hash
      ⟨identityFingerprint, objectType, objectId, suiteId, anchor.epoch + 1, anchor.currentStateHash, genesis⟩
      payload)
  | none => .ok (StateMetadata.commitTo hash
      ⟨identityFingerprint, objectType, objectId, suiteId, 1, genesis, genesis⟩ payload)

/-- `StateMetadata::verify_payload` -/
def StateMetadata.verifyPayload [DecidableEq Digest] (hash : StatePreimage Digest Payload → Digest)
    (s : StateMetadata Digest) (payload : Payload) : Result Unit :=
  if s.epoch = 0 ∨ s.currentStateHash ≠ s.expectedHash hash payload then .error (.stateMismatch s.label)
  else .ok ()

/-- `StateAnchor::from_metadata` -/
def StateAnchor.fromMetadata (s : StateMetadata Digest) : StateAnchor Digest where
  identityFingerprint := s.identityFingerprint
  objectType := s.objectType
  objectId := s.objectId
  suiteId := s.suiteId
  epoch := s.epoch
  currentStateHash := s.currentStateHash

/-- `StateAnchor::check_candidate`: `ok false` for the anchored state, `ok true` for its successor. -/
def StateAnchor.checkCandidate [DecidableEq Digest] (a : StateAnchor Digest) (s : StateMetadata Digest) :
    Result Bool :=
  if a.identityFingerprint ≠ s.identityFingerprint ∨ a.objectType ≠ s.objectType ∨ a.objectId ≠ s.objectId then
    .error (.stateMismatch s.label)
  else if s.epoch < a.epoch then .error (.rollbackDetected s.label)
  else if s.epoch = a.epoch then
    if s.currentStateHash ≠ a.currentStateHash ∨ s.suiteId ≠ a.suiteId then .error (.stateMismatch s.label)
    else .ok false
  else if s.epoch ≠ min (a.epoch + 1) u64Max ∨ s.previousStateHash ≠ a.currentStateHash then
    .error (.stateMismatch s.label)
  else .ok true

/-! ### The two ways to pass an anchor -/

/-- The anchor and the state are of one object of one identity. -/
def StateAnchor.SameObject (a : StateAnchor Digest) (s : StateMetadata Digest) : Prop :=
  a.identityFingerprint = s.identityFingerprint ∧ a.objectType = s.objectType ∧ a.objectId = s.objectId

section Check

variable [DecidableEq Digest] {a : StateAnchor Digest} {s : StateMetadata Digest}

theorem checkCandidate_ok_false_iff : a.checkCandidate s = .ok false ↔
    a.SameObject s ∧ s.epoch = a.epoch ∧ s.currentStateHash = a.currentStateHash ∧ s.suiteId = a.suiteId := by
  unfold StateAnchor.checkCandidate StateAnchor.SameObject
  by_cases hsame : a.identityFingerprint = s.identityFingerprint ∧ a.objectType = s.objectType ∧
    a.objectId = s.objectId
  · rw [if_neg (by simp [hsame])]
    by_cases hlt : s.epoch < a.epoch
    · rw [if_pos hlt]
      simp
      omega
    · rw [if_neg hlt]
      by_cases heq : s.epoch = a.epoch
      · rw [if_pos heq]
        by_cases hh : s.currentStateHash = a.currentStateHash ∧ s.suiteId = a.suiteId
        · rw [if_neg (by simp [hh])]
          simp [hsame, heq, hh]
        · rw [if_pos (by tauto)]
          simp
          tauto
      · rw [if_neg heq]
        split <;> simp [heq]
  · rw [if_pos (by tauto)]
    simp
    tauto

theorem checkCandidate_ok_true_iff : a.checkCandidate s = .ok true ↔
    a.SameObject s ∧ a.epoch < s.epoch ∧ s.epoch = min (a.epoch + 1) u64Max ∧
      s.previousStateHash = a.currentStateHash := by
  unfold StateAnchor.checkCandidate StateAnchor.SameObject
  by_cases hsame : a.identityFingerprint = s.identityFingerprint ∧ a.objectType = s.objectType ∧
    a.objectId = s.objectId
  · rw [if_neg (by simp [hsame])]
    by_cases hlt : s.epoch < a.epoch
    · rw [if_pos hlt]
      simp
      omega
    · rw [if_neg hlt]
      by_cases heq : s.epoch = a.epoch
      · rw [if_pos heq]
        split <;> simp [heq]
      · rw [if_neg heq]
        have hgt : a.epoch < s.epoch := by omega
        split
        · rename_i h
          simp
          tauto
        · rename_i h
          rw [not_or, not_ne_iff, not_ne_iff] at h
          have hmax : a.epoch < u64Max := by omega
          simp [hsame, h, hmax]
  · rw [if_pos (by tauto)]
    simp
    tauto

/-- An anchor accepts the state it was made from. -/
@[simp] theorem checkCandidate_fromMetadata (s : StateMetadata Digest) :
    (StateAnchor.fromMetadata s).checkCandidate s = .ok false :=
  checkCandidate_ok_false_iff.2 ⟨⟨rfl, rfl, rfl⟩, rfl, rfl, rfl⟩

end Check

section Next

variable {hash : StatePreimage Digest Payload → Digest} {genesis : Digest} {fpr : Bytes} {ty : StateObjectType}
  {id : Str} {suite : Nat} {prev : Option (StateAnchor Digest)} {payload : Payload} {s : StateMetadata Digest}

/-- What `next` returns: the state of this object that commits to the payload and follows the given anchor. -/
theorem next_ok (h : StateMetadata.next hash genesis fpr ty id suite prev payload = .ok s) :
    s.identityFingerprint = fpr ∧ s.objectType = ty ∧ s.objectId = id ∧ s.suiteId = suite ∧
      s.currentStateHash = s.expectedHash hash payload ∧ 0 < s.epoch ∧
      (∀ a, prev = some a → a.SameObject s ∧ s.epoch = a.epoch + 1 ∧ s.epoch ≤ u64Max ∧
        s.previousStateHash = a.currentStateHash) ∧
      (prev = none → s.epoch = 1 ∧ s.previousStateHash = genesis) := by
  unfold StateMetadata.next at h
  cases prev with
  | none =>
    simp only [Except.ok.injEq] at h
    subst h
    simp [StateMetadata.commitTo, StateMetadata.expectedHash, StateMetadata.preimage]
  | some a =>
    simp only at h
    split at h
    · simp at h
    · rename_i hsame
      split at h
      · simp at h
      · rename_i hepoch
        simp only [Except.ok.injEq] at h
        subst h
        simp only [not_or, not_ne_iff] at hsame
        refine ⟨rfl, rfl, rfl, rfl, rfl, Nat.succ_pos _, ?_, by simp⟩
        rintro b ⟨rfl⟩
        exact ⟨hsame, rfl, not_lt.1 hepoch, rfl⟩

/-- A state made by `next` verifies against its payload. -/
theorem next_verifyPayload [DecidableEq Digest]
    (h : StateMetadata.next hash genesis fpr ty id suite prev payload = .ok s) :
    s.verifyPayload hash payload = .ok () := by
  obtain ⟨-, -, -, -, hhash, hpos, -, -⟩ := next_ok h
  unfold StateMetadata.verifyPayload
  rw [if_neg]
  rw [not_or, not_ne_iff]
  exact ⟨by omega, hhash⟩

end Next

end FileSec
