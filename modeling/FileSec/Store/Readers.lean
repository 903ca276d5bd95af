import FileSec.Build
import FileSec.Store.Vaults

/-!
# Coherent readers

A reader is coherent for the vault `id` of an identity if its state names that vault and commits to its manifest.  Readers
that `open` or a builder returns are, and a commit keeps them so.
-/

namespace FileSec

open CrashDir Prog

variable {P : Prims} {identity : Identity} {id : Str}

/-- The state is one of the vault `id` of the identity, and commits to the payload `pt`. -/
structure StateOf (P : Prims) (identity : Identity) (id : Str) (state : P.State) (pt : P.Raw) : Prop where
  objectType : state.objectType = .vaultManifest
  objectId : state.objectId = id
  owner : state.identityFingerprint = identity.fingerprint
  payload : state.verifyPayload P.hashState pt = .ok ()

/-- The reader's state is one of the vault `id` of the identity, and commits to the reader's manifest. -/
structure VaultReaderV2.Coherent (r : VaultReaderV2 P) (identity : Identity) (id : Str) : Prop where
  header : vaultObjectId P r.headerBytes = .ok id
  owner : r.ownerFingerprint = identity.fingerprint
  state : ∃ state pt, r.state = some state ∧ StateOf P identity id state pt ∧ state.suiteId = r.suite.toU16 ∧
    P.decodeManifest pt = some r.manifest

theorem vaultObjectId_of_openHeader {hb : P.Raw} {header : VaultHeaderV2 P.Stanza} {suite : SuiteId} {key : Bytes}
    (h : openHeader P hb identity = .ok (header, suite, key)) : vaultObjectId P hb = .ok (hex header.vaultId) := by
  unfold vaultObjectId
  rw [decodeHeader_of_openHeader h]

/-- A reader that `open` returns is coherent. -/
theorem coherent_of_openVault {files : VaultFile → Option P.Raw} {r : VaultReaderV2 P}
    (h : openVault P files identity = .ok r) : ∃ id, r.Coherent identity id := by
  obtain ⟨header, raw, state, m, -, -, hoh, -, -, hom, howner, hr⟩ := openVault_eq_ok.1 h
  refine ⟨hex header.vaultId, vaultObjectId_of_openHeader hoh, howner, state, ?_⟩
  unfold openManifest at hom
  split at hom
  · simp at hom
  · rename_i env _
    split at hom
    · rename_i hmatch
      simp only [envelopeMatches, decide_eq_true_eq] at hmatch
      obtain ⟨-, hty, hid, hsuite, hfp, -⟩ := hmatch
      split at hom
      · simp at hom
      · rename_i pt _
        cases hv : env.state.verifyPayload P.hashState pt with
        | error e => simp [hv, bind, Except.bind] at hom
        | ok u =>
          simp only [hv, bind, Except.bind] at hom
          split at hom
          · simp at hom
          · rename_i m' hdec
            cases hval : validateManifestV2 m' r.suite.aeadAlg with
            | error e => simp [hval] at hom
            | ok u' =>
              simp only [hval, Except.ok.injEq, Prod.mk.injEq] at hom
              obtain ⟨rfl, rfl⟩ := hom
              refine ⟨pt, by rw [hr]; rfl, ⟨hty, hid, hfp, hv⟩, hsuite, ?_⟩
              rw [hdec, hr]
              rfl
    · simp at hom

theorem VaultReaderV2.Coherent.unique {r : VaultReaderV2 P} {identity' : Identity} {id' : Str}
    (h : r.Coherent identity id) (h' : r.Coherent identity' id') : id = id' :=
  Except.ok.inj (h.header.symm.trans h'.header)

/-- The next state of a reader is again one of its vault. -/
theorem stateOf_nextState {r : VaultReaderV2 P} {m : ManifestV2} {state : P.State}
    (hheader : vaultObjectId P r.headerBytes = .ok id) (howner : r.ownerFingerprint = identity.fingerprint)
    (h : r.nextState m = .ok state) :
    StateOf P identity id state (P.encodeManifest m) ∧ state.suiteId = r.suite.toU16 := by
  unfold VaultReaderV2.nextState at h
  rw [hheader] at h
  have hnext : StateMetadata.next P.hashState P.genesisHash r.ownerFingerprint .vaultManifest id r.suite.toU16
      (r.state.map StateAnchor.fromMetadata) (P.encodeManifest m) = .ok state := h
  obtain ⟨hfp, hty, hid, hsuite, -⟩ := next_ok hnext
  exact ⟨⟨hty, hid, hfp.trans howner, next_verifyPayload hnext⟩, hsuite⟩

/-- Reclaiming changes neither the state nor the manifest of a reader. -/
theorem VaultReaderV2.Coherent.pending {r : VaultReaderV2 P} (h : r.Coherent identity id) (pending : List Str) :
    VaultReaderV2.Coherent { r with pendingReclaim := pending } identity id := ⟨h.header, h.owner, h.state⟩

theorem VaultReaderV2.Coherent.adopt {r : VaultReaderV2 P} (hheader : vaultObjectId P r.headerBytes = .ok id)
    (howner : r.ownerFingerprint = identity.fingerprint) {m : ManifestV2} {state : P.State}
    (hstate : r.nextState m = .ok state) : (r.adopt m state).Coherent identity id := by
  obtain ⟨hof, hsuite⟩ := stateOf_nextState hheader howner hstate
  exact ⟨hheader, howner, state, P.encodeManifest m, rfl, hof, hsuite, P.decodeManifest_encodeManifest m⟩

/-- A commit leaves a coherent reader. -/
theorem VaultReaderV2.Coherent.outcome {s s' : Session P} {io : CommitIo} {edited r : Result Unit} {b : VaultBatch P}
    (h : s.reader.Coherent identity id) (ho : s.Outcome io edited b r s') : s'.reader.Coherent identity id := by
  cases ho with
  | sealed hok hchanged hsealed => exact (VaultReaderV2.Coherent.adopt h.header h.owner hsealed.next).pending _
  | unchanged hok hchanged => exact h
  | failed hhost => exact h

theorem VaultReaderV2.Coherent.commitWith {s : Session P} (h : s.reader.Coherent identity id) (limit : Option Nat)
    (edits : Edits) (io : CommitIo) : wp (commitWith limit edits io) (fun _ s' => s'.reader.Coherent identity id) s :=
  wp_mono (commitWith_outcome s limit edits io) fun _ _ ho => h.outcome ho

/-- A vault that has just been created is coherent. -/
theorem Session.Created.coherent {s : Session P} {h : Host P} (hs : s.Created identity h) :
    ∃ id, s.reader.Coherent identity id := by
  obtain ⟨header, hoh⟩ := hs.belongs.header
  obtain ⟨state, nonce, hstate, hnext, -⟩ := hs.sealed
  have hid := vaultObjectId_of_openHeader hoh
  obtain ⟨hof, hsuite⟩ := stateOf_nextState (r := { s.reader with state := none }) hid hs.belongs.owner hnext
  exact ⟨_, hid, hs.belongs.owner, state, _, hstate, hof, hsuite, P.decodeManifest_encodeManifest _⟩

end FileSec
