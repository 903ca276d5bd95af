import FileSec.CommitSpec

/-!
# Opening what was sealed

Which readers belong to a vault of an identity, and what opening the vault yields after one of them has sealed a
manifest: that manifest, provided it passes the validation and the size limits (`openVault_sealed`).
-/

namespace FileSec

variable {P : Prims} {identity : Identity} {files : VaultFile → Option P.Raw} {r r' : VaultReaderV2 P}

/-- The reader has the keys that `identity` gets out of the header. -/
structure VaultReaderV2.Belongs (r : VaultReaderV2 P) (identity : Identity) : Prop where
  header : ∃ header, openHeader P r.headerBytes identity = .ok (header, r.suite, r.manifestKey)
  owner : r.ownerFingerprint = identity.fingerprint

/-- The reader as `open` makes it: for the manifest `m` with the state `state`. -/
def VaultReaderV2.opened (r : VaultReaderV2 P) (m : ManifestV2) (state : P.State) : VaultReaderV2 P :=
  { r.adopt m state with pendingReclaim := [] }

/-- The reader that opening the vault again gives: the queue of blobs to reclaim is not stored. -/
def VaultReaderV2.reopened (r : VaultReaderV2 P) : VaultReaderV2 P := { r with pendingReclaim := [] }

@[simp] theorem reopened_headerBytes (r : VaultReaderV2 P) : r.reopened.headerBytes = r.headerBytes := rfl

@[simp] theorem reopened_pendingReclaim (r : VaultReaderV2 P) : r.reopened.pendingReclaim = [] := rfl

/-! ### The parts of opening -/

theorem readBounded_eq_ok {file : Option P.Raw} {max : Nat} {raw : P.Raw} :
    readBounded P file max = .ok raw ↔ file = some raw ∧ P.rawLen raw ≤ max := by
  unfold readBounded
  cases file with
  | none => simp
  | some raw' =>
    simp only [Option.some.injEq]
    split
    · rename_i h
      simp only [reduceCtorEq, false_iff, not_and]
      rintro rfl
      omega
    · rename_i h
      simp only [Except.ok.injEq]
      constructor
      · rintro rfl
        exact ⟨rfl, by omega⟩
      · exact And.left

/-- What `open` does when it succeeds: each part has succeeded. -/
theorem openVault_eq_ok : openVault P files identity = .ok r ↔
    ∃ header raw state m, files .header = some r.headerBytes ∧ P.rawLen r.headerBytes ≤ maxHeaderLen ∧
      openHeader P r.headerBytes identity = .ok (header, r.suite, r.manifestKey) ∧
      files .manifest = some raw ∧ P.rawLen raw ≤ maxManifestLen ∧
      openManifest P header r.headerBytes r.suite r.manifestKey identity raw = .ok (state, m) ∧
      r.ownerFingerprint = identity.fingerprint ∧ r = r.opened m state := by
  constructor
  · intro h
    unfold openVault at h
    cases hhb : readBounded P (files .header) maxHeaderLen with
    | error e => simp [hhb, bind, Except.bind] at h
    | ok hb =>
      cases hoh : openHeader P hb identity with
      | error e => simp [hhb, hoh, bind, Except.bind] at h
      | ok parts =>
        obtain ⟨header, suite, key⟩ := parts
        cases hraw : readBounded P (files .manifest) maxManifestLen with
        | error e => simp [hhb, hoh, hraw, bind, Except.bind] at h
        | ok raw =>
          cases hom : openManifest P header hb suite key identity raw with
          | error e => simp [hhb, hoh, hraw, hom, bind, Except.bind] at h
          | ok content =>
            obtain ⟨state, m⟩ := content
            simp only [hhb, hoh, hraw, hom, bind, Except.bind, Except.ok.injEq] at h
            subst h
            obtain ⟨h1, h2⟩ := readBounded_eq_ok.1 hhb
            obtain ⟨h3, h4⟩ := readBounded_eq_ok.1 hraw
            exact ⟨header, raw, state, m, h1, h2, hoh, h3, h4, hom, rfl, rfl⟩
  · rintro ⟨header, raw, state, m, h1, h2, hoh, h3, h4, hom, howner, hr⟩
    unfold openVault
    rw [readBounded_eq_ok.2 ⟨h1, h2⟩, readBounded_eq_ok.2 ⟨h3, h4⟩]
    simp only [hoh, hom, bind, Except.bind]
    rw [hr, ← howner]
    rfl

/-- An opened reader belongs to the vault. -/
theorem belongs_of_openVault (h : openVault P files identity = .ok r) : r.Belongs identity := by
  obtain ⟨header, -, -, -, -, -, hoh, -, -, -, howner, -⟩ := openVault_eq_ok.1 h
  exact ⟨⟨header, hoh⟩, howner⟩

theorem header_of_openVault (h : openVault P files identity = .ok r) : files .header = some r.headerBytes := by
  obtain ⟨-, -, -, -, hh, -⟩ := openVault_eq_ok.1 h
  exact hh

theorem pendingReclaim_of_openVault (h : openVault P files identity = .ok r) : r.pendingReclaim = [] := by
  obtain ⟨_, _, _, _, -, -, -, -, -, -, -, hr⟩ := openVault_eq_ok.1 h
  rw [hr]
  rfl

theorem reopened_of_openVault (h : openVault P files identity = .ok r) : r.reopened = r := by
  unfold VaultReaderV2.reopened
  rw [← pendingReclaim_of_openVault h]

theorem view_of_openVault (h : openVault P files identity = .ok r) : r.view = viewOf r.manifest := by
  obtain ⟨_, _, _, _, -, -, -, -, -, -, -, hr⟩ := openVault_eq_ok.1 h
  rw [hr]
  rfl

theorem openVault_of_toOption (h : (openVault P files identity).toOption = some r) : openVault P files identity = .ok r := by
  cases ho : openVault P files identity with
  | error e => simp [ho, Except.toOption] at h
  | ok r' => simpa [ho, Except.toOption] using h

/-- What `open` accepts is valid. -/
theorem valid_of_openVault (h : openVault P files identity = .ok r) :
    validateManifestV2 r.manifest r.suite.aeadAlg = .ok () := by
  obtain ⟨header, raw, state, m, -, -, -, -, -, hom, -, hr⟩ := openVault_eq_ok.1 h
  have hm : r.manifest = m := by rw [hr]; rfl
  unfold openManifest at hom
  split at hom
  · simp at hom
  · split at hom
    · split at hom
      · simp at hom
      · rename_i env _ _ _ pt _
        cases hv : env.state.verifyPayload P.hashState pt with
        | error e => simp [hv, bind, Except.bind] at hom
        | ok u =>
          simp only [hv, bind, Except.bind] at hom
          split at hom
          · simp at hom
          · rename_i m' _
            cases hval : validateManifestV2 m' r.suite.aeadAlg with
            | error e => simp [hval] at hom
            | ok u' =>
              simp only [hval, Except.ok.injEq, Prod.mk.injEq] at hom
              rw [hm, ← hom.2, hval]
    · simp at hom

/-! ### Opening a sealed manifest -/

theorem decodeHeader_of_openHeader {hb : P.Raw} {header : VaultHeaderV2 P.Stanza} {suite : SuiteId} {key : Bytes}
    (h : openHeader P hb identity = .ok (header, suite, key)) : P.decodeHeader hb = some header := by
  unfold openHeader at h
  cases hd : P.decodeHeader hb with
  | none => simp [hd] at h
  | some header' =>
    simp only [hd] at h
    split at h
    · simp at h
    · cases hs : SuiteId.fromU16 header'.suiteId with
      | error e => simp [hs, bind, Except.bind] at h
      | ok suite' =>
        cases hu : P.unwrapWithIdentity header'.manifestStanza identity with
        | error e => simp [hs, hu, bind, Except.bind] at h
        | ok key' =>
          simp only [hs, hu, bind, Except.bind, Except.ok.injEq, Prod.mk.injEq] at h
          rw [h.1]

/-- The next state of a reader names its vault and its owner. -/
private theorem nextState_names {m : ManifestV2} {state : P.State} {header : VaultHeaderV2 P.Stanza}
    (hh : P.decodeHeader r.headerBytes = some header) (h : r.nextState m = .ok state) :
    StateMetadata.next P.hashState P.genesisHash r.ownerFingerprint .vaultManifest (hex header.vaultId)
      r.suite.toU16 (r.state.map StateAnchor.fromMetadata) (P.encodeManifest m) = .ok state := by
  unfold VaultReaderV2.nextState vaultObjectId at h
  simpa only [hh, bind, Except.bind] using h

theorem openManifest_sealedRaw {m : ManifestV2} {state : P.State} {nonce : Bytes} {header : VaultHeaderV2 P.Stanza}
    (hoh : openHeader P r.headerBytes identity = .ok (header, r.suite, r.manifestKey))
    (howner : r.ownerFingerprint = identity.fingerprint) (hstate : r.nextState m = .ok state)
    (hnonce : nonce.length = r.suite.aeadAlg.nonceLen) :
    openManifest P header r.headerBytes r.suite r.manifestKey identity (r.sealedRaw m state nonce) =
      (validateManifestV2 m r.suite.aeadAlg).map fun _ => (state, m) := by
  have hnext := nextState_names (decodeHeader_of_openHeader hoh) hstate
  obtain ⟨hfp, hty, hid, hsuite, -⟩ := next_ok hnext
  have hmatch : envelopeMatches P header r.suite identity ⟨manifestEnvelopeVersion, state, nonce,
      P.sealWith r.suite.aeadAlg r.manifestKey nonce (r.headerBytes, state) (P.encodeManifest m)⟩ = true := by
    simp only [envelopeMatches, decide_eq_true_eq]
    exact ⟨trivial, hty, hid, hsuite, hfp.trans howner, hnonce⟩
  unfold openManifest VaultReaderV2.sealedRaw
  simp only [P.decodeEnvelope_encodeEnvelope, hmatch, if_true, P.openWith_sealWith, next_verifyPayload hnext,
    P.decodeManifest_encodeManifest, bind, Except.bind]
  cases validateManifestV2 m r.suite.aeadAlg <;> rfl

/-- Opening a vault after a reader of it has sealed `m` yields `m`, if it is valid and the files are not too large. -/
theorem openVault_sealed {m : ManifestV2} {state : P.State} {nonce : Bytes} (hr : r.Belongs identity)
    (hstate : r.nextState m = .ok state) (hnonce : nonce.length = r.suite.aeadAlg.nonceLen)
    (hheader : files .header = some r.headerBytes) (hmanifest : files .manifest = some (r.sealedRaw m state nonce)) :
    openVault P files identity = .ok r' ↔
      P.rawLen r.headerBytes ≤ maxHeaderLen ∧ P.rawLen (r.sealedRaw m state nonce) ≤ maxManifestLen ∧
        validateManifestV2 m r.suite.aeadAlg = .ok () ∧ r' = r.opened m state := by
  obtain ⟨⟨header, hoh⟩, howner⟩ := hr
  have hom := openManifest_sealedRaw hoh howner hstate hnonce
  rw [openVault_eq_ok]
  constructor
  · rintro ⟨header', raw, state', m', h1, h2, hoh', h3, h4, hom', howner', hr'⟩
    rw [hheader, Option.some.injEq] at h1
    rw [hmanifest, Option.some.injEq] at h3
    subst h3
    rw [← h1, hoh, Except.ok.injEq, Prod.mk.injEq, Prod.mk.injEq] at hoh'
    obtain ⟨rfl, hsuite, hkey⟩ := hoh'
    rw [← h1, ← hsuite, ← hkey, hom] at hom'
    cases hv : validateManifestV2 m r.suite.aeadAlg with
    | error e => simp [hv, Except.map] at hom'
    | ok u =>
      simp only [hv, Except.map, Except.ok.injEq, Prod.mk.injEq] at hom'
      obtain ⟨rfl, rfl⟩ := hom'
      refine ⟨by rw [h1]; exact h2, h4, rfl, ?_⟩
      rw [hr']
      simp only [VaultReaderV2.opened, VaultReaderV2.adopt, ← h1, ← hsuite, ← hkey, howner', howner]
  · rintro ⟨h2, h4, hv, rfl⟩
    rw [hv] at hom
    exact ⟨header, _, state, m, hheader, h2, hoh, hmanifest, h4, hom, howner, rfl⟩

end FileSec
