import FileSec.Keys.Format

/-!
# Recovering a keystore of an older format

`recover_legacy` unlocks a keystore of format 1 or 2 and signs it as one of format 3 (`keystore.rs`).  What a keystore
seals it opens again, so the passphrase unlocks the same identity as before (`recoverLegacy_ok`).
-/

namespace FileSec.Keys

open Fsec

variable {P : Prims} {C : FsecPrims P} {K : KeyPrims} {identity : Fsec.Identity C} {passphrase : Bytes}

/-! ### What is sealed opens -/

theorem aeadOpen_sealFresh {key aad plaintext nonce ciphertext : Bytes} {draw : Option (Nat → UInt8)}
    (h : sealFresh C key aad plaintext draw = .ok (nonce, ciphertext)) :
    aeadOpen C key nonce aad ciphertext = .ok plaintext := by
  obtain ⟨nonce', hnonce, heq⟩ := bind_eq_ok.1 h
  obtain ⟨rfl, rfl⟩ := Prod.mk.inj (Except.ok.inj heq)
  unfold aeadOpen
  rw [if_neg (not_not.2 (randomVec_length hnonce)), P.openBytes_sealBytes]

private theorem pqcMaterial_isSome {key : Bytes → Bytes} {len : Nat} {what : Str} {pair : Option (Bytes × Bytes)}
    {material : Option (PqcMaterial key len)} (h : pqcMaterial key len what pair = .ok material) :
    material.isSome = pair.isSome := by
  unfold pqcMaterial at h
  split at h
  · rw [← Except.ok.inj h]
    rfl
  · split at h
    · split at h
      · rw [← Except.ok.inj h]
        rfl
      · cases h
    · cases h

/-- An identity out of a bundle has both post-quantum keys or neither. -/
theorem pqc_of_bundleIntoIdentity {bundle : SecretBundle} (h : bundleIntoIdentity C bundle = .ok identity) :
    identity.mldsa.isSome = identity.mlkem.isSome := by
  unfold bundleIntoIdentity at h
  obtain ⟨dsaPair, -, h⟩ := bind_eq_ok.1 h
  obtain ⟨kemPair, -, h⟩ := bind_eq_ok.1 h
  obtain ⟨_, hsame, h⟩ := bind_eq_ok.1 h
  obtain ⟨dsa, hdsa, h⟩ := bind_eq_ok.1 h
  obtain ⟨kem, hkem, h⟩ := bind_eq_ok.1 h
  obtain rfl := Except.ok.inj h
  have hsame : dsaPair.isSome = kemPair.isSome := not_not.1 (refuseIf_eq_ok.1 hsame)
  exact (pqcMaterial_isSome hdsa).trans (hsame.trans (pqcMaterial_isSome hkem).symm)

/-- The bundle of such an identity is taken apart into it. -/
theorem bundleIntoIdentity_buildBundle (h : identity.mldsa.isSome = identity.mlkem.isSome) :
    bundleIntoIdentity C (buildBundle identity) = .ok identity := by
  obtain ⟨name, createdAt, signSecret, kemSecret, mldsa, mlkem⟩ := identity
  cases mldsa with
  | none =>
    cases mlkem with
    | none => rfl
    | some kem => cases h
  | some dsa =>
    cases mlkem with
    | none => cases h
    | some kem =>
      obtain ⟨dsaPublic, dsaSeed, hdsa, hdsaKey⟩ := dsa
      obtain ⟨kemPublic, kemSeed, hkem, hkemKey⟩ := kem
      unfold bundleIntoIdentity buildBundle
      simp [pqcPair, pqcMaterial, refuseIf, bind, Except.bind, hdsa, hdsaKey, hkem, hkemKey]

/-- A bundle that is encrypted is decrypted. -/
theorem decryptBundle_encryptBundle {dek nonce ciphertext : Bytes} {draw : Option (Nat → UInt8)}
    (hpqc : identity.mldsa.isSome = identity.mlkem.isSome)
    (h : encryptBundle K dek identity draw = .ok (nonce, ciphertext)) :
    decryptBundle C K dek nonce ciphertext = .ok identity := by
  unfold decryptBundle openBundle
  rw [aeadOpen_sealFresh h]
  simp only [bind, Except.bind, decoded, RawCodec.decode_encode]
  exact bundleIntoIdentity_buildBundle hpqc

/-- A keystore unlocks with the passphrase it has been created with. -/
theorem createWithDek_unlock {params : KdfParams} {draws : Draws} {body : KeystoreV2} {dek : Bytes}
    (hpqc : identity.mldsa.isSome = identity.mlkem.isSome)
    (h : KeystoreV2.createWithDek K identity passphrase params draws = .ok (body, dek)) :
    body.unlock C K passphrase = .ok identity := by
  unfold KeystoreV2.createWithDek at h
  obtain ⟨dek', hdek, h⟩ := bind_eq_ok.1 h
  obtain ⟨⟨bundleNonce, bundleCt⟩, hbundle, h⟩ := bind_eq_ok.1 h
  obtain ⟨slot, hslot, h⟩ := bind_eq_ok.1 h
  obtain ⟨rfl, rfl⟩ := Prod.mk.inj (Except.ok.inj h)
  unfold buildPassphraseSlot at hslot
  obtain ⟨salt, -, hslot⟩ := bind_eq_ok.1 hslot
  obtain ⟨kek, hkek, hslot⟩ := bind_eq_ok.1 hslot
  obtain ⟨⟨nonce, wrappedDek⟩, hwrap, hslot⟩ := bind_eq_ok.1 hslot
  obtain rfl := Except.ok.inj hslot
  have hunwrap : unwrapDek C kek nonce wrappedDek (passphraseWrapAad P salt params) = .ok dek' := by
    unfold unwrapDek
    rw [aeadOpen_sealFresh hwrap]
    simp [bind, Except.bind, refuseIf, randomVec_length hdek]
  unfold KeystoreV2.unlock KeystoreV2.unlockDekWithPassphrase
  simp only [hkek, hunwrap, bind, Except.bind, orElse]
  exact decryptBundle_encryptBundle hpqc hbundle

/-! ### The signed state -/

/-- A keystore that is built for the first time verifies and is at epoch 1. -/
theorem build_verify {body : KeystoreV2} {file : KeystoreV3} (h : KeystoreV3.build K body identity none = .ok file) :
    file.verify C K = .ok () ∧ file.body = body ∧ file.state.epoch = 1 ∧
      file.state.identityFingerprint = identity.fingerprint := by
  unfold KeystoreV3.build at h
  obtain ⟨state, hnext, h⟩ := bind_eq_ok.1 h
  obtain rfl := Except.ok.inj h
  obtain ⟨hfpr, htype, hid, hsuite, -, -, -, hfirst⟩ := next_ok hnext
  have hobject : ¬ (versionV3 ≠ versionV3 ∨ state.objectType ≠ .keystore ∨ state.objectId ≠ keystoreId ∨
      state.suiteId ≠ 0 ∨ state.identityFingerprint ≠ identity.publicPart.fingerprint P.hashContent) := by
    have hsame : identity.fingerprint = identity.publicPart.fingerprint P.hashContent := rfl
    rw [hfpr, htype, hid, hsuite, hsame]
    simp
  refine ⟨?_, rfl, (hfirst rfl).1, hfpr⟩
  have hsigned : C.verify ⟨identity.publicPart.signPublic, identity.publicPart.signPublic_length⟩
      (authenticatedData state) (identity.sign (authenticatedData state)) = .ok () := C.verify_sign _ _
  have hlen : (identity.sign (authenticatedData state)).length = signatureLen := C.length_signRaw _ _
  unfold KeystoreV3.verify
  simp only [bind_eq_ok, refuseIf_eq_ok, exists_const]
  refine ⟨hobject, (), next_verifyPayload hnext, not_not.2 hlen, ?_⟩
  rw [hsigned]
  rfl

/-! ### The recovery -/

theorem pqc_of_unlock {legacy : KeystoreFile} (h : legacy.unlock C K passphrase = .ok identity) :
    identity.mldsa.isSome = identity.mlkem.isSome := by
  have hopen : ∀ {plaintext}, openBundle C K plaintext = .ok identity →
      identity.mldsa.isSome = identity.mlkem.isSome := by
    intro plaintext h
    obtain ⟨bundle, -, h⟩ := bind_eq_ok.1 h
    exact pqc_of_bundleIntoIdentity h
  have hbody : ∀ {body : KeystoreV2}, body.unlock C K passphrase = .ok identity →
      identity.mldsa.isSome = identity.mlkem.isSome := by
    intro body h
    obtain ⟨dek, -, h⟩ := bind_eq_ok.1 h
    obtain ⟨plaintext, -, h⟩ := bind_eq_ok.1 h
    exact hopen h
  cases legacy with
  | v1 file =>
    obtain ⟨master, -, h⟩ := bind_eq_ok.1 h
    obtain ⟨plaintext, -, h⟩ := bind_eq_ok.1 h
    exact hopen h
  | v2 body => exact hbody h
  | v3 file => exact hbody h

/-- **What a recovery returns.**  It is a signed keystore at epoch 1, which the passphrase unlocks to the identity that it
has unlocked the old one to. -/
theorem recoverLegacy_ok {bytes : Bytes} {draws : Draws} {recovered : KeystoreFile}
    (h : KeystoreFile.recoverLegacy C K bytes passphrase draws = .ok recovered) :
    ∃ legacy identity file, parseLegacy K bytes = .ok legacy ∧ legacy.unlock C K passphrase = .ok identity ∧
      recovered = .v3 file ∧ recovered.unlock C K passphrase = .ok identity ∧ file.verify C K = .ok () ∧
      file.state.epoch = 1 ∧ file.state.identityFingerprint = identity.fingerprint := by
  obtain ⟨legacy, hparse, h⟩ := bind_eq_ok.1 h
  cases legacy with
  | v1 file =>
    obtain ⟨identity, hunlock, h⟩ := bind_eq_ok.1 h
    obtain ⟨⟨body, dek⟩, hcreate, h⟩ := bind_eq_ok.1 h
    obtain ⟨v3, hbuild, h⟩ := bind_eq_ok.1 h
    obtain rfl := Except.ok.inj h
    have hpqc := @pqc_of_unlock P C K identity passphrase (.v1 file) hunlock
    obtain ⟨hverify, hbody, hstate⟩ := build_verify hbuild
    refine ⟨_, identity, v3, hparse, hunlock, rfl, ?_, hverify, hstate⟩
    show v3.body.unlock C K passphrase = .ok identity
    rw [hbody]
    exact createWithDek_unlock hpqc hcreate
  | v2 body =>
    obtain ⟨identity, hunlock, h⟩ := bind_eq_ok.1 h
    obtain ⟨v3, hbuild, h⟩ := bind_eq_ok.1 h
    obtain rfl := Except.ok.inj h
    obtain ⟨hverify, hbody, hstate⟩ := build_verify hbuild
    refine ⟨_, identity, v3, hparse, hunlock, rfl, ?_, hverify, hstate⟩
    show v3.body.unlock C K passphrase = .ok identity
    rw [hbody]
    exact hunlock
  | v3 file => cases h

end FileSec.Keys
