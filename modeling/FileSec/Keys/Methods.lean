import FileSec.Keys.Symbolic

/-!
# Changing a keystore

`add_passkey`, `remove_passkey`, `set_device_token` and `remove_device_token` edit a keystore in place and then advance its
signed state (`keystore.rs`).  An advance that fails leaves the edit behind: `failed_unchanged_iff` says when a call that
fails leaves everything as it was.
-/

namespace FileSec.Keys

open Fsec

variable {P : Prims} {C : FsecPrims P} (K : KeyPrims)

/-! ### The methods -/

/-- What has been edited is advanced; an error leaves the edit. -/
def advanceEdited (file : KeystoreV3) (identity : Fsec.Identity C) : Result Unit × KeystoreFile :=
  match file.advance K identity with
  | .error e => (.error e, .v3 file)
  | .ok file' => (.ok (), .v3 file')

/-- The first match of `add_passkey`: the data key, who signs, and the keystore, promoted if it is bare. -/
def openForPasskey (C : FsecPrims P) (passphrase : Bytes) (draws : Draws) :
    KeystoreFile → Result (Bytes × Fsec.Identity C × KeystoreFile)
  | .v1 file => do
    let identity ← file.unlock C K passphrase
    let (v2, dek) ← KeystoreV2.createWithDek K identity passphrase file.kdf draws
    .ok (dek, identity, .v2 v2)
  | .v2 file => do
    let identity ← file.unlock C K passphrase
    let dek ← file.unlockDekWithPassphrase C K passphrase
    .ok (dek, identity, .v2 file)
  | .v3 file => do
    let dek ← file.body.unlockDekWithPassphrase C K passphrase
    let identity ← file.body.unlock C K passphrase
    .ok (dek, identity, .v3 file)

/-- The second match of `add_passkey`. -/
def enrollPasskey (dek : Bytes) (signer : Fsec.Identity C) (enrollment : PasskeyEnrollment)
    (draw : Option (Nat → UInt8)) : KeystoreFile → Result Unit × KeystoreFile
  | .v2 file =>
    match file.addPasskey C dek enrollment draw with
    | .error e => (.error e, .v2 file)
    | .ok file' => (.ok (), .v2 file')
  | .v3 file =>
    match file.body.addPasskey C dek enrollment draw with
    | .error e => (.error e, .v3 file)
    | .ok body => advanceEdited K { file with body } signer
  | .v1 file => (.error (.format "keystore promotion failed".toList), .v1 file)

/-- `add_passkey` with its five draws. -/
def KeystoreFile.addPasskey (C : FsecPrims P) (k : KeystoreFile) (passphrase : Bytes) (enrollment : PasskeyEnrollment)
    (draws : Draws) : Result Unit × KeystoreFile :=
  match openForPasskey K C passphrase draws k with
  | .error e => (.error e, k)
  | .ok (dek, signer, k) => enrollPasskey K dek signer enrollment (draws 4) k

/-- `remove_passkey` -/
def KeystoreFile.removePasskey (k : KeystoreFile) (index : Nat) (identity : Fsec.Identity C) :
    Result Unit × KeystoreFile :=
  match k with
  | .v2 file =>
    if index < file.passkeys.length then (.ok (), .v2 { file with passkeys := file.passkeys.eraseIdx index })
    else (.error (.format "passkey slot index out of range".toList), k)
  | .v3 file =>
    if index < file.body.passkeys.length then
      advanceEdited K { file with body := { file.body with passkeys := file.body.passkeys.eraseIdx index } } identity
    else (.error (.format "passkey slot index out of range".toList), k)
  | .v1 _ => (.error (.format "no passkeys are enrolled".toList), k)

/-- What `set_device_token` prepares: who signs, and the body with the slot. -/
def withDeviceToken (C : FsecPrims P) (body : KeystoreV2) (passphrase token : Bytes) (draw : Option (Nat → UInt8)) :
    Result (Fsec.Identity C × KeystoreV2) := do
  let dek ← body.unlockDekWithPassphrase C K passphrase
  let signer ← body.identity C K dek
  let body ← body.setDeviceSlot C dek token draw
  .ok (signer, body)

/-- `set_device_token` with its draw. -/
def KeystoreFile.setDeviceToken (C : FsecPrims P) (k : KeystoreFile) (passphrase token : Bytes)
    (draw : Option (Nat → UInt8)) : Result Unit × KeystoreFile :=
  match k with
  | .v3 file =>
    match withDeviceToken K C file.body passphrase token draw with
    | .error e => (.error e, k)
    | .ok (signer, body) => advanceEdited K { file with body } signer
  | .v1 _ => (.error (.legacyState "keystore".toList), k)
  | .v2 _ => (.error (.legacyState "keystore".toList), k)

/-- `remove_device_token` -/
def KeystoreFile.removeDeviceToken (k : KeystoreFile) (identity : Fsec.Identity C) : Result Unit × KeystoreFile :=
  match k with
  | .v3 file =>
    match file.body.device with
    | none => (.ok (), k)
    | some _ => advanceEdited K { file with body := { file.body with device := none } } identity
  | .v1 _ => (.error (.legacyState "keystore".toList), k)
  | .v2 _ => (.error (.legacyState "keystore".toList), k)

/-- The branch of `continue_identity` for a keystore that is not legacy, with its draw. -/
def KeystoreV3.continueIdentity (file : KeystoreV3) (passphrase : Bytes) (current successor : Fsec.Identity C)
    (draw : Option (Nat → UInt8)) : Result KeystoreFile := do
  let dek ← file.body.unlockDekWithPassphrase C K passphrase
  let stored ← file.body.identity C K dek
  refuseIf (stored.fingerprint ≠ current.fingerprint ∨ file.state.identityFingerprint ≠ current.fingerprint)
    (.stateMismatch "keystore does not hold the active identity".toList)
  refuseIf (successor.publicPart.signPublic ≠ stored.publicPart.signPublic ∨
      successor.publicPart.kemPublic ≠ stored.publicPart.kemPublic)
    (.stateMismatch "successor identity changes the classical keys".toList)
  let (bundleNonce, bundleCt) ← encryptBundle K dek successor draw
  let v3 ← KeystoreV3.build K ⟨versionV2, bundleNonce, bundleCt, file.body.passphrase, file.body.passkeys, file.body.device⟩
    successor none
  .ok (.v3 v3)

/-- `continue_identity` -/
def KeystoreFile.continueIdentity (k : KeystoreFile) (passphrase : Bytes) (current successor : Fsec.Identity C)
    (draw : Option (Nat → UInt8)) : Result KeystoreFile :=
  match k with
  | .v3 file => file.continueIdentity K passphrase current successor draw
  | .v1 _ => .error (.legacyState "keystore".toList)
  | .v2 _ => .error (.legacyState "keystore".toList)

/-- The calls that change a keystore or make one from it. -/
inductive Call (C : FsecPrims P) where
  | addPasskey (passphrase : Bytes) (enrollment : PasskeyEnrollment) (draws : Draws)
  | removePasskey (index : Nat) (identity : Fsec.Identity C)
  | setDeviceToken (passphrase token : Bytes) (draw : Option (Nat → UInt8))
  | removeDeviceToken (identity : Fsec.Identity C)
  | continueIdentity (passphrase : Bytes) (current successor : Fsec.Identity C) (draw : Option (Nat → UInt8))

/-- What a call returns, and the keystore that it was called on. -/
def Call.run (k : KeystoreFile) : Call C → Result Unit × KeystoreFile
  | .addPasskey passphrase enrollment draws => k.addPasskey K C passphrase enrollment draws
  | .removePasskey index identity => k.removePasskey K index identity
  | .setDeviceToken passphrase token draw => k.setDeviceToken K C passphrase token draw
  | .removeDeviceToken identity => k.removeDeviceToken K identity
  | .continueIdentity passphrase current successor draw =>
    ((k.continueIdentity K passphrase current successor draw).map fun _ => (), k)

/-! ### When an advance succeeds -/

/-- The one who signs holds the state, and its epoch is not the last one. -/
def KeystoreV3.CanAdvance (file : KeystoreV3) (signer : Fsec.Identity C) : Prop :=
  signer.fingerprint = file.state.identityFingerprint ∧ file.state.epoch < u64Max

/-- The keystore is of the same bytes and opens by the same means. -/
structure Unchanged (C : FsecPrims P) (k k' : KeystoreFile) : Prop where
  bytes : k'.toBytes C K = k.toBytes C K
  passphrase : ∀ passphrase, k'.unlock C K passphrase = k.unlock C K passphrase
  passkeys : ∀ index hmacOutput, k'.unlockWithPasskey C K index hmacOutput = k.unlockWithPasskey C K index hmacOutput
  device : ∀ token, k'.unlockWithDeviceToken C K token = k.unlockWithDeviceToken C K token

/-- If the call gets as far as an edit, it can advance the state. -/
def Call.Safe (file : KeystoreV3) : Call C → Prop
  | .addPasskey passphrase _ draws => ∀ signer nonce, file.body.unlock C K passphrase = .ok signer →
      randomVec AeadAlg.xchacha20Poly1305.nonceLen (draws 4) = .ok nonce → file.CanAdvance signer
  | .removePasskey index identity => index < file.body.passkeys.length → file.CanAdvance identity
  | .setDeviceToken passphrase token draw => ∀ dek signer slot,
      file.body.unlockDekWithPassphrase C K passphrase = .ok dek → file.body.identity C K dek = .ok signer →
      deviceSlot C dek token draw = .ok slot → file.body.device ≠ some slot → file.CanAdvance signer
  | .removeDeviceToken identity => file.body.device ≠ none → file.CanAdvance identity
  | .continueIdentity .. => True

variable {K} {k : KeystoreFile} {file : KeystoreV3} {bytes : Bytes}

theorem Unchanged.refl (k : KeystoreFile) : Unchanged K C k k := ⟨rfl, fun _ => rfl, fun _ _ => rfl, fun _ => rfl⟩

/-- What `to_bytes` accepts. -/
theorem toBytes_eq_ok : k.toBytes C K = .ok bytes ↔
    ∃ file, k = .v3 file ∧ file.verify C K = .ok () ∧ bytes = magicV2 ++ be16 versionV3 ++ K.frame.encode file := by
  cases k with
  | v1 file => simp [KeystoreFile.toBytes]
  | v2 file => simp [KeystoreFile.toBytes]
  | v3 file =>
    unfold KeystoreFile.toBytes
    constructor
    · intro h
      obtain ⟨_, hverify, heq⟩ := bind_eq_ok.1 h
      exact ⟨file, rfl, hverify, (Except.ok.inj heq).symm⟩
    · rintro ⟨file', hfile, hverify, rfl⟩
      obtain rfl := KeystoreFile.v3.inj hfile
      exact bind_eq_ok.2 ⟨(), hverify, rfl⟩

/-- Keystores of the same bytes are the same. -/
theorem toBytes_inj {k' : KeystoreFile} (h : k.toBytes C K = .ok bytes) (h' : k'.toBytes C K = .ok bytes) : k' = k := by
  obtain ⟨file, rfl, -, rfl⟩ := toBytes_eq_ok.1 h
  obtain ⟨file', rfl, -, heq⟩ := toBytes_eq_ok.1 h'
  have hframe := congrArg K.frame.decode (List.append_cancel_left heq)
  rw [RawCodec.decode_encode, RawCodec.decode_encode, Option.some.injEq] at hframe
  rw [hframe]

/-- A keystore that verifies has the object of keystores. -/
private theorem object_of_verify (h : file.verify C K = .ok ()) :
    file.state.objectType = .keystore ∧ file.state.objectId = keystoreId := by
  unfold KeystoreV3.verify at h
  simp only [bind_eq_ok, refuseIf_eq_ok, exists_const, not_or, not_not] at h
  exact ⟨h.1.2.1, h.1.2.2.1⟩

/-- The state of a keystore can be advanced exactly by its identity, before the last epoch. -/
theorem advance_isOk_iff {signer : Fsec.Identity C} (htype : file.state.objectType = .keystore)
    (hid : file.state.objectId = keystoreId) : (∃ file', file.advance K signer = .ok file') ↔ file.CanAdvance signer := by
  unfold KeystoreV3.advance KeystoreV3.CanAdvance
  constructor
  · rintro ⟨file', h⟩
    obtain ⟨_, hrefuse, h⟩ := bind_eq_ok.1 h
    obtain ⟨state, hnext, -⟩ := bind_eq_ok.1 h
    have hfollows := (next_ok hnext).2.2.2.2.2.2.1 _ rfl
    have hlt : file.state.epoch + 1 ≤ u64Max := hfollows.2.1 ▸ hfollows.2.2.1
    exact ⟨not_not.1 (refuseIf_eq_ok.1 hrefuse), hlt⟩
  · rintro ⟨hfpr, hepoch⟩
    have hsame : ¬ (file.state.identityFingerprint ≠ signer.fingerprint ∨ file.state.objectType ≠ .keystore ∨
        file.state.objectId ≠ keystoreId) := by
      rw [hfpr, htype, hid]
      simp
    have hle : ¬ file.state.epoch + 1 > u64Max := by omega
    have hnext : ∃ state, nextState signer (some (StateAnchor.fromMetadata file.state)) (K.body.encode file.body) =
        .ok state := by
      unfold nextState StateMetadata.next StateAnchor.fromMetadata
      dsimp only
      rw [if_neg hsame, if_neg hle]
      exact ⟨_, rfl⟩
    obtain ⟨state, hnext⟩ := hnext
    exact ⟨_, bind_eq_ok.2 ⟨(), refuseIf_eq_ok.2 (not_not.2 hfpr), bind_eq_ok.2 ⟨state, hnext, rfl⟩⟩⟩

/-- An edit that is advanced leaves everything as it was when it fails, exactly if it can be advanced or edits nothing. -/
private theorem advanceEdited_iff {signer : Fsec.Identity C} {body : KeystoreV2}
    (h : (KeystoreFile.v3 file).toBytes C K = .ok bytes) :
    (∀ e, (advanceEdited K { file with body } signer).1 = .error e →
        Unchanged K C (.v3 file) (advanceEdited K { file with body } signer).2) ↔
      (body ≠ file.body → file.CanAdvance signer) := by
  obtain ⟨_, hsame, hverify, -⟩ := toBytes_eq_ok.1 h
  rw [KeystoreFile.v3.injEq] at hsame
  subst hsame
  obtain ⟨htype, hid⟩ := object_of_verify hverify
  have hiff : (∃ file', ({ file with body } : KeystoreV3).advance K signer = .ok file') ↔ file.CanAdvance signer :=
    @advance_isOk_iff P C K { file with body } signer htype hid
  unfold advanceEdited
  cases hadvance : ({ file with body } : KeystoreV3).advance K signer with
  | ok file' =>
    refine iff_of_true (fun e he => by cases he) fun _ => hiff.1 ⟨file', hadvance⟩
  | error e =>
    have hcannot : ¬ file.CanAdvance signer := by
      intro hcan
      obtain ⟨file', hok⟩ := hiff.2 hcan
      rw [hadvance] at hok
      cases hok
    constructor
    · intro hunchanged hne
      -- the edit stays behind, under a state that does not commit to it
      have hbytes := (hunchanged e rfl).bytes
      rw [h] at hbytes
      have hback := toBytes_inj h hbytes
      rw [KeystoreFile.v3.injEq] at hback
      exact absurd (congrArg KeystoreV3.body hback) hne
    · intro hedit e' _
      have hsame : body = file.body := by_contra fun hne => hcannot (hedit hne)
      subst hsame
      exact .refl _

/-! ### The calls one by one -/

variable {passphrase : Bytes}

/-- The passphrase opens a body with its data key. -/
theorem unlock_eq_ok {body : KeystoreV2} {identity : Fsec.Identity C} : body.unlock C K passphrase = .ok identity ↔
    ∃ dek, body.unlockDekWithPassphrase C K passphrase = .ok dek ∧ body.identity C K dek = .ok identity := bind_eq_ok

/-- A passkey is added at the end, if the generator works. -/
private theorem addPasskey_eq (body : KeystoreV2) (dek : Bytes) (enrollment : PasskeyEnrollment)
    (draw : Option (Nat → UInt8)) :
    (∃ e, randomVec AeadAlg.xchacha20Poly1305.nonceLen draw = .error e ∧
      body.addPasskey C dek enrollment draw = .error e) ∨
    ∃ nonce slot, randomVec AeadAlg.xchacha20Poly1305.nonceLen draw = .ok nonce ∧
      body.addPasskey C dek enrollment draw = .ok { body with passkeys := body.passkeys ++ [slot] } := by
  unfold KeystoreV2.addPasskey PasskeyEnrollment.slot wrapDek sealFresh
  cases randomVec AeadAlg.xchacha20Poly1305.nonceLen draw with
  | error e => exact Or.inl ⟨e, rfl, rfl⟩
  | ok nonce => exact Or.inr ⟨nonce, _, rfl, rfl⟩

/-- The first match of `add_passkey` finds the data key and who signs, if the passphrase opens the keystore. -/
private theorem openForPasskey_cases (file : KeystoreV3) (passphrase : Bytes) (draws : Draws) :
    (∃ e, openForPasskey K C passphrase draws (.v3 file) = .error e ∧
      ∀ signer, file.body.unlock C K passphrase ≠ .ok signer) ∨
    ∃ dek signer, openForPasskey K C passphrase draws (.v3 file) = .ok (dek, signer, .v3 file) ∧
      file.body.unlock C K passphrase = .ok signer := by
  unfold openForPasskey
  cases hdek : file.body.unlockDekWithPassphrase C K passphrase with
  | error e =>
    refine Or.inl ⟨e, by simp [hdek, bind, Except.bind], fun signer hunlock => ?_⟩
    obtain ⟨dek, hdek', -⟩ := unlock_eq_ok.1 hunlock
    rw [hdek] at hdek'
    cases hdek'
  | ok dek =>
    cases hunlock : file.body.unlock C K passphrase with
    | error e => exact Or.inl ⟨e, by simp [hdek, hunlock, bind, Except.bind], fun signer h => by cases h⟩
    | ok signer => exact Or.inr ⟨dek, signer, by simp [hdek, hunlock, bind, Except.bind], rfl⟩

private theorem addPasskey_iff (h : (KeystoreFile.v3 file).toBytes C K = .ok bytes) (enrollment : PasskeyEnrollment)
    (draws : Draws) :
    (∀ e, ((KeystoreFile.v3 file).addPasskey K C passphrase enrollment draws).1 = .error e →
        Unchanged K C (.v3 file) ((KeystoreFile.v3 file).addPasskey K C passphrase enrollment draws).2) ↔
      (Call.addPasskey (C := C) passphrase enrollment draws).Safe K file := by
  unfold KeystoreFile.addPasskey Call.Safe
  rcases openForPasskey_cases (C := C) file passphrase draws with ⟨e, hopen, hno⟩ | ⟨dek, signer, hopen, hunlock⟩
  · rw [hopen]
    exact iff_of_true (fun _ _ => .refl _) fun signer _ hsigner => absurd hsigner (hno signer)
  · rw [hopen]
    dsimp only [enrollPasskey]
    rcases addPasskey_eq (C := C) file.body dek enrollment (draws 4) with ⟨e, hdraw, hadd⟩ | ⟨nonce, slot, hdraw, hadd⟩
    · rw [hadd]
      refine iff_of_true (fun _ _ => .refl _) fun signer' nonce _ hnonce => ?_
      rw [hdraw] at hnonce
      cases hnonce
    · rw [hadd]
      dsimp only
      rw [advanceEdited_iff h]
      have hne : ({ file.body with passkeys := file.body.passkeys ++ [slot] } : KeystoreV2) ≠ file.body := by
        intro heq
        have hlen := congrArg (fun body : KeystoreV2 => body.passkeys.length) heq
        simp at hlen
      constructor
      · intro hcan signer' nonce' hsigner _
        rw [hunlock, Except.ok.injEq] at hsigner
        exact hsigner ▸ hcan hne
      · intro hsafe _
        exact hsafe signer nonce hunlock hdraw

private theorem removePasskey_iff (h : (KeystoreFile.v3 file).toBytes C K = .ok bytes) (index : Nat)
    (identity : Fsec.Identity C) :
    (∀ e, ((KeystoreFile.v3 file).removePasskey K index identity).1 = .error e →
        Unchanged K C (.v3 file) ((KeystoreFile.v3 file).removePasskey K index identity).2) ↔
      (Call.removePasskey index identity).Safe K file := by
  unfold KeystoreFile.removePasskey Call.Safe
  dsimp only
  by_cases hindex : index < file.body.passkeys.length
  · rw [if_pos hindex, advanceEdited_iff h]
    have hne : ({ file.body with passkeys := file.body.passkeys.eraseIdx index } : KeystoreV2) ≠ file.body := by
      intro heq
      have hlen := congrArg (fun body : KeystoreV2 => body.passkeys.length) heq
      have herase := List.length_eraseIdx_of_lt hindex
      dsimp only at hlen
      omega
    exact ⟨fun hcan _ => hcan hne, fun hsafe _ => hsafe hindex⟩
  · rw [if_neg hindex]
    exact iff_of_true (fun _ _ => .refl _) fun hlt => absurd hlt hindex

private theorem setDeviceToken_iff (h : (KeystoreFile.v3 file).toBytes C K = .ok bytes) (token : Bytes)
    (draw : Option (Nat → UInt8)) :
    (∀ e, ((KeystoreFile.v3 file).setDeviceToken K C passphrase token draw).1 = .error e →
        Unchanged K C (.v3 file) ((KeystoreFile.v3 file).setDeviceToken K C passphrase token draw).2) ↔
      (Call.setDeviceToken (C := C) passphrase token draw).Safe K file := by
  unfold KeystoreFile.setDeviceToken Call.Safe
  dsimp only
  cases hprepared : withDeviceToken K C file.body passphrase token draw with
  | error e =>
    refine iff_of_true (fun _ _ => .refl _) fun dek signer slot hdek hsigner hslot => ?_
    simp [withDeviceToken, KeystoreV2.setDeviceSlot, hdek, hsigner, hslot, bind, Except.bind] at hprepared
  | ok prepared =>
    obtain ⟨dek, hdek, hrest⟩ := bind_eq_ok.1 hprepared
    obtain ⟨signer, hsigner, hrest⟩ := bind_eq_ok.1 hrest
    obtain ⟨body, hbody, hrest⟩ := bind_eq_ok.1 hrest
    obtain ⟨slot, hslot, hset⟩ := bind_eq_ok.1 hbody
    rw [Except.ok.injEq] at hrest hset
    subst hrest hset
    dsimp only
    rw [advanceEdited_iff h]
    have hiff : ({ file.body with device := some slot } : KeystoreV2) ≠ file.body ↔ file.body.device ≠ some slot := by
      refine not_congr ⟨fun heq => (congrArg KeystoreV2.device heq).symm, fun heq => ?_⟩
      rw [← heq]
    rw [hiff]
    constructor
    · intro hcan dek' signer' slot' hdek' hsigner' hslot' hne
      rw [hdek, Except.ok.injEq] at hdek'
      subst hdek'
      rw [hsigner, Except.ok.injEq] at hsigner'
      rw [hslot, Except.ok.injEq] at hslot'
      subst hsigner' hslot'
      exact hcan hne
    · intro hsafe hne
      exact hsafe dek signer slot hdek hsigner hslot hne

private theorem removeDeviceToken_iff (h : (KeystoreFile.v3 file).toBytes C K = .ok bytes) (identity : Fsec.Identity C) :
    (∀ e, ((KeystoreFile.v3 file).removeDeviceToken K identity).1 = .error e →
        Unchanged K C (.v3 file) ((KeystoreFile.v3 file).removeDeviceToken K identity).2) ↔
      (Call.removeDeviceToken identity).Safe K file := by
  unfold KeystoreFile.removeDeviceToken Call.Safe
  dsimp only
  cases hdevice : file.body.device with
  | none => exact iff_of_true (fun _ _ => .refl _) fun hne => absurd rfl hne
  | some slot =>
    dsimp only
    rw [advanceEdited_iff h]
    have hne : ({ file.body with device := none } : KeystoreV2) ≠ file.body := by
      intro heq
      have hnone := congrArg KeystoreV2.device heq
      rw [hdevice] at hnone
      cases hnone
    exact ⟨fun hcan _ => hcan hne, fun hsafe _ => hsafe (Option.some_ne_none _)⟩

/-- A call on a keystore that can be serialised leaves it as it was whenever it fails, exactly if it can advance the
state whenever it comes to edit the keystore. -/
theorem failed_unchanged_iff (h : k.toBytes C K = .ok bytes) (call : Call C) :
    (∀ e, (call.run K k).1 = .error e → Unchanged K C k (call.run K k).2) ↔ ∀ file, k = .v3 file → call.Safe K file := by
  obtain ⟨file, rfl, -, -⟩ := toBytes_eq_ok.1 h
  have honly : (∀ file', KeystoreFile.v3 file = .v3 file' → call.Safe K file') ↔ call.Safe K file := by
    refine ⟨fun hall => hall file rfl, fun hsafe file' heq => ?_⟩
    rwa [← KeystoreFile.v3.inj heq]
  rw [honly]
  cases call with
  | addPasskey passphrase enrollment draws => exact addPasskey_iff h enrollment draws
  | removePasskey index identity => exact removePasskey_iff h index identity
  | setDeviceToken passphrase token draw => exact setDeviceToken_iff h token draw
  | removeDeviceToken identity => exact removeDeviceToken_iff h identity
  | continueIdentity passphrase current successor draw => exact iff_of_true (fun _ _ => .refl _) trivial

/-! ### A keystore with a device token -/

namespace Sym

open Fsec.Sym

/-- A keystore that also opens with a token. -/
@[irreducible]
private def remembered : KeystoreFile := (created.setDeviceToken keys container phrase token (draws 0)).2

private theorem remembered_ok : (remembered.toBytes container keys).toOption.isSome = true := by decide +kernel

/-- Its bytes. -/
@[irreducible]
private def rememberedBytes : Bytes := (remembered.toBytes container keys).toOption.get remembered_ok

private theorem toBytes_remembered : remembered.toBytes container keys = .ok rememberedBytes := by
  unfold rememberedBytes
  exact eq_ok_get remembered_ok

end Sym

open Fsec.Sym in
/-- The token is removed by the identity that the keystore holds. -/
theorem failed_unchanged_iff_remembered :
    (∀ e, ((Call.removeDeviceToken alice).run Sym.keys Sym.remembered).1 = .error e →
        Unchanged Sym.keys container Sym.remembered ((Call.removeDeviceToken alice).run Sym.keys Sym.remembered).2) ↔
      ∀ file, Sym.remembered = .v3 file → (Call.removeDeviceToken alice).Safe Sym.keys file :=
  failed_unchanged_iff Sym.toBytes_remembered _

open Fsec.Sym in
/-- Another identity cannot remove the token, but the keystore that it leaves is not one that can be serialised. -/
theorem failed_changed :
    ¬ ∀ (k : KeystoreFile) (bytes : Bytes) (call : Call container), k.toBytes container Sym.keys = .ok bytes →
      ∀ e, (call.run Sym.keys k).1 = .error e → Unchanged Sym.keys container k (call.run Sym.keys k).2 := by
  intro h
  have hfails : ((Call.removeDeviceToken Sym.bob).run Sym.keys Sym.remembered).1 =
      .error (.stateMismatch "keystore identity-keystore".toList) := by decide +kernel
  have hbytes := (h _ _ _ Sym.toBytes_remembered _ hfails).bytes
  rw [Sym.toBytes_remembered] at hbytes
  have hbroken : (((Call.removeDeviceToken Sym.bob).run Sym.keys Sym.remembered).2.toBytes container
      Sym.keys).toOption = none := by decide +kernel
  rw [hbytes] at hbroken
  cases hbroken

end FileSec.Keys
