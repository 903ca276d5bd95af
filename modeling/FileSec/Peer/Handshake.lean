import FileSec.Peer.Record
import FileSec.Store.Machine

/-!
# The handshake

The two sides of the handshake of a direct transfer (`transport.rs`) as functions on their state and the message that
arrives.  `Crypto` collects what they rest on; its byte strings `T` are left open, so the same functions run on bytes and
on symbolic terms.
-/

namespace FileSec.Peer

/-- `HelloMsg` -/
structure HelloMsg (T : Type) where
  magic : T
  version : Nat
  suite : Nat
  iEphemeral : T
  iNonce : T
  iPskTag : T

/-- `AuthMsg` -/
structure AuthMsg (T Pub : Type) where
  rEphemeral : T
  rNonce : T
  rIdentity : Pub
  rSig : T

/-- `ConfirmInner` -/
structure ConfirmInner (T Pub : Type) where
  iIdentity : Pub
  iSig : T

/-- What the handshake rests on: byte strings, identities, hashes, key agreement, signatures, the AEAD and the codecs
of the messages. -/
structure Crypto where
  T : Type
  decT : DecidableEq T
  /-- A constant. -/
  bytes : Bytes → T
  /-- Several byte strings, one after the other. -/
  cat : List T → T
  isEmpty : T → Bool
  /-- `blake3::Hasher` over one byte string. -/
  hash : T → T
  /-- `blake3::keyed_hash` -/
  keyedHash : T → T → T
  /-- `kdf::derive_subkey` -/
  deriveSubkey : Str → T → T
  /-- `EphemeralKeyPair::public` -/
  ephemeralPublic : T → T
  /-- `EphemeralKeyPair::agree` -/
  agree : T → T → Result T
  Pub : Type
  signPublic : Pub → T
  kemPublic : Pub → T
  /-- `PublicIdentity::fingerprint` -/
  fingerprint : Pub → T
  Private : Type
  /-- `Identity::public` -/
  publicPart : Private → Pub
  /-- `Identity::sign` -/
  sign : Private → T → T
  /-- `sign::verify` -/
  verify : T → T → T → Result Unit
  /-- Whether a signature has `SIGNATURE_LEN` bytes. -/
  isSignature : T → Bool
  /-- `aead::seal` and `aead::open` -/
  seal' : T → T → T → T → Result T
  open' : T → T → T → T → Result T
  hello : RawCodec T (HelloMsg T)
  auth : RawCodec T (AuthMsg T Pub)
  confirm : RawCodec T T
  confirmInner : RawCodec T (ConfirmInner T Pub)

instance (C : Crypto) : DecidableEq C.T := C.decT

variable (C : Crypto)

/-- `MAGIC` -/
def magic : C.T := C.bytes (asBytes "FSECP2P".toList ++ [2])

/-- `PROTO_VERSION` -/
def protoVersion : Nat := 2

/-- `SUITE_CLASSIC` -/
def suiteClassic : Nat := 1

/-- `u16::to_be_bytes` -/
def be16 (n : Nat) : Bytes := [UInt8.ofNat (n / 2 ^ 8), UInt8.ofNat n]

/-- `derive_psk` -/
def derivePsk (secret : C.T) : C.T := C.deriveSubkey "FileSec p2p transfer secret v2".toList secret

/-- `hello_proof` -/
def helloProof (kPsk : C.T) (version suite : Nat) (iEphemeral iNonce : C.T) : C.T :=
  C.keyedHash kPsk (C.cat [C.bytes (asBytes "FileSec p2p hello proof v2".toList), C.bytes (be16 version),
    C.bytes (be16 suite), iEphemeral, iNonce])

/-- `secret_commit` -/
def secretCommit (kPsk : C.T) : C.T := C.keyedHash kPsk (C.bytes (asBytes "FileSec p2p secret commit v2".toList))

/-- `transcript0` -/
def transcript0 (version suite : Nat) (iEphemeral iNonce rEphemeral rNonce rFingerprint commit : C.T) : C.T :=
  C.hash (C.cat [C.bytes (asBytes "FileSec p2p transcript v2".toList), C.bytes (be16 version), C.bytes (be16 suite),
    iEphemeral, iNonce, rEphemeral, rNonce, rFingerprint, commit])

/-- `responder_sig_msg` -/
def responderSigMsg (th0 rSignPub rKemPub : C.T) : C.T :=
  C.hash (C.cat [C.bytes (asBytes "FileSec p2p responder auth v2".toList), th0, rSignPub, rKemPub])

/-- `initiator_sig_msg` -/
def initiatorSigMsg (th0 rSignPub rKemPub iSignPub iKemPub : C.T) : C.T :=
  C.hash (C.cat [C.bytes (asBytes "FileSec p2p initiator auth v2".toList), th0, rSignPub, rKemPub, iSignPub, iKemPub])

/-- `derive_session_keys`: the keys from initiator to responder and back. -/
def deriveSessionKeys (eeDh th0 : C.T) : C.T × C.T :=
  (C.deriveSubkey "FileSec p2p session key i2r v2".toList (C.cat [eeDh, th0]),
    C.deriveSubkey "FileSec p2p session key r2i v2".toList (C.cat [eeDh, th0]))

/-- The nonce of the `Confirm` message. -/
def confirmNonce : C.T := C.bytes (recordNonce dirI2r confirmCtr)

/-- The associated data of the `Confirm` message. -/
def confirmAad (th0 : C.T) : C.T := C.cat [th0, C.bytes [confirmType], C.bytes (be64 confirmCtr)]

/-- What a completed handshake leaves a party with. -/
structure OpenSession (T : Type) where
  kI2r : T
  kR2i : T
  th0 : T

/-! ### The initiator -/

/-- `Initiator` -/
structure Initiator where
  identity : C.Private
  ephemeral : C.T
  nonce : C.T
  expectedPeerFpr : C.T
  kPsk : C.T
  secretCommit : C.T

variable {C}

/-- `Initiator::new`, with the ephemeral key and nonce it draws. -/
def Initiator.new (identity : C.Private) (expectedPeerFpr transferSecret ephemeral nonce : C.T) :
    Result (Initiator C) :=
  if C.isEmpty transferSecret then .error (.handshakeProtocol "a transfer secret is required".toList)
  else
    let kPsk := derivePsk C transferSecret
    .ok ⟨identity, ephemeral, nonce, expectedPeerFpr, kPsk, FileSec.Peer.secretCommit C kPsk⟩

/-- `Initiator::write_hello` -/
def Initiator.writeHello (i : Initiator C) : C.T :=
  C.hello.encode {
    magic := magic C
    version := protoVersion
    suite := suiteClassic
    iEphemeral := C.ephemeralPublic i.ephemeral
    iNonce := i.nonce
    iPskTag := helloProof C i.kPsk protoVersion suiteClassic (C.ephemeralPublic i.ephemeral) i.nonce }

/-- The transcript hash that the initiator computes for an `Auth` message. -/
def Initiator.th0 (i : Initiator C) (auth : AuthMsg C.T C.Pub) : C.T :=
  transcript0 C protoVersion suiteClassic (C.ephemeralPublic i.ephemeral) i.nonce auth.rEphemeral auth.rNonce
    i.expectedPeerFpr i.secretCommit

/-- `Initiator::read_auth_write_confirm` -/
def Initiator.readAuthWriteConfirm (i : Initiator C) (authBytes : C.T) : Result (C.T × OpenSession C.T) :=
  match C.auth.decode authBytes with
  | none => .error .serialization
  | some auth =>
    if C.isSignature auth.rSig = false then .error (.handshakeProtocol "wrong field length".toList)
    else
      let th0 := i.th0 auth
      if C.fingerprint auth.rIdentity ≠ i.expectedPeerFpr then .error .peerIdentityMismatch
      else
        match C.verify (C.signPublic auth.rIdentity)
          (responderSigMsg C th0 (C.signPublic auth.rIdentity) (C.kemPublic auth.rIdentity)) auth.rSig with
        | .error e => .error e
        | .ok () =>
          match C.agree i.ephemeral auth.rEphemeral with
          | .error e => .error e
          | .ok eeDh =>
            let keys := deriveSessionKeys C eeDh th0
            let iPub := C.publicPart i.identity
            let iSig := C.sign i.identity (initiatorSigMsg C th0 (C.signPublic auth.rIdentity)
              (C.kemPublic auth.rIdentity) (C.signPublic iPub) (C.kemPublic iPub))
            match C.seal' keys.1 (confirmNonce C) (confirmAad C th0) (C.confirmInner.encode ⟨iPub, iSig⟩) with
            | .error e => .error e
            | .ok sealed => .ok (C.confirm.encode sealed, ⟨keys.1, keys.2, th0⟩)

/-! ### The responder -/

variable (C) in
/-- `Responder`, without the replay cache it may share -/
structure Responder where
  identity : C.Private
  ephemeral : C.T
  nonce : C.T
  kPsk : C.T
  secretCommit : C.T
  expectedPeerFpr : Option C.T
  pending : Option (OpenSession C.T)

/-- `Responder::new`, with the ephemeral key and nonce it draws. -/
def Responder.new (identity : C.Private) (transferSecret : C.T) (expectedPeerFpr : Option C.T) (ephemeral nonce : C.T) :
    Result (Responder C) :=
  if C.isEmpty transferSecret then .error (.handshakeProtocol "a transfer secret is required".toList)
  else
    let kPsk := derivePsk C transferSecret
    .ok ⟨identity, ephemeral, nonce, kPsk, FileSec.Peer.secretCommit C kPsk, expectedPeerFpr, none⟩

/-- `HelloReplayCache` -/
structure HelloReplayCache (T : Type) where
  seen : List T
  capacity : Nat

/-- `HelloReplayCache::new` -/
def HelloReplayCache.new {T : Type} (capacity : Nat) : HelloReplayCache T := ⟨[], capacity⟩

/-- `HelloReplayCache::admit`; `lock` is whether its lock can be taken. -/
def HelloReplayCache.admit {T : Type} [DecidableEq T] (cache : HelloReplayCache T) (lock : Bool) (proof : T) :
    Result Unit × HelloReplayCache T :=
  if lock = false then (.error (.handshakeProtocol "handshake replay cache is unavailable".toList), cache)
  else if proof ∈ cache.seen then (.error (.handshakeProtocol "replayed handshake".toList), cache)
  else if cache.seen.length ≥ cache.capacity then
    (.error (.handshakeProtocol "too many handshakes under this transfer code; start a new one".toList), cache)
  else (.ok (), { cache with seen := cache.seen ++ [proof] })

/-- The checks of `read_hello_write_auth` before the replay cache: the message with a valid proof. -/
def Responder.provenHello (r : Responder C) (helloBytes : C.T) : Result (HelloMsg C.T) :=
  match C.hello.decode helloBytes with
  | none => .error .serialization
  | some hello =>
    if hello.magic ≠ magic C then .error (.handshakeProtocol "not a FileSec transfer handshake".toList)
    else if hello.version ≠ protoVersion then .error (.handshakeProtocol "unsupported handshake version".toList)
    else if hello.suite ≠ suiteClassic then .error (.handshakeProtocol "unsupported handshake suite".toList)
    else if helloProof C r.kPsk hello.version hello.suite hello.iEphemeral hello.iNonce ≠ hello.iPskTag then
      .error .transferSecretMismatch
    else .ok hello

/-- The transcript hash that the responder computes for a `Hello` message. -/
def Responder.th0 (r : Responder C) (hello : HelloMsg C.T) : C.T :=
  transcript0 C protoVersion suiteClassic hello.iEphemeral hello.iNonce (C.ephemeralPublic r.ephemeral) r.nonce
    (C.fingerprint (C.publicPart r.identity)) r.secretCommit

/-- The part of `read_hello_write_auth` after the replay cache. -/
def Responder.answer (r : Responder C) (hello : HelloMsg C.T) : Result C.T × Responder C :=
  let th0 := r.th0 hello
  match C.agree r.ephemeral hello.iEphemeral with
  | .error e => (.error e, r)
  | .ok eeDh =>
    let keys := deriveSessionKeys C eeDh th0
    let rPub := C.publicPart r.identity
    let rSig := C.sign r.identity (responderSigMsg C th0 (C.signPublic rPub) (C.kemPublic rPub))
    (.ok (C.auth.encode ⟨C.ephemeralPublic r.ephemeral, r.nonce, rPub, rSig⟩),
      { r with pending := some ⟨keys.1, keys.2, th0⟩ })

/-- `Responder::read_hello_write_auth` with the replay cache it shares, if it shares one. -/
def Responder.readHelloWriteAuth (r : Responder C) (cache : Option (HelloReplayCache C.T)) (lock : Bool)
    (helloBytes : C.T) : Result C.T × Responder C × Option (HelloReplayCache C.T) :=
  match r.provenHello helloBytes with
  | .error e => (.error e, r, cache)
  | .ok hello =>
    match cache with
    | none => ((r.answer hello).1, (r.answer hello).2, none)
    | some cache =>
      match cache.admit lock hello.iPskTag with
      | (.error e, cache) => (.error e, r, some cache)
      | (.ok (), cache) => ((r.answer hello).1, (r.answer hello).2, some cache)

variable (C) in
/-- `PeerAuth` -/
structure PeerAuth where
  fingerprint : C.T
  identity : C.Pub

/-- `Responder::read_confirm` -/
def Responder.readConfirm (r : Responder C) (confirmBytes : C.T) : Result (PeerAuth C × OpenSession C.T) :=
  match r.pending with
  | none => .error (.handshakeProtocol "handshake out of order".toList)
  | some pending =>
    match C.confirm.decode confirmBytes with
    | none => .error .serialization
    | some sealed =>
      match C.open' pending.kI2r (confirmNonce C) (confirmAad C pending.th0) sealed with
      | .error e => .error e
      | .ok innerBytes =>
        match C.confirmInner.decode innerBytes with
        | none => .error .serialization
        | some inner =>
          if C.isSignature inner.iSig = false then .error (.handshakeProtocol "wrong field length".toList)
          else
            let rPub := C.publicPart r.identity
            match C.verify (C.signPublic inner.iIdentity) (initiatorSigMsg C pending.th0 (C.signPublic rPub)
                (C.kemPublic rPub) (C.signPublic inner.iIdentity) (C.kemPublic inner.iIdentity)) inner.iSig with
            | .error e => .error e
            | .ok () =>
              if r.expectedPeerFpr.any (· ≠ C.fingerprint inner.iIdentity) then .error .peerIdentityMismatch
              else .ok (⟨C.fingerprint inner.iIdentity, inner.iIdentity⟩, pending)

/-! ### What a message that is accepted says -/

/-- The session that an agreed secret and a transcript hash give. -/
def sessionOf (C : Crypto) (eeDh th0 : C.T) : OpenSession C.T :=
  ⟨(deriveSessionKeys C eeDh th0).1, (deriveSessionKeys C eeDh th0).2, th0⟩

/-- An initiator completes with an `Auth` of the identity it expects, signed for its transcript. -/
theorem readAuthWriteConfirm_eq_ok {i : Initiator C} {authBytes confirm : C.T} {s : OpenSession C.T}
    (h : i.readAuthWriteConfirm authBytes = .ok (confirm, s)) :
    ∃ auth eeDh sealed, C.auth.decode authBytes = some auth ∧ C.fingerprint auth.rIdentity = i.expectedPeerFpr ∧
      C.verify (C.signPublic auth.rIdentity) (responderSigMsg C (i.th0 auth) (C.signPublic auth.rIdentity)
        (C.kemPublic auth.rIdentity)) auth.rSig = .ok () ∧
      C.agree i.ephemeral auth.rEphemeral = .ok eeDh ∧ s = sessionOf C eeDh (i.th0 auth) ∧
      C.seal' s.kI2r (confirmNonce C) (confirmAad C s.th0) (C.confirmInner.encode ⟨C.publicPart i.identity,
        C.sign i.identity (initiatorSigMsg C s.th0 (C.signPublic auth.rIdentity) (C.kemPublic auth.rIdentity)
          (C.signPublic (C.publicPart i.identity)) (C.kemPublic (C.publicPart i.identity)))⟩) = .ok sealed ∧
      confirm = C.confirm.encode sealed := by
  unfold Initiator.readAuthWriteConfirm at h
  split at h
  · cases h
  · rename_i auth hdec
    split at h
    · cases h
    · dsimp only at h
      split at h
      · cases h
      · rename_i hfpr
        split at h
        · cases h
        · rename_i hverify
          split at h
          · cases h
          · rename_i eeDh hagree
            split at h
            · cases h
            · rename_i sealed hseal
              simp only [Except.ok.injEq, Prod.mk.injEq] at h
              obtain ⟨rfl, rfl⟩ := h
              exact ⟨auth, eeDh, sealed, hdec, not_not.1 hfpr, hverify, hagree, rfl, hseal, rfl⟩

/-- An answer signs the transcript whose keys it leaves pending. -/
theorem answer_eq_ok {r r' : Responder C} {hello : HelloMsg C.T} {auth : C.T} (h : r.answer hello = (.ok auth, r')) :
    ∃ eeDh, C.agree r.ephemeral hello.iEphemeral = .ok eeDh ∧
      r' = { r with pending := some (sessionOf C eeDh (r.th0 hello)) } ∧
      auth = C.auth.encode ⟨C.ephemeralPublic r.ephemeral, r.nonce, C.publicPart r.identity, C.sign r.identity
        (responderSigMsg C (r.th0 hello) (C.signPublic (C.publicPart r.identity))
          (C.kemPublic (C.publicPart r.identity)))⟩ := by
  unfold Responder.answer at h
  dsimp only at h
  split at h
  · cases h
  · rename_i eeDh hagree
    simp only [Prod.mk.injEq, Except.ok.injEq] at h
    obtain ⟨rfl, rfl⟩ := h
    exact ⟨eeDh, hagree, rfl, rfl⟩

/-- Without an answer nothing becomes pending. -/
theorem answer_eq_error {r r' : Responder C} {hello : HelloMsg C.T} {e : Error} (h : r.answer hello = (.error e, r')) :
    r' = r := by
  unfold Responder.answer at h
  dsimp only at h
  split at h
  · exact (congrArg Prod.snd h).symm
  · cases h

/-- With whatever cache, a `Hello` is refused or answered. -/
theorem readHelloWriteAuth_answer {r r' : Responder C} {cache cache' : Option (HelloReplayCache C.T)} {lock : Bool}
    {helloBytes : C.T} {res : Result C.T} (h : r.readHelloWriteAuth cache lock helloBytes = (res, r', cache')) :
    ((∃ e, res = .error e) ∧ r' = r) ∨ ∃ hello, r.provenHello helloBytes = .ok hello ∧ r.answer hello = (res, r') := by
  unfold Responder.readHelloWriteAuth at h
  split at h
  · simp only [Prod.mk.injEq] at h
    obtain ⟨rfl, rfl, -⟩ := h
    exact Or.inl ⟨⟨_, rfl⟩, rfl⟩
  · rename_i hello hproven
    split at h
    · simp only [Prod.mk.injEq] at h
      obtain ⟨rfl, rfl, -⟩ := h
      exact Or.inr ⟨hello, hproven, rfl⟩
    · split at h
      · simp only [Prod.mk.injEq] at h
        obtain ⟨rfl, rfl, -⟩ := h
        exact Or.inl ⟨⟨_, rfl⟩, rfl⟩
      · simp only [Prod.mk.injEq] at h
        obtain ⟨rfl, rfl, -⟩ := h
        exact Or.inr ⟨hello, hproven, rfl⟩

/-- A responder completes with what is pending, for a `Confirm` sealed under its key and signed for its transcript. -/
theorem readConfirm_eq_ok {r : Responder C} {confirmBytes : C.T} {peer : PeerAuth C} {s : OpenSession C.T}
    (h : r.readConfirm confirmBytes = .ok (peer, s)) :
    ∃ sealed innerBytes inner, r.pending = some s ∧ C.confirm.decode confirmBytes = some sealed ∧
      C.open' s.kI2r (confirmNonce C) (confirmAad C s.th0) sealed = .ok innerBytes ∧
      C.confirmInner.decode innerBytes = some inner ∧ peer = ⟨C.fingerprint inner.iIdentity, inner.iIdentity⟩ ∧
      C.verify (C.signPublic inner.iIdentity) (initiatorSigMsg C s.th0 (C.signPublic (C.publicPart r.identity))
        (C.kemPublic (C.publicPart r.identity)) (C.signPublic inner.iIdentity) (C.kemPublic inner.iIdentity)) inner.iSig =
        .ok () ∧
      ∀ expected, r.expectedPeerFpr = some expected → expected = C.fingerprint inner.iIdentity := by
  unfold Responder.readConfirm at h
  split at h
  · cases h
  · rename_i pending hpending
    split at h
    · cases h
    · rename_i sealed hsealed
      split at h
      · cases h
      · rename_i innerBytes hopen
        split at h
        · cases h
        · rename_i inner hinner
          split at h
          · cases h
          · dsimp only at h
            split at h
            · cases h
            · rename_i hverify
              split at h
              · cases h
              · rename_i hexpected
                simp only [Except.ok.injEq, Prod.mk.injEq] at h
                obtain ⟨rfl, rfl⟩ := h
                refine ⟨sealed, innerBytes, inner, hpending, hsealed, hopen, hinner, rfl, hverify,
                  fun expected he => ?_⟩
                rw [he] at hexpected
                simpa using hexpected

end FileSec.Peer
