import FileSec.Fsec.Readers
import FileSec.Fsec.Written
import FileSec.Keys.Symbolic
import FileSec.Lib.PrefixFree
import FileSec.Peer.Handshake
import FileSec.Store.Anchors

/-!
# What authenticated bytes determine

The bytes that AEADs and signatures authenticate: the metadata of a state, what its hash is taken over, the associated
data of a manifest (`state.rs`, `format_v2.rs`), and the messages the signing key of an identity signs (`format.rs`,
`keystore.rs`, `transport.rs`).  Each determines what it was made from, and messages of different roles differ.
-/

namespace FileSec.Keys

open Fsec

/-! ### Fields behind their lengths -/

private theorem leBytes_succ (k n : Nat) : leBytes (k + 1) n = UInt8.ofNat n :: leBytes k (n / 256) := by
  unfold leBytes
  rw [List.range_succ_eq_map, List.map_cons, List.map_map, Nat.pow_zero, Nat.div_one]
  refine congrArg _ (List.map_congr_left fun i _ => ?_)
  show UInt8.ofNat (n / 256 ^ (i + 1)) = UInt8.ofNat (n / 256 / 256 ^ i)
  rw [Nat.div_div_eq_div_mul, Nat.pow_succ']

@[simp] theorem leBytes_length (k n : Nat) : (leBytes k n).length = k := by
  simp [leBytes]

/-- The `k` low bytes determine a number that needs no more. -/
theorem leBytes_injOn (k : Nat) : Set.InjOn (leBytes k) {n | n < 256 ^ k} := by
  induction k with
  | zero =>
    intro m hm n hn _
    change m < 256 ^ 0 at hm
    change n < 256 ^ 0 at hn
    omega
  | succ k ih =>
    intro m hm n hn h
    rw [leBytes_succ, leBytes_succ, List.cons.injEq] at h
    have hlow : m % 256 = n % 256 := by
      have := congrArg UInt8.toNat h.1
      simpa using this
    have hbound : ∀ {i}, i ∈ {n : Nat | n < 256 ^ (k + 1)} → i / 256 ∈ {n : Nat | n < 256 ^ k} := by
      intro i hi
      change i < 256 ^ (k + 1) at hi
      rw [Nat.pow_succ'] at hi
      exact Nat.div_lt_of_lt_mul hi
    have hhigh : m / 256 = n / 256 := ih (hbound hm) (hbound hn) h.2
    omega

/-- The byte strings whose length is a `u64`. -/
def Sized : Set Bytes := {f | f.length ∈ {n | n < 256 ^ 8}}

theorem sized_of_length {f : Bytes} (h : f.length < 2 ^ 64) : f ∈ Sized := by
  show f.length < 256 ^ 8
  omega

theorem lengthPrefixed_on : PrefixFree.On Sized lengthPrefixed :=
  (PrefixFree.on_of_length (fun _ _ => leBytes_length 8 _) (leBytes_injOn 8)).withLength

/-! ### States -/

/-- The fields of a state behind the context: those of the metadata, and the payload or its hash. -/
def preimageFields (p : StatePreimage Bytes Bytes) : List Bytes :=
  [p.identityFingerprint, objectTag p.objectType, asBytes p.objectId, leBytes 2 p.suiteId, leBytes 8 p.epoch,
    p.previousStateHash, p.payload]

/-- The bytes that `expected_hash` feeds to the hash. -/
def hashInput (p : StatePreimage Bytes Bytes) : Bytes := (stateHashContext :: preimageFields p).flatMap lengthPrefixed

theorem hashState_eq (P : Prims) (p : StatePreimage Bytes Bytes) : hashState P p = P.hashContent (hashInput p) := rfl

theorem authenticatedData_eq (s : StateMetadata Bytes) :
    authenticatedData s = (stateAadContext :: preimageFields (s.preimage s.currentStateHash)).flatMap lengthPrefixed :=
  rfl

/-- The fields are of the types that the code gives them: arrays of 32 bytes, a `u16`, a `u64`, and a text and a payload
of at most `isize::MAX` bytes. -/
structure PreimageFits (p : StatePreimage Bytes Bytes) : Prop where
  identityFingerprint : p.identityFingerprint.length = 32
  objectId : byteLen p.objectId < 2 ^ 63
  suiteId : p.suiteId < 2 ^ 16
  epoch : p.epoch ≤ u64Max
  previousStateHash : p.previousStateHash.length = 32
  payload : p.payload.length < 2 ^ 63

/-- The same for a state with its hash. -/
structure StateFits (s : StateMetadata Bytes) : Prop where
  fields : PreimageFits (s.preimage s.currentStateHash)
  currentStateHash : s.currentStateHash.length = 32

theorem objectTag_injective : Function.Injective objectTag := by
  intro a b h
  cases a <;> cases b <;> first | rfl | exact absurd h (by decide)

private theorem objectTag_length (t : StateObjectType) : (objectTag t).length < 2 ^ 64 := by
  cases t <;> decide

private theorem asBytes_length (s : Str) : (asBytes s).length = byteLen s := by
  induction s with
  | nil => rfl
  | cons c s ih =>
    rw [byteLen_cons, ← ih]
    simp [asBytes]

private theorem PreimageFits.sized {p : StatePreimage Bytes Bytes} (h : PreimageFits p) :
    ∀ f ∈ preimageFields p, f ∈ Sized := by
  intro f hf
  refine sized_of_length ?_
  simp only [preimageFields, List.mem_cons, List.not_mem_nil, or_false] at hf
  rcases hf with rfl | rfl | rfl | rfl | rfl | rfl | rfl
  · rw [h.identityFingerprint]
    omega
  · exact objectTag_length _
  · have hid := h.objectId
    rw [asBytes_length]
    omega
  · rw [leBytes_length]
    omega
  · rw [leBytes_length]
    omega
  · rw [h.previousStateHash]
    omega
  · have hpayload := h.payload
    omega

/-- The fields determine the metadata and the payload. -/
private theorem preimageFields_inj {p q : StatePreimage Bytes Bytes} (hp : PreimageFits p) (hq : PreimageFits q)
    (h : preimageFields p = preimageFields q) : p = q := by
  simp only [preimageFields, List.cons.injEq, and_true] at h
  obtain ⟨hidentity, htag, hid, hsuite, hepoch, hprevious, hpayload⟩ := h
  have hpe := hp.epoch
  have hqe := hq.epoch
  unfold u64Max at hpe hqe
  have hsuite := leBytes_injOn 2 hp.suiteId hq.suiteId hsuite
  have hepoch := leBytes_injOn 8 (show p.epoch < 256 ^ 8 by omega) (show q.epoch < 256 ^ 8 by omega) hepoch
  have htype := objectTag_injective htag
  have hid := asBytes_injective hid
  cases p
  cases q
  rw [StatePreimage.mk.injEq]
  exact ⟨hidentity, htype, hid, hsuite, hepoch, hprevious, hpayload⟩

/-- Fields behind one context determine the metadata and the payload, and where they end. -/
private theorem contextFields_inj {context : Bytes} (hc : context.length < 2 ^ 64) {p q : StatePreimage Bytes Bytes}
    (hp : PreimageFits p) (hq : PreimageFits q)
    (h : (context :: preimageFields p).flatMap lengthPrefixed = (context :: preimageFields q).flatMap lengthPrefixed) :
    p = q := by
  have hsized : ∀ {r}, PreimageFits r → ∀ f ∈ context :: preimageFields r, f ∈ Sized := by
    intro r hr f hf
    rcases List.mem_cons.1 hf with rfl | hf
    · exact sized_of_length hc
    · exact hr.sized f hf
  have hfields := lengthPrefixed_on.flatMap_inj (hsized hp) (hsized hq) rfl h
  exact preimageFields_inj hp hq (List.cons.inj hfields).2

/-- What a state hash is taken over determines the metadata and the payload. -/
theorem hashInput_inj {p q : StatePreimage Bytes Bytes} (hp : PreimageFits p) (hq : PreimageFits q)
    (h : hashInput p = hashInput q) : p = q :=
  contextFields_inj (by decide) hp hq h

/-- The authenticated data of a state determine it. -/
theorem authenticatedData_inj {s t : StateMetadata Bytes} (hs : StateFits s) (ht : StateFits t)
    (h : authenticatedData s = authenticatedData t) : s = t := by
  have hp := contextFields_inj (by decide) hs.fields ht.fields h
  cases s
  cases t
  simp only [StateMetadata.preimage, StatePreimage.mk.injEq] at hp
  obtain ⟨rfl, rfl, rfl, rfl, rfl, rfl, rfl⟩ := hp
  rfl

/-! ### Manifests -/

/-- `manifest_aad` -/
def manifestAad (headerBytes : Bytes) (state : StateMetadata Bytes) : Bytes :=
  [headerBytes, authenticatedData state].flatMap lengthPrefixed

private theorem authenticatedData_sized {s : StateMetadata Bytes} (hs : StateFits s) : authenticatedData s ∈ Sized := by
  have hctx : stateAadContext.length = 41 := by decide
  have htag : (objectTag s.objectType).length ≤ 14 := by cases s.objectType <;> decide
  have hidentity : s.identityFingerprint.length = 32 := hs.fields.identityFingerprint
  have hid : byteLen s.objectId < 2 ^ 63 := hs.fields.objectId
  have hprevious : s.previousStateHash.length = 32 := hs.fields.previousStateHash
  have hcurrent := hs.currentStateHash
  refine sized_of_length ?_
  simp only [authenticatedData, lengthPrefixed, List.flatMap_cons, List.flatMap_nil, List.length_append, leBytes_length,
    List.length_nil, asBytes_length]
  omega

/-- The associated data of a manifest determine the header bytes and the state. -/
theorem manifestAad_inj {header header' : Bytes} {s t : StateMetadata Bytes} (hh : header.length < 2 ^ 64)
    (hh' : header'.length < 2 ^ 64) (hs : StateFits s) (ht : StateFits t)
    (h : manifestAad header s = manifestAad header' t) : header = header' ∧ s = t := by
  have hsized : ∀ {header s}, header.length < 2 ^ 64 → StateFits s → ∀ f ∈ [header, authenticatedData s], f ∈ Sized := by
    intro header s hh hs f hf
    simp only [List.mem_cons, List.not_mem_nil, or_false] at hf
    rcases hf with rfl | rfl
    · exact sized_of_length hh
    · exact authenticatedData_sized hs
  have hfields := lengthPrefixed_on.flatMap_inj (hsized hh hs) (hsized hh' ht) rfl h
  simp only [List.cons.injEq, and_true] at hfields
  exact ⟨hfields.1, authenticatedData_inj hs ht hfields.2⟩

/-! ### The roles of the signing key -/

variable {P : Prims} (C : FsecPrims P)

/-- What a handshake uses besides the primitives of containers. -/
structure HandshakePrims where
  keyedHash : Bytes → Bytes → Bytes
  ephemeralPublic : Bytes → Bytes
  agree : Bytes → Bytes → Result Bytes
  hello : RawCodec Bytes (Peer.HelloMsg Bytes)
  auth : RawCodec Bytes (Peer.AuthMsg Bytes Peer.PublicIdentity)
  confirm : RawCodec Bytes Bytes
  confirmInner : RawCodec Bytes (Peer.ConfirmInner Bytes Peer.PublicIdentity)

variable (H : HandshakePrims)

/-- `sign::verify` on a key of whatever length. -/
def signVerify (publicKey msg signature : Bytes) : Result Unit :=
  if h : publicKey.length = 32 then C.verify ⟨publicKey, h⟩ msg signature
  else .error (.badKey "ed25519 public key".toList)

/-- The handshake on byte strings, with the keys that also sign containers and keystores. -/
@[reducible] def handshakeCrypto : Peer.Crypto where
  T := Bytes
  decT := inferInstance
  bytes := id
  cat := List.flatten
  isEmpty := List.isEmpty
  hash := P.hashContent
  keyedHash := H.keyedHash
  deriveSubkey := C.deriveKey
  ephemeralPublic := H.ephemeralPublic
  agree := H.agree
  Pub := Peer.PublicIdentity
  signPublic := Peer.PublicIdentity.signPublic
  kemPublic := Peer.PublicIdentity.kemPublic
  fingerprint := Peer.PublicIdentity.fingerprint P.hashContent
  Private := Fsec.Identity C
  publicPart := Fsec.Identity.publicPart
  sign := Fsec.Identity.sign
  verify := signVerify C
  isSignature signature := signature.length = signatureLen
  seal' key nonce aad plaintext := .ok (P.sealBytes .xchacha20Poly1305 key nonce (C.aad aad) plaintext)
  open' key nonce aad ciphertext := aeadOpen C key nonce aad ciphertext
  hello := H.hello
  auth := H.auth
  confirm := H.confirm
  confirmInner := H.confirmInner

/-- What the signing key of an identity signs for. -/
inductive Role where
  | containerBody
  | keystoreState
  | responder
  | initiator
  deriving DecidableEq

/-- What is signed in each role: a container that begins with the magic, the state of a keystore, and the two messages of
a handshake. -/
inductive SignedMessage where
  | containerBody (body : Bytes) (hmagic : magic <+: body)
  | keystoreState (state : StateMetadata Bytes)
  | responder (th0 rSignPub rKemPub : Bytes)
  | initiator (th0 rSignPub rKemPub iSignPub iKemPub : Bytes)

namespace SignedMessage

/-- The role. -/
def role : SignedMessage → Role
  | .containerBody .. => .containerBody
  | .keystoreState _ => .keystoreState
  | .responder .. => .responder
  | .initiator .. => .initiator

/-- The byte string that is signed. -/
def bytes : SignedMessage → Bytes
  | .containerBody body _ => P.hashContent body
  | .keystoreState state => authenticatedData state
  | .responder th0 rSignPub rKemPub => Peer.responderSigMsg (handshakeCrypto C H) th0 rSignPub rKemPub
  | .initiator th0 rSignPub rKemPub iSignPub iKemPub =>
    Peer.initiatorSigMsg (handshakeCrypto C H) th0 rSignPub rKemPub iSignPub iKemPub

/-- What is hashed for it; the state of a keystore is signed as it is. -/
def hashed : SignedMessage → Option Bytes
  | .containerBody body _ => some body
  | .keystoreState _ => none
  | .responder th0 rSignPub rKemPub =>
    some [asBytes "FileSec p2p responder auth v2".toList, th0, rSignPub, rKemPub].flatten
  | .initiator th0 rSignPub rKemPub iSignPub iKemPub =>
    some [asBytes "FileSec p2p initiator auth v2".toList, th0, rSignPub, rKemPub, iSignPub, iKemPub].flatten

end SignedMessage

/-- What the text that is hashed for a role begins with. -/
def Role.label : Role → Bytes
  | .containerBody => magic
  | .keystoreState => lengthPrefixed stateAadContext
  | .responder => asBytes "FileSec p2p responder auth v2".toList
  | .initiator => asBytes "FileSec p2p initiator auth v2".toList

/-- No label begins with that of another role. -/
private theorem label_apart {r r' : Role} (h : r ≠ r') : ¬ r.label <+: r'.label := by
  cases r <;> cases r' <;> first | exact absurd rfl h | decide

namespace SignedMessage

variable {C H} {m m' : SignedMessage} {b b' : Bytes}

theorem bytes_of_hashed (h : m.hashed = some b) : m.bytes C H = P.hashContent b := by
  cases m with
  | keystoreState state => cases h
  | containerBody body hmagic =>
    cases h
    rfl
  | responder th0 rSignPub rKemPub =>
    cases h
    rfl
  | initiator th0 rSignPub rKemPub iSignPub iKemPub =>
    cases h
    rfl

private theorem label_of_hashed (h : m.hashed = some b) : m.role.label <+: b := by
  cases m with
  | keystoreState state => cases h
  | containerBody body hmagic =>
    cases h
    exact hmagic
  | responder th0 rSignPub rKemPub =>
    cases h
    exact List.prefix_append _ _
  | initiator th0 rSignPub rKemPub iSignPub iKemPub =>
    cases h
    exact List.prefix_append _ _

/-- Different byte strings are hashed in different roles. -/
theorem hashed_ne (hrole : m.role ≠ m'.role) (h : m.hashed = some b) (h' : m'.hashed = some b') : b ≠ b' := by
  rintro rfl
  rcases List.prefix_or_prefix_of_prefix (label_of_hashed h) (label_of_hashed h') with hpre | hpre
  · exact label_apart hrole hpre
  · exact label_apart hrole.symm hpre

/-- Only the state of a keystore is not hashed. -/
private theorem hashed_eq_none (h : m.hashed = none) : ∃ state, m = .keystoreState state := by
  cases m with
  | keystoreState state => exact ⟨state, rfl⟩
  | containerBody body hmagic => cases h
  | responder th0 rSignPub rKemPub => cases h
  | initiator th0 rSignPub rKemPub iSignPub iKemPub => cases h

/-- The authenticated data of a state are longer than a hash. -/
private theorem lt_authenticatedData_length (s : StateMetadata Bytes) : 32 < (authenticatedData s).length := by
  have hctx : (lengthPrefixed stateAadContext).length = 49 := by decide
  unfold authenticatedData
  rw [List.flatMap_cons, List.length_append, hctx]
  omega

/-- Where the hash has no collisions and 32 bytes, what is signed in different roles differs. -/
theorem bytes_ne {S : Set Bytes} (hinj : Set.InjOn P.hashContent S) (hlen : ∀ b ∈ S, (P.hashContent b).length = 32)
    (hm : ∀ b ∈ m.hashed, b ∈ S) (hm' : ∀ b ∈ m'.hashed, b ∈ S) (hrole : m.role ≠ m'.role) :
    m.bytes C H ≠ m'.bytes C H := by
  have hstate : ∀ {s b}, b ∈ S → P.hashContent b ≠ authenticatedData s := by
    intro s b hb heq
    have hlong := lt_authenticatedData_length s
    rw [← heq, hlen b hb] at hlong
    omega
  cases h : m.hashed with
  | none =>
    obtain ⟨state, rfl⟩ := hashed_eq_none h
    cases h' : m'.hashed with
    | none =>
      obtain ⟨state', rfl⟩ := hashed_eq_none h'
      exact absurd rfl hrole
    | some b' =>
      rw [bytes_of_hashed h']
      exact (hstate (hm' b' h')).symm
  | some b =>
    rw [bytes_of_hashed h]
    cases h' : m'.hashed with
    | none =>
      obtain ⟨state', rfl⟩ := hashed_eq_none h'
      exact hstate (hm b h)
    | some b' =>
      rw [bytes_of_hashed h']
      intro heq
      exact hashed_ne hrole h h' (hinj (hm b h) (hm' b' h') heq)

end SignedMessage

/-! ### Where messages are signed and checked -/

section Sites

variable {C H} {K : KeyPrims} {signer : Fsec.Identity C}

private theorem take_begins {α : Type} {l l' : List α} {n : Nat} (h : l <+: l') (hn : l.length ≤ n) :
    l <+: l'.take n := by
  obtain ⟨t, rfl⟩ := h
  rw [List.take_append, List.take_of_length_le hn]
  exact List.prefix_append _ _

/-- A container ends with its sender's signature in the role of a container. -/
theorem write_signed {plan : ContainerPlan C} {data : ByteStream} {out : Bytes} (h : plan.write data = .ok out) :
    ∃ (m : SignedMessage) (body pq : Bytes), m.role = .containerBody ∧ m.hashed = some body ∧
      out = body ++ (plan.sender.sign (m.bytes C H) ++ pq) := by
  obtain ⟨encData, trailer, hw⟩ := ContainerPlan.write_eq_ok h
  obtain ⟨pq, -, rfl⟩ := hw.trailer_eq
  have hmagic : magic <+: plan.front ++ plan.encManifest ++ encData := by
    simp only [ContainerPlan.front, List.append_assoc]
    exact List.prefix_append _ _
  exact ⟨.containerBody _ hmagic, _, pq, rfl, rfl, hw.out_eq⟩

/-- A container is imported if the signature verifies in the role of a container. -/
theorem importVault_signed {file : Bytes} {imported : ImportedVault} (h : importVault C file signer = .ok imported) :
    ∃ (m : SignedMessage) (key : Bytes32) (signature : Bytes), m.role = .containerBody ∧
      imported.senderSignPublic = key ∧ C.verify key (m.bytes C H) signature = .ok () := by
  obtain ⟨header, suite, cek, manifest, layout, hparses, hsigned, -, -, hsender⟩ := importVault_eq_ok.1 h
  have hmagic : magic <+: file.take (dataStart file header + header.dataLen) := by
    refine take_begins ?_ ?_
    · rw [← hparses.magic]
      exact List.take_prefix _ _
    · unfold dataStart manifestStart preambleLen magic
      simp only [List.length_cons, List.length_nil]
      omega
  exact ⟨.containerBody _ hmagic, header.senderSignPublic, _, rfl, congrArg VerifiedSender.signPublic hsender,
    hsigned.classic⟩

/-- A keystore is built with its identity's signature in the role of a keystore. -/
theorem build_signed {body : KeystoreV2} {previous : Option (StateAnchor Bytes)} {v3 : KeystoreV3}
    (h : KeystoreV3.build K body signer previous = .ok v3) :
    v3.signature = signer.sign ((SignedMessage.keystoreState v3.state).bytes C H) := by
  unfold KeystoreV3.build at h
  obtain ⟨state, -, h⟩ := bind_eq_ok.1 h
  cases h
  rfl

/-- So is a keystore that is advanced. -/
theorem advance_signed {v3 v3' : KeystoreV3} (h : v3.advance K signer = .ok v3') :
    v3'.signature = signer.sign ((SignedMessage.keystoreState v3'.state).bytes C H) := by
  unfold KeystoreV3.advance at h
  obtain ⟨_, -, h⟩ := bind_eq_ok.1 h
  obtain ⟨state, -, h⟩ := bind_eq_ok.1 h
  cases h
  rfl

/-- A keystore verifies if its signature does in the role of a keystore. -/
theorem verify_signed {v3 : KeystoreV3} (h : v3.verify C K = .ok ()) :
    C.verify ⟨v3.publicIdentity.signPublic, v3.publicIdentity.signPublic_length⟩
      ((SignedMessage.keystoreState v3.state).bytes C H) v3.signature = .ok () := by
  unfold KeystoreV3.verify at h
  obtain ⟨_, -, h⟩ := bind_eq_ok.1 h
  obtain ⟨_, -, h⟩ := bind_eq_ok.1 h
  obtain ⟨_, -, h⟩ := bind_eq_ok.1 h
  unfold orElse at h
  split at h
  · rename_i hverify
    exact hverify
  · cases h

/-- The responder answers with its signature in its role. -/
theorem answer_signed {r r' : Peer.Responder (handshakeCrypto C H)} {hello : Peer.HelloMsg Bytes} {auth : Bytes}
    (h : r.answer hello = (.ok auth, r')) :
    ∃ (m : SignedMessage) (msg : Peer.AuthMsg Bytes Peer.PublicIdentity), m.role = .responder ∧
      auth = H.auth.encode msg ∧ msg.rSig = Fsec.Identity.sign r.identity (m.bytes C H) := by
  obtain ⟨eeDh, -, -, hauth⟩ := Peer.answer_eq_ok h
  exact ⟨.responder _ _ _, _, rfl, hauth, rfl⟩

/-- The initiator goes on if the responder's signature verifies in the responder's role, and signs in its own. -/
theorem readAuthWriteConfirm_signed {i : Peer.Initiator (handshakeCrypto C H)} {authBytes confirm : Bytes}
    {session : Peer.OpenSession Bytes} (h : i.readAuthWriteConfirm authBytes = .ok (confirm, session)) :
    ∃ (m m' : SignedMessage) (auth : Peer.AuthMsg Bytes Peer.PublicIdentity) (inner : Peer.ConfirmInner Bytes
        Peer.PublicIdentity) (sealed : Bytes),
      m.role = .responder ∧ m'.role = .initiator ∧ H.auth.decode authBytes = some auth ∧
      signVerify C auth.rIdentity.signPublic (m.bytes C H) auth.rSig = .ok () ∧
      P.sealBytes .xchacha20Poly1305 session.kI2r (Peer.confirmNonce (handshakeCrypto C H))
        (C.aad (Peer.confirmAad (handshakeCrypto C H) session.th0)) (H.confirmInner.encode inner) = sealed ∧
      confirm = H.confirm.encode sealed ∧ inner.iSig = Fsec.Identity.sign i.identity (m'.bytes C H) := by
  obtain ⟨auth, eeDh, sealed, hdec, -, hverify, -, -, hseal, hconfirm⟩ := Peer.readAuthWriteConfirm_eq_ok h
  exact ⟨.responder _ _ _, .initiator _ _ _ _ _, auth, _, sealed, rfl, rfl, hdec, hverify, Except.ok.inj hseal, hconfirm,
    rfl⟩

/-- The responder accepts an initiator whose signature verifies in the initiator's role. -/
theorem readConfirm_signed {r : Peer.Responder (handshakeCrypto C H)} {confirm : Bytes}
    {peer : Peer.PeerAuth (handshakeCrypto C H)} {session : Peer.OpenSession Bytes}
    (h : r.readConfirm confirm = .ok (peer, session)) :
    ∃ (m : SignedMessage) (signature : Bytes), m.role = .initiator ∧
      signVerify C (Peer.PublicIdentity.signPublic peer.identity) (m.bytes C H) signature = .ok () := by
  obtain ⟨sealed, innerBytes, inner, -, -, -, -, rfl, hverify, -⟩ := Peer.readConfirm_eq_ok h
  exact ⟨.initiator _ _ _ _ _, inner.iSig, rfl, hverify⟩

end Sites

/-! ### The theorem -/

/-- Ed25519 on the messages of `M`: a signature verifies no other message than the one it was made for. -/
def SignaturesBind (M : Set Bytes) : Prop :=
  ∀ secret, ∀ m ∈ M, ∀ m' ∈ M, C.verify (C.signPublic secret) m' (C.signRaw secret m) = .ok () → m' = m

/-- The authenticated encodings are injective, and a signature made in one role never verifies in another.  `S` are the
byte strings that are hashed, among which the hash has no collision, and `M` the messages that are signed or checked. -/
theorem encodings_bind {S M : Set Bytes} (hinj : Set.InjOn P.hashContent S)
    (hlen : ∀ b ∈ S, (P.hashContent b).length = 32) (hsign : SignaturesBind C M) :
    (∀ s t, StateFits s → StateFits t → authenticatedData s = authenticatedData t → s = t) ∧
    (∀ p q, PreimageFits p → PreimageFits q → hashInput p = hashInput q → p = q) ∧
    (∀ header header' s t, header.length < 2 ^ 63 → header'.length < 2 ^ 63 → StateFits s → StateFits t →
      manifestAad header s = manifestAad header' t → header = header' ∧ s = t) ∧
    ∀ m m' : SignedMessage, (∀ b ∈ m.hashed, b ∈ S) → (∀ b ∈ m'.hashed, b ∈ S) → m.role ≠ m'.role →
      m.bytes C H ≠ m'.bytes C H ∧
      (m.bytes C H ∈ M → m'.bytes C H ∈ M → ∀ signer : Fsec.Identity C,
        C.verify (C.signPublic signer.signSecret) (m'.bytes C H) (signer.sign (m.bytes C H)) ≠ .ok ()) := by
  refine ⟨fun s t => authenticatedData_inj, fun p q => hashInput_inj, ?_, ?_⟩
  · intro header header' s t hh hh'
    exact manifestAad_inj (by omega) (by omega)
  · intro m m' hm hm' hrole
    have hne : m.bytes C H ≠ m'.bytes C H := SignedMessage.bytes_ne hinj hlen hm hm' hrole
    refine ⟨hne, fun hM hM' signer hverify => ?_⟩
    exact hne (hsign signer.signSecret _ hM _ hM' hverify).symm

namespace Sym

open SymTerm Fsec.Sym

/-- The primitives of a handshake, computable. -/
def handshake : HandshakePrims where
  keyedHash key data := checksum 32 (key ++ data)
  ephemeralPublic := id
  agree a b := .ok (List.zipWith (· + ·) a b)
  hello := rawCodec ((Codec.name.pair (Codec.nat.pair (Codec.nat.pair (Codec.name.pair (Codec.name.pair
    Codec.name))))).map (fun p => ⟨p.1, p.2.1, p.2.2.1, p.2.2.2.1, p.2.2.2.2.1, p.2.2.2.2.2⟩)
    (fun h => (h.magic, h.version, h.suite, h.iEphemeral, h.iNonce, h.iPskTag)) fun _ => rfl)
  auth := rawCodec ((Codec.name.pair (Codec.name.pair (publicCodec.pair Codec.name))).map
    (fun p => ⟨p.1, p.2.1, p.2.2.1, p.2.2.2⟩) (fun a => (a.rEphemeral, a.rNonce, a.rIdentity, a.rSig)) fun _ => rfl)
  confirm := rawCodec Codec.name
  confirmInner := rawCodec ((publicCodec.pair Codec.name).map (fun p => ⟨p.1, p.2⟩) (fun c => (c.iIdentity, c.iSig))
    fun _ => rfl)

/-- A state of a keystore. -/
def keyState : StateMetadata Bytes :=
  ⟨List.replicate 32 1, .keystore, keystoreId, 0, 1, genesisHash, List.replicate 32 5⟩

/-- A message of each role. -/
def messages : List SignedMessage :=
  [.containerBody magic (List.prefix_refl _), .keystoreState keyState, .responder [1] [2] [3],
    .initiator [1] [2] [3] [4] [5]]

/-- What is hashed for them. -/
def hashedTexts : Set Bytes := {b | b ∈ messages.filterMap SignedMessage.hashed}

/-- What is signed. -/
def signedTexts : Set Bytes := {b | b ∈ messages.map (SignedMessage.bytes container handshake)}

private theorem hashedTexts_injOn : Set.InjOn FileSec.Sym.hashContent hashedTexts := by
  have hall : ∀ a ∈ messages.filterMap SignedMessage.hashed, ∀ b ∈ messages.filterMap SignedMessage.hashed,
      FileSec.Sym.hashContent a = FileSec.Sym.hashContent b → a = b := by decide
  exact fun a ha b hb => hall a ha b hb

/-- What a checksum keeps of a byte string. -/
private def weight (b : Bytes) : UInt8 × UInt8 := (UInt8.ofNat (b.map UInt8.toNat).sum, UInt8.ofNat b.length)

private theorem weight_of_checksum {secret m m' : Bytes} (h : checksum 64 (secret ++ m') = checksum 64 (secret ++ m)) :
    weight m' = weight m := by
  unfold checksum at h
  simp only [List.map_append, List.sum_append, List.length_append, List.cons.injEq, and_true, UInt8.ofNat_add]
    at h
  exact Prod.ext ((UInt8.add_right_inj _).1 h.1) ((UInt8.add_right_inj _).1 h.2)

private theorem signedTexts_bind : SignaturesBind container signedTexts := by
  have hall : ∀ m ∈ messages.map (SignedMessage.bytes container handshake),
      ∀ m' ∈ messages.map (SignedMessage.bytes container handshake), weight m' = weight m → m' = m := by decide +kernel
  intro secret m hm m' hm' h
  refine hall m hm m' hm' ?_
  have hcheck : (if checksum 64 (secret.1 ++ m) = checksum 64 (secret.1 ++ m') then (.ok () : Result Unit)
    else .error .badSignature) = .ok () := h
  split at hcheck
  · rename_i heq
    exact weight_of_checksum heq.symm
  · cases hcheck

private theorem keyState_fits : StateFits keyState :=
  ⟨⟨by decide, by decide, by decide, by decide, by decide, by decide⟩, by decide⟩

end Sym

theorem encodings_bind_roles :
    (authenticatedData Sym.keyState = authenticatedData Sym.keyState → Sym.keyState = Sym.keyState) ∧
    ∀ m ∈ Sym.messages, ∀ m' ∈ Sym.messages, m.role ≠ m'.role →
      Fsec.Sym.container.verify (Fsec.Sym.container.signPublic Fsec.Sym.alice.signSecret)
        (m'.bytes Fsec.Sym.container Sym.handshake)
        (Fsec.Sym.alice.sign (m.bytes Fsec.Sym.container Sym.handshake)) ≠ .ok () := by
  obtain ⟨hstate, -, -, hroles⟩ := encodings_bind Fsec.Sym.container Sym.handshake Sym.hashedTexts_injOn
    (fun b _ => Fsec.Sym.checksum_length (by decide) b) Sym.signedTexts_bind
  refine ⟨hstate _ _ Sym.keyState_fits Sym.keyState_fits, fun m hm m' hm' hrole => ?_⟩
  have hhashed : ∀ m ∈ Sym.messages, ∀ b ∈ m.hashed, b ∈ Sym.hashedTexts :=
    fun m hm b hb => List.mem_filterMap.2 ⟨m, hm, hb⟩
  exact (hroles m m' (hhashed m hm) (hhashed m' hm') hrole).2 (List.mem_map_of_mem hm) (List.mem_map_of_mem hm')
    Fsec.Sym.alice

end FileSec.Keys
