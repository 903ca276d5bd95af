import FileSec.Lib.DolevYao
import FileSec.Peer.Handshake

/-!
# The handshake on a hostile network

Initiators and responders of any number of honest parties on a network that belongs to a Dolev-Yao adversary: it delivers
what it likes of what it can compute.  `symCrypto` runs the handshake on terms; `Net` is the network with its sessions.
-/

namespace FileSec.Peer

open DolevYao Runs

/-! ### The handshake on terms -/

/-- The public keys of an identity, and the rest of it. -/
structure SymIdentity where
  sign : Term
  kem : Term
  pq : Term
  info : Term
  deriving DecidableEq

/-- Bytes as a term. -/
def ofBytes (b : Bytes) : Term := .const (b.map UInt8.toNat)

/-- The codec of `HelloMsg`. -/
def symHello : RawCodec Term (HelloMsg Term) where
  encode m := cat [m.magic, .const [m.version], .const [m.suite], m.iEphemeral, m.iNonce, m.iPskTag]
  decode t := match t with
    | .pair magic (.pair (.const [version]) (.pair (.const [suite]) (.pair eph (.pair nonce (.pair tag (.const [])))))) =>
      some ⟨magic, version, suite, eph, nonce, tag⟩
    | _ => none
  decode_encode _ := rfl

/-- The codec of `AuthMsg`. -/
def symAuth : RawCodec Term (AuthMsg Term SymIdentity) where
  encode m := cat [m.rEphemeral, m.rNonce, m.rIdentity.sign, m.rIdentity.kem, m.rIdentity.pq, m.rIdentity.info, m.rSig]
  decode t := match t with
    | .pair eph (.pair nonce (.pair sign (.pair kem (.pair pq (.pair info (.pair sig (.const []))))))) =>
      some ⟨eph, nonce, ⟨sign, kem, pq, info⟩, sig⟩
    | _ => none
  decode_encode _ := rfl

/-- The codec of `ConfirmInner`. -/
def symInner : RawCodec Term (ConfirmInner Term SymIdentity) where
  encode m := cat [m.iIdentity.sign, m.iIdentity.kem, m.iIdentity.pq, m.iIdentity.info, m.iSig]
  decode t := match t with
    | .pair sign (.pair kem (.pair pq (.pair info (.pair sig (.const []))))) => some ⟨⟨sign, kem, pq, info⟩, sig⟩
    | _ => none
  decode_encode _ := rfl

/-- The codec of `ConfirmMsg`. -/
def symConfirm : RawCodec Term Term := ⟨id, some, fun _ => rfl⟩

/-- The primitives of the handshake on terms.  The fingerprint covers the keys and not the rest of an identity. -/
@[reducible] def symCrypto : Crypto where
  T := Term
  decT := inferInstance
  bytes := ofBytes
  cat := cat
  isEmpty t := decide (t = .const [])
  hash := .hash
  keyedHash := .mac
  deriveSubkey context t := .kdf (ofBytes (asBytes context)) t
  ephemeralPublic := .pub
  agree x t := .ok (exchange x t)
  Pub := SymIdentity
  signPublic := SymIdentity.sign
  kemPublic := SymIdentity.kem
  fingerprint i := .hash (cat [ofBytes (asBytes "FileSec identity fingerprint v1".toList), i.sign, i.kem, i.pq])
  Private := Nat
  publicPart n := ⟨.verKey n, .encKey n, .const [], .const []⟩
  sign := .sig
  verify key m s := match key with
    | .verKey n => if s = .sig n m then .ok () else .error .badSignature
    | _ => .error (.badKey "ed25519 public key".toList)
  isSignature s := match s with
    | .sig _ _ => true
    | _ => false
  seal' k n a m := .ok (.aead k n a m)
  open' k n a c := match c with
    | .aead k' n' a' m => if k' = k ∧ n' = n ∧ a' = a then .ok m else .error .auth
    | _ => .error .auth
  hello := symHello
  auth := symAuth
  confirm := symConfirm
  confirmInner := symInner

theorem symAuth_decode {t : Term} {auth : AuthMsg Term SymIdentity} (h : symAuth.decode t = some auth) :
    t = symAuth.encode auth := by
  unfold symAuth at h
  dsimp only at h
  split at h
  · cases h
    rfl
  · cases h

theorem symInner_decode {t : Term} {inner : ConfirmInner Term SymIdentity} (h : symInner.decode t = some inner) :
    t = symInner.encode inner := by
  unfold symInner at h
  dsimp only at h
  split at h
  · cases h
    rfl
  · cases h

theorem verify_eq_ok {key m s : Term} (h : symCrypto.verify key m s = .ok ()) : ∃ n, key = .verKey n ∧ s = .sig n m := by
  cases key with
  | verKey n =>
    change (if s = .sig n m then .ok () else .error .badSignature : Result Unit) = .ok () at h
    split at h
    · rename_i heq
      exact ⟨n, rfl, heq⟩
    · cases h
  | _ => cases h

theorem open_eq_ok {k n a c m : Term} (h : symCrypto.open' k n a c = .ok m) : c = .aead k n a m := by
  cases c with
  | aead k' n' a' m' =>
    change (if k' = k ∧ n' = n ∧ a' = a then .ok m' else .error .auth : Result Term) = .ok m at h
    split at h
    · rename_i heq
      obtain ⟨rfl, rfl, rfl⟩ := heq
      cases h
      rfl
    · cases h
  | _ => cases h

/-! ### The network -/

/-- An initiator of a party: whom it takes for whom, and with whom and with which keys it completed. -/
structure Dial where
  identity : Nat
  expected : Term
  secret : Nat
  initiator : Initiator symCrypto
  closed : Bool
  done : Option (SymIdentity × OpenSession Term)

/-- A responder of a party: the keys of its answers, and with whom and with which keys it completed. -/
structure Listen where
  identity : Nat
  expected : Option Term
  secret : Nat
  responder : Responder symCrypto
  closed : Bool
  answers : List (OpenSession Term)
  done : Option (SymIdentity × OpenSession Term)

/-- The network: all that has been sent, and the sessions.  A session is named by the number of its ephemeral key and
nonce. -/
structure Net where
  sent : List Term
  next : Nat
  dials : Nat → Option Dial
  listens : Nat → Option Listen

/-- What happens: a party starts a session, an initiator sends its `Hello`, or a message is delivered. -/
inductive NetEvent where
  | dial (identity : Nat) (expected : Term) (secret : Nat)
  | listen (identity : Nat) (expected : Option Term) (secret : Nat)
  | sendHello (j : Nat)
  | hello (j : Nat) (cache : Option (HelloReplayCache Term)) (lock : Bool) (t : Term)
  | auth (j : Nat) (t : Term)
  | confirm (j : Nat) (t : Term)

/-- A network on which nothing has happened. -/
def Net.start : Net := ⟨[], 0, fun _ => none, fun _ => none⟩

/-- One step.  `read_auth_write_confirm` and `read_confirm` consume their sessions. -/
def Net.step (net : Net) : NetEvent → Net
  | .dial identity expected secret =>
    match Initiator.new (C := symCrypto) identity expected (.code secret) (.scalar net.next) (.nonce net.next) with
    | .error _ => net
    | .ok i =>
      { net with
        next := net.next + 1
        dials := Function.update net.dials net.next (some ⟨identity, expected, secret, i, false, none⟩) }
  | .listen identity expected secret =>
    match Responder.new (C := symCrypto) identity (.code secret) expected (.scalar net.next) (.nonce net.next) with
    | .error _ => net
    | .ok r =>
      { net with
        next := net.next + 1
        listens := Function.update net.listens net.next (some ⟨identity, expected, secret, r, false, [], none⟩) }
  | .sendHello j =>
    match net.dials j with
    | none => net
    | some d => if d.closed then net else { net with sent := d.initiator.writeHello :: net.sent }
  | .hello j cache lock t =>
    match net.listens j with
    | none => net
    | some l =>
      if l.closed then net
      else
        match l.responder.readHelloWriteAuth cache lock t with
        | (.error _, r, _) => { net with listens := Function.update net.listens j (some { l with responder := r }) }
        | (.ok auth, r, _) =>
          { net with
            sent := auth :: net.sent
            listens := Function.update net.listens j
              (some { l with responder := r, answers := r.pending.toList ++ l.answers }) }
  | .auth j t =>
    match net.dials j with
    | none => net
    | some d =>
      if d.closed then net
      else
        match d.initiator.readAuthWriteConfirm t, symAuth.decode t with
        | .ok (confirm, session), some auth =>
          { net with
            sent := confirm :: net.sent
            dials := Function.update net.dials j (some { d with closed := true, done := some (auth.rIdentity, session) }) }
        | _, _ => { net with dials := Function.update net.dials j (some { d with closed := true }) }
  | .confirm j t =>
    match net.listens j with
    | none => net
    | some l =>
      if l.closed then net
      else
        match l.responder.readConfirm t with
        | .error _ => { net with listens := Function.update net.listens j (some { l with closed := true }) }
        | .ok (peer, session) =>
          { net with
            listens := Function.update net.listens j
              (some { l with closed := true, done := some (peer.identity, session) }) }

/-- The parties named in an event are honest, and what is delivered the adversary can compute. -/
def Deliverable (honest leaked : Nat → Prop) (net : Net) : NetEvent → Prop
  | .dial identity _ _ => honest identity
  | .listen identity _ _ => honest identity
  | .sendHello _ => True
  | .hello _ _ _ t => Knows honest leaked net.sent t
  | .auth _ t => Knows honest leaked net.sent t
  | .confirm _ t => Knows honest leaked net.sent t

end FileSec.Peer
