import FileSec.Lib.IdealAead
import FileSec.Lib.Runs
import FileSec.State

/-!
# The record layer

An open session between two peers (`transport.rs`): records are sealed under one key per direction with a counter that is
not sent.  The two parties, what they have sealed and accepted, and a network that delivers whatever it likes form a
machine; with an ideal AEAD, each party has at any time accepted exactly a prefix of what the other has sealed
(`records_in_order`).
-/

namespace FileSec.Peer

open Sealing Runs

/-- `RecordType` -/
inductive RecordType where
  | offer
  | offerDecision
  | data
  | done
  deriving DecidableEq, Repr

/-- `RecordType::to_byte` -/
def RecordType.toByte : RecordType → UInt8
  | .offer => 1
  | .offerDecision => 2
  | .data => 3
  | .done => 4

/-- `RecordType::from_byte` -/
def RecordType.fromByte (b : UInt8) : Result RecordType :=
  if b = 1 then .ok .offer
  else if b = 2 then .ok .offerDecision
  else if b = 3 then .ok .data
  else if b = 4 then .ok .done
  else .error (.handshakeProtocol "unknown record type".toList)

/-- `u64::to_be_bytes` -/
def be64 (n : Nat) : Bytes :=
  [UInt8.ofNat (n / 2 ^ 56), UInt8.ofNat (n / 2 ^ 48), UInt8.ofNat (n / 2 ^ 40), UInt8.ofNat (n / 2 ^ 32),
    UInt8.ofNat (n / 2 ^ 24), UInt8.ofNat (n / 2 ^ 16), UInt8.ofNat (n / 2 ^ 8), UInt8.ofNat n]

/-- `record_nonce` -/
def recordNonce (direction : UInt8) (counter : Nat) : Bytes := direction :: List.replicate 15 0 ++ be64 counter

/-- `record_aad` -/
def recordAad (th0 : Bytes) (recordType : UInt8) (counter : Nat) : Bytes := th0 ++ [recordType] ++ be64 counter

/-- `DIR_I2R` -/
def dirI2r : UInt8 := 1

/-- `DIR_R2I` -/
def dirR2i : UInt8 := 2

/-- `CONFIRM_CTR` -/
def confirmCtr : Nat := 0

/-- `CONFIRM_TYPE` -/
def confirmType : UInt8 := 0

/-- `FIRST_RECORD_CTR` -/
def firstRecordCtr : Nat := 1

/-- `Session` -/
structure Session where
  sendKey : Bytes
  recvKey : Bytes
  sendDir : UInt8
  recvDir : UInt8
  sendCtr : Nat
  recvCtr : Nat
  th0 : Bytes

/-- `Session::for_initiator` -/
def Session.forInitiator (kI2r kR2i th0 : Bytes) : Session :=
  ⟨kI2r, kR2i, dirI2r, dirR2i, firstRecordCtr, firstRecordCtr, th0⟩

/-- `Session::for_responder` -/
def Session.forResponder (kI2r kR2i th0 : Bytes) : Session :=
  ⟨kR2i, kI2r, dirR2i, dirI2r, firstRecordCtr, firstRecordCtr, th0⟩

/-- `checked_add(1)` on a counter. -/
def nextCtr (counter : Nat) : Result Nat :=
  if counter = u64Max then .error (.handshakeProtocol "record counter overflow".toList) else .ok (counter + 1)

/-- `Session::seal_record`, with `sealWith` for `aead::seal`. -/
def Session.sealRecord (sealWith : Bytes → Bytes → Bytes → Bytes → Result Bytes) (s : Session) (recordType : RecordType)
    (plaintext : Bytes) : Result Bytes × Session :=
  let nonce := recordNonce s.sendDir s.sendCtr
  let aad := recordAad s.th0 recordType.toByte s.sendCtr
  match sealWith s.sendKey nonce aad plaintext with
  | .error e => (.error e, s)
  | .ok ciphertext =>
    match nextCtr s.sendCtr with
    | .error e => (.error e, s)
    | .ok counter => (.ok (recordType.toByte :: ciphertext), { s with sendCtr := counter })

/-- `Session::open_record`, with `openWith` for `aead::open`. -/
def Session.openRecord (openWith : Bytes → Bytes → Bytes → Bytes → Result Bytes) (s : Session) (frame : Bytes) :
    Result (RecordType × Bytes) × Session :=
  match frame with
  | [] => (.error (.handshakeProtocol "empty record".toList), s)
  | typeByte :: ciphertext =>
    match RecordType.fromByte typeByte with
    | .error e => (.error e, s)
    | .ok recordType =>
      match openWith s.recvKey (recordNonce s.recvDir s.recvCtr) (recordAad s.th0 recordType.toByte s.recvCtr) ciphertext with
      | .error e => (.error e, s)
      | .ok plaintext =>
        match nextCtr s.recvCtr with
        | .error e => (.error e, s)
        | .ok counter => (.ok (recordType, plaintext), { s with recvCtr := counter })

/-! ### Encodings -/

theorem be64_inj {m n : Nat} (hm : m ≤ u64Max) (hn : n ≤ u64Max) (h : be64 m = be64 n) : m = n := by
  unfold be64 at h
  simp only [List.cons.injEq, and_true, ← UInt8.toNat_inj, UInt8.toNat_ofNat'] at h
  unfold u64Max at hm hn
  omega

theorem recordNonce_inj {d d' : UInt8} {m n : Nat} (hm : m ≤ u64Max) (hn : n ≤ u64Max)
    (h : recordNonce d m = recordNonce d' n) : d = d' ∧ m = n := by
  unfold recordNonce at h
  rw [List.cons_append, List.cons_append, List.cons.injEq] at h
  exact ⟨h.1, be64_inj hm hn (List.append_cancel_left h.2)⟩

theorem recordAad_inj {th0 : Bytes} {t t' : UInt8} {n : Nat} (h : recordAad th0 t n = recordAad th0 t' n) : t = t' := by
  unfold recordAad at h
  have h := List.append_cancel_left (List.append_cancel_right h)
  simpa using h

theorem toByte_injective : Function.Injective RecordType.toByte := by
  intro t t' h
  cases t <;> cases t' <;> first | rfl | exact absurd h (by decide)

theorem fromByte_eq_ok {b : UInt8} {t : RecordType} (h : RecordType.fromByte b = .ok t) : b = t.toByte := by
  unfold RecordType.fromByte at h
  split at h
  · rename_i hb
    cases h
    exact hb
  · split at h
    · rename_i hb
      cases h
      exact hb
    · split at h
      · rename_i hb
        cases h
        exact hb
      · split at h
        · rename_i hb
          cases h
          exact hb
        · cases h

@[simp] theorem fromByte_toByte (t : RecordType) : RecordType.fromByte t.toByte = .ok t := by
  cases t <;> rfl

/-! ### The machine -/

/-- The ends of a channel. -/
inductive Party where
  | initiator
  | responder
  deriving DecidableEq, Repr

/-- The other end. -/
def Party.peer : Party → Party
  | .initiator => .responder
  | .responder => .initiator

/-- The direction byte of what a party sends. -/
def Party.dir : Party → UInt8
  | .initiator => dirI2r
  | .responder => dirR2i

/-- What the handshake has left both parties with: the key each sends with and the transcript hash. -/
structure Established where
  key : Party → Bytes
  th0 : Bytes
  /-- What the initiator has sealed into its `Confirm`, and the result. -/
  confirm : Bytes
  confirmCipher : Bytes

/-- A record that a party has handed out. -/
structure SentRecord where
  recordType : RecordType
  plaintext : Bytes
  ciphertext : Bytes

/-- The frame of a record. -/
def SentRecord.frame (r : SentRecord) : Bytes := r.recordType.toByte :: r.ciphertext

/-- What the receiver is to make of a record. -/
def SentRecord.content (r : SentRecord) : RecordType × Bytes := (r.recordType, r.plaintext)

/-- The log entries of the records, and of others' ciphertexts. -/
abbrev Sealed := Sealing Bytes Bytes Bytes Bytes Bytes

/-- Both ends of a channel, and everything sealed so far that has been handed out. -/
structure Channel where
  session : Party → Session
  sent : Party → List SentRecord
  received : Party → List (RecordType × Bytes)
  log : List Sealed

/-- The session of a party after the handshake. -/
def Established.session (est : Established) : Party → Session
  | .initiator => .forInitiator (est.key .initiator) (est.key .responder) est.th0
  | .responder => .forResponder (est.key .initiator) (est.key .responder) est.th0

/-- The sealing of the `Confirm` message. -/
def Established.confirmSealing (est : Established) : Sealed :=
  ⟨est.key .initiator, recordNonce dirI2r confirmCtr, recordAad est.th0 confirmType confirmCtr, est.confirm,
    est.confirmCipher⟩

/-- The channel after the handshake. -/
def Established.channel (est : Established) : Channel := ⟨est.session, fun _ => [], fun _ => [], [est.confirmSealing]⟩

/-- What can happen: a party seals a record, the network delivers any bytes to a party, something is sealed elsewhere. -/
inductive ChannelEvent where
  | send (p : Party) (recordType : RecordType) (plaintext : Bytes)
  | deliver (p : Party) (frame : Bytes)
  | elsewhere (e : Sealed)

/-- `aead::open`, ideal: what is in the log opens. -/
def idealOpen (log : List Sealed) (key nonce aad ciphertext : Bytes) : Result Bytes :=
  match openIn log key nonce aad ciphertext with
  | some plaintext => .ok plaintext
  | none => .error .auth

variable (est : Established) (sealWith : Bytes → Bytes → Bytes → Bytes → Result Bytes)

/-- One event; keys of the channel are used by the channel alone. -/
def Channel.step (c : Channel) : ChannelEvent → Channel
  | .send p recordType plaintext =>
    match (c.session p).sealRecord sealWith recordType plaintext with
    | (.ok frame, s) =>
      { c with
        session := Function.update c.session p s
        sent := Function.update c.sent p (c.sent p ++ [⟨recordType, plaintext, frame.tail⟩])
        log := c.log ++ [⟨(c.session p).sendKey, recordNonce (c.session p).sendDir (c.session p).sendCtr,
          recordAad (c.session p).th0 recordType.toByte (c.session p).sendCtr, plaintext, frame.tail⟩] }
    | (.error _, s) => { c with session := Function.update c.session p s }
  | .deliver p frame =>
    match (c.session p).openRecord (idealOpen c.log) frame with
    | (.ok content, s) =>
      { c with
        session := Function.update c.session p s
        received := Function.update c.received p (c.received p ++ [content]) }
    | (.error _, s) => { c with session := Function.update c.session p s }
  | .elsewhere e => if e.key = est.key .initiator ∨ e.key = est.key .responder then c else { c with log := c.log ++ [e] }

/-- The keys and nonces of the channel's ciphertexts that have been handed out, the confirmation first. -/
def Channel.uses (c : Channel) : List (Bytes × Bytes) :=
  (c.log.filter fun e => e.key = est.key .initiator ∨ e.key = est.key .responder).map fun e => (e.key, e.nonce)

/-- The sealing of the `i`-th record of a party. -/
def Established.recordSealing (p : Party) (i : Nat) (r : SentRecord) : Sealed :=
  ⟨est.key p, recordNonce p.dir (i + 1), recordAad est.th0 r.recordType.toByte (i + 1), r.plaintext, r.ciphertext⟩

/-! ### What has been sealed -/

/-- Where an entry of the log comes from. -/
inductive Established.Made (est : Established) (sent : Party → List SentRecord) : Sealed → Prop
  | confirm : Established.Made est sent est.confirmSealing
  | record (p : Party) (i : Nat) (r : SentRecord) (h : (sent p)[i]? = some r) :
    Established.Made est sent (est.recordSealing p i r)
  | elsewhere (e : Sealed) (h : ¬ (e.key = est.key .initiator ∨ e.key = est.key .responder)) :
    Established.Made est sent e

/-- The channel is in order: the counters count the records, all that has been sealed under its keys are these records
and the confirmation, and each party has accepted the first ones of the other's. -/
structure Channel.Sound (c : Channel) : Prop where
  session : ∀ p, c.session p = ⟨est.key p, est.key p.peer, p.dir, p.peer.dir, (c.sent p).length + 1,
    (c.received p).length + 1, est.th0⟩
  bounded : ∀ p, (c.sent p).length + 1 ≤ u64Max
  order : ∀ p, c.received p <+: (c.sent p.peer).map SentRecord.content
  made : ∀ e ∈ c.log, est.Made c.sent e
  kept : ∀ p i r, (c.sent p)[i]? = some r → est.recordSealing p i r ∈ c.log
  fresh : (c.uses est).Nodup

variable {est sealWith} {c : Channel}

@[simp] theorem peer_peer (p : Party) : p.peer.peer = p := by
  cases p <;> rfl

theorem dir_injective : Function.Injective Party.dir := by
  intro p q h
  cases p <;> cases q <;> first | rfl | exact absurd h (by decide)

theorem channel_sound (est : Established) : est.channel.Sound est := by
  refine ⟨fun p => ?_, fun p => ?_, fun p => List.nil_prefix, ?_, ?_, ?_⟩
  · cases p <;> rfl
  · show 0 + 1 ≤ u64Max
    decide
  · intro e he
    obtain rfl := List.mem_singleton.1 he
    exact .confirm
  · intro p i r h
    simp [Established.channel] at h
  · simp [Channel.uses, Established.channel, Established.confirmSealing]

/-- An entry that answers a party's question for its next record is that record. -/
theorem Channel.Sound.answer (h : c.Sound est) {p : Party} {e : Sealed} (he : e ∈ c.log) {t : RecordType} {ct : Bytes}
    (hans : e.Answers (est.key p.peer) (recordNonce p.peer.dir ((c.received p).length + 1))
      (recordAad est.th0 t.toByte ((c.received p).length + 1)) ct) :
    ∃ r, (c.sent p.peer)[(c.received p).length]? = some r ∧ r.recordType = t ∧ e.plain = r.plaintext ∧
      r.ciphertext = ct := by
  obtain ⟨hkey, hnonce, haad, hct⟩ := hans
  have hrecv : (c.received p).length + 1 ≤ u64Max := by
    have hle := (h.order p).length_le
    rw [List.length_map] at hle
    have := h.bounded p.peer
    omega
  cases h.made e he with
  | confirm =>
    have := (recordNonce_inj (by decide) hrecv hnonce).2
    simp [confirmCtr] at this
  | record q i r hr =>
    have hi : i < (c.sent q).length := (List.getElem?_eq_some_iff.1 hr).1
    have hb := h.bounded q
    obtain ⟨hdir, hctr⟩ := recordNonce_inj (by omega) hrecv hnonce
    obtain rfl := dir_injective hdir
    have hi' : i = (c.received p).length := by omega
    subst hi'
    exact ⟨r, hr, toByte_injective (recordAad_inj haad), rfl, hct⟩
  | elsewhere _ hne =>
    refine absurd ?_ hne
    cases p with
    | initiator => exact Or.inr hkey
    | responder => exact Or.inl hkey

/-- The next record of the peer opens. -/
theorem Channel.Sound.opens (h : c.Sound est) {p : Party} {r : SentRecord}
    (hr : (c.sent p.peer)[(c.received p).length]? = some r) :
    (c.session p).openRecord (idealOpen c.log) r.frame =
      (.ok r.content, { c.session p with recvCtr := (c.session p).recvCtr + 1 }) := by
  have hlt : (c.received p).length < (c.sent p.peer).length := (List.getElem?_eq_some_iff.1 hr).1
  have hb := h.bounded p.peer
  have hopen : openIn c.log (est.key p.peer) (recordNonce p.peer.dir ((c.received p).length + 1))
      (recordAad est.th0 r.recordType.toByte ((c.received p).length + 1)) r.ciphertext = some r.plaintext := by
    refine openIn_of_mem (h.kept p.peer _ r hr) ⟨rfl, rfl, rfl, rfl⟩ fun e' he' hans => ?_
    obtain ⟨r', hr', -, hplain, -⟩ := h.answer he' hans
    obtain rfl : r' = r := Option.some.inj (hr'.symm.trans hr)
    exact hplain
  have hne : ¬ (c.received p).length + 1 = u64Max := by omega
  unfold Session.openRecord SentRecord.frame
  simp only [fromByte_toByte, h.session p, idealOpen, hopen, nextCtr, if_neg hne]
  rfl

/-- What a party accepts is the next record of its peer. -/
theorem Channel.Sound.accepted (h : c.Sound est) {p : Party} {frame : Bytes} {content : RecordType × Bytes} {s : Session}
    (hopen : (c.session p).openRecord (idealOpen c.log) frame = (.ok content, s)) :
    ∃ r, (c.sent p.peer)[(c.received p).length]? = some r ∧ content = r.content ∧ frame = r.frame ∧
      s = { c.session p with recvCtr := (c.session p).recvCtr + 1 } := by
  unfold Session.openRecord at hopen
  split at hopen
  · cases hopen
  · rename_i b ct
    split at hopen
    · cases hopen
    · rename_i t ht
      obtain rfl := fromByte_eq_ok ht
      split at hopen
      · cases hopen
      · rename_i pt hpt
        split at hopen
        · cases hopen
        · rename_i ctr hctr
          simp only [Prod.mk.injEq, Except.ok.injEq] at hopen
          obtain ⟨rfl, rfl⟩ := hopen
          unfold idealOpen at hpt
          split at hpt
          · rename_i pt' hin
            cases hpt
            obtain ⟨e, he, hans, rfl⟩ := mem_of_openIn hin
            have hctr' : (c.session p).recvCtr = (c.received p).length + 1 := by rw [h.session p]
            have hkey : (c.session p).recvKey = est.key p.peer := by rw [h.session p]
            have hdir : (c.session p).recvDir = p.peer.dir := by rw [h.session p]
            have hth0 : (c.session p).th0 = est.th0 := by rw [h.session p]
            rw [hctr', hkey, hdir, hth0] at hans
            obtain ⟨r, hr, rfl, hplain, rfl⟩ := h.answer he hans
            refine ⟨r, hr, by rw [hplain]; rfl, rfl, ?_⟩
            unfold nextCtr at hctr
            split at hctr
            · cases hctr
            · cases hctr
              rfl
          · cases hpt

/-- A refused frame changes nothing. -/
theorem openRecord_error {openWith : Bytes → Bytes → Bytes → Bytes → Result Bytes} {s s' : Session} {frame : Bytes}
    {e : Error} (h : s.openRecord openWith frame = (.error e, s')) : s' = s := by
  unfold Session.openRecord at h
  split at h
  · exact (congrArg Prod.snd h).symm
  · split at h
    · exact (congrArg Prod.snd h).symm
    · split at h
      · exact (congrArg Prod.snd h).symm
      · split at h
        · exact (congrArg Prod.snd h).symm
        · cases h

/-- A record that is handed out is counted. -/
theorem sealRecord_eq_ok {s s' : Session} {t : RecordType} {pt frame : Bytes}
    (h : s.sealRecord sealWith t pt = (.ok frame, s')) :
    frame.head? = some t.toByte ∧ s.sendCtr ≠ u64Max ∧ s' = { s with sendCtr := s.sendCtr + 1 } := by
  unfold Session.sealRecord at h
  simp only at h
  split at h
  · cases h
  · rename_i ct _
    unfold nextCtr at h
    by_cases hmax : s.sendCtr = u64Max
    · rw [if_pos hmax] at h
      cases h
    · rw [if_neg hmax] at h
      simp only [Prod.mk.injEq, Except.ok.injEq] at h
      obtain ⟨rfl, rfl⟩ := h
      exact ⟨rfl, hmax, rfl⟩

/-- A record that is not handed out is not counted. -/
theorem sealRecord_error {s s' : Session} {t : RecordType} {pt : Bytes} {e : Error}
    (h : s.sealRecord sealWith t pt = (.error e, s')) : s' = s := by
  unfold Session.sealRecord at h
  simp only at h
  split at h
  · exact (congrArg Prod.snd h).symm
  · split at h
    · exact (congrArg Prod.snd h).symm
    · cases h

/-! ### Steps -/

private theorem prefix_concat {α : Type} {l m : List α} {a : α} (h : l <+: m) (ha : m[l.length]? = some a) :
    l ++ [a] <+: m := by
  obtain ⟨tail, rfl⟩ := h
  rw [List.getElem?_append_right le_rfl, Nat.sub_self] at ha
  cases tail with
  | nil => simp at ha
  | cons b tail =>
    obtain rfl : b = a := by simpa using ha
    exact ⟨tail, by simp⟩

/-- The records before a new one stay where they are. -/
private theorem getElem?_concat {α : Type} {l : List α} {a r : α} {i : Nat} (h : (l ++ [a])[i]? = some r) :
    l[i]? = some r ∨ (i = l.length ∧ r = a) := by
  rcases Nat.lt_trichotomy i l.length with hi | hi | hi
  · rw [List.getElem?_append_left hi] at h
    exact Or.inl h
  · subst hi
    simp only [List.getElem?_concat_length, Option.some.injEq] at h
    exact Or.inr ⟨rfl, h.symm⟩
  · rw [List.getElem?_eq_none (by simp; omega)] at h
    cases h

private theorem sent_update {sent : Party → List SentRecord} {p q : Party} {i : Nat} {r new : SentRecord}
    (h : (sent q)[i]? = some r) : (Function.update sent p (sent p ++ [new]) q)[i]? = some r := by
  by_cases hq : q = p
  · subst hq
    rw [Function.update_self, List.getElem?_append_left (List.getElem?_eq_some_iff.1 h).1]
    exact h
  · rw [Function.update_of_ne hq]
    exact h

theorem Channel.Sound.deliver (h : c.Sound est) (p : Party) (frame : Bytes) :
    (c.step est sealWith (.deliver p frame)).Sound est := by
  unfold Channel.step
  cases hopen : (c.session p).openRecord (idealOpen c.log) frame with
  | mk res s =>
    cases res with
    | error e =>
      have hs := openRecord_error hopen
      simp only [hopen, hs, Function.update_eq_self]
      exact h
    | ok content =>
      obtain ⟨r, hr, rfl, -, rfl⟩ := h.accepted hopen
      simp only [hopen]
      refine ⟨fun q => ?_, h.bounded, fun q => ?_, h.made, h.kept, h.fresh⟩
      · by_cases hq : q = p
        · subst hq
          simp only [Function.update_self, List.length_append, List.length_singleton, h.session q]
        · simp only [Function.update_of_ne hq]
          exact h.session q
      · by_cases hq : q = p
        · subst hq
          simp only [Function.update_self]
          refine prefix_concat (h.order q) ?_
          rw [List.getElem?_map, hr]
          rfl
        · simp only [Function.update_of_ne hq]
          exact h.order q

/-- The nonce of the next record has not been used under any key of the channel. -/
theorem Channel.Sound.unused (h : c.Sound est) (p : Party) :
    (est.key p, recordNonce p.dir ((c.sent p).length + 1)) ∉ c.uses est := by
  intro hmem
  obtain ⟨e, he, heq⟩ := List.mem_map.1 hmem
  obtain ⟨he, hkey⟩ := List.mem_filter.1 he
  have hnonce : e.nonce = recordNonce p.dir ((c.sent p).length + 1) := congrArg Prod.snd heq
  cases h.made e he with
  | confirm =>
    have := (recordNonce_inj (by decide) (h.bounded p) hnonce).2
    simp [confirmCtr] at this
  | record q i r hr =>
    have hi : i < (c.sent q).length := (List.getElem?_eq_some_iff.1 hr).1
    have hb := h.bounded q
    obtain ⟨hdir, hctr⟩ := recordNonce_inj (by omega) (h.bounded p) hnonce
    obtain rfl := dir_injective hdir
    omega
  | elsewhere _ hne => exact hne (by simpa using hkey)

theorem Channel.Sound.send (h : c.Sound est) (p : Party) (t : RecordType) (pt : Bytes) :
    (c.step est sealWith (.send p t pt)).Sound est := by
  unfold Channel.step
  cases hseal : (c.session p).sealRecord sealWith t pt with
  | mk res s =>
    cases res with
    | error e =>
      have hs := sealRecord_error hseal
      simp only [hseal, hs, Function.update_eq_self]
      exact h
    | ok frame =>
      obtain ⟨-, hmax, rfl⟩ := sealRecord_eq_ok hseal
      have hs := h.session p
      have hctr : (c.session p).sendCtr = (c.sent p).length + 1 := by rw [hs]
      have hkey : (c.session p).sendKey = est.key p := by rw [hs]
      have hdir : (c.session p).sendDir = p.dir := by rw [hs]
      have hth0 : (c.session p).th0 = est.th0 := by rw [hs]
      have hb := h.bounded p
      simp only [hseal, hctr, hkey, hdir, hth0]
      rw [hctr] at hmax
      have hnew : (⟨est.key p, recordNonce p.dir ((c.sent p).length + 1),
          recordAad est.th0 t.toByte ((c.sent p).length + 1), pt, frame.tail⟩ : Sealed) =
          est.recordSealing p (c.sent p).length ⟨t, pt, frame.tail⟩ := rfl
      rw [hnew]
      refine ⟨fun q => ?_, fun q => ?_, fun q => ?_, fun e he => ?_, fun q i r hr => ?_, ?_⟩
      · by_cases hq : q = p
        · subst hq
          simp only [Function.update_self, List.length_append, List.length_singleton, hs]
        · simp only [Function.update_of_ne hq]
          exact h.session q
      · by_cases hq : q = p
        · subst hq
          simp only [Function.update_self, List.length_append, List.length_singleton]
          omega
        · simp only [Function.update_of_ne hq]
          exact h.bounded q
      · dsimp only
        by_cases hq : q.peer = p
        · rw [hq, Function.update_self, List.map_append, ← hq]
          exact (h.order q).trans (List.prefix_append _ _)
        · simp only [Function.update_of_ne hq]
          exact h.order q
      · rcases List.mem_append.1 he with he | he
        · cases h.made e he with
          | confirm => exact .confirm
          | record q i r hr => exact .record q i r (sent_update hr)
          | elsewhere _ hne => exact .elsewhere _ hne
        · obtain rfl := List.mem_singleton.1 he
          refine .record p _ _ ?_
          dsimp only
          rw [Function.update_self, List.getElem?_concat_length]
      · dsimp only at hr
        by_cases hq : q = p
        · subst hq
          rw [Function.update_self] at hr
          rcases getElem?_concat hr with hr | ⟨rfl, rfl⟩
          · exact List.mem_append_left _ (h.kept q i r hr)
          · exact List.mem_append_right _ (List.mem_singleton_self _)
        · rw [Function.update_of_ne hq] at hr
          exact List.mem_append_left _ (h.kept q i r hr)
      · -- the new use differs from the ones before
        have hown : est.key p = est.key .initiator ∨ est.key p = est.key .responder := by
          cases p with
          | initiator => exact Or.inl rfl
          | responder => exact Or.inr rfl
        unfold Channel.uses
        rw [List.filter_append, List.map_append, List.nodup_append]
        refine ⟨h.fresh, ?_, ?_⟩
        · simp [Established.recordSealing, hown]
        · rintro a ha b hb rfl
          simp only [Established.recordSealing, hown, decide_true, List.filter_cons_of_pos, List.filter_nil,
            List.map_cons, List.map_nil, List.mem_singleton] at hb
          subst hb
          exact h.unused p ha

theorem Channel.Sound.step (h : c.Sound est) (e : ChannelEvent) : (c.step est sealWith e).Sound est := by
  cases e with
  | send p t pt => exact h.send p t pt
  | deliver p frame => exact h.deliver p frame
  | elsewhere e =>
    unfold Channel.step
    simp only
    split
    · exact h
    · rename_i hne
      refine ⟨h.session, h.bounded, h.order, fun e' he' => ?_, fun p i r hr => List.mem_append_left _ (h.kept p i r hr), ?_⟩
      · rcases List.mem_append.1 he' with he' | he'
        · exact h.made e' he'
        · obtain rfl := List.mem_singleton.1 he'
          exact .elsewhere _ hne
      · unfold Channel.uses
        rw [List.filter_append, List.filter_singleton, decide_eq_false hne]
        have hfresh := h.fresh
        unfold Channel.uses at hfresh
        simpa using hfresh

end FileSec.Peer
