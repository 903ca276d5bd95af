import FileSec.Fsec.Readers

/-!
# Writing containers

`ContainerPlan` fixes all of a container but its data, and `write` streams the data into it (`format.rs`).  `Made` says
what a plan is made of, and `unwrapCek_eq_ok` that each recipient finds the content key in its header.
-/

namespace FileSec.Fsec

variable {P : Prims} (C : FsecPrims P)

/-- `u16::to_be_bytes` -/
def be16 (n : Nat) : Bytes := [UInt8.ofNat (n / 2 ^ 8), UInt8.ofNat n]

/-- `ExportOptions` -/
structure ExportOptions where
  suite : SuiteId
  chunkSize : Nat

/-- `data_ciphertext_len` -/
def dataCiphertextLen (plaintextLen chunkSize : Nat) : Nat := plaintextLen + numChunks plaintextLen chunkSize * tagLen

/-- `ContainerPlan` -/
structure ContainerPlan where
  sender : Identity C
  suite : SuiteId
  cek : Bytes
  headerBytes : Bytes
  manifestPlaintext : Bytes
  manifestNonce : Bytes
  dataStreamNonce : Bytes
  manifestLen : Nat
  dataLen : Nat
  chunkSize : Nat

/-- The loop over the recipients, with three draws for each. -/
def wrapAll (cek : Bytes) (suite : SuiteId) : List Peer.PublicIdentity → Draws → Result (List RecipientStanza)
  | [], _ => .ok []
  | r :: rs, draws => do
    let stanza ← wrapForRecipient C cek r suite draws
    let stanzas ← wrapAll cek suite rs fun i => draws (i + 3)
    .ok (stanza :: stanzas)

/-- The header that `ContainerPlan::new` lays out. -/
def planHeader (sender : Identity C) (options : ExportOptions) (vaultId manifestNonce dataStreamNonce : Bytes)
    (stanzas : List RecipientStanza) (manifestLen dataLen : Nat) : Header where
  suiteId := options.suite.toU16
  vaultId
  senderSignPublic := C.signPublic sender.signSecret
  senderKemPublic := C.kemPublic sender.kemSecret
  senderMldsaPublic := sender.mldsa.map (·.publicKey)
  senderMlkemPublic := sender.mlkem.map (·.publicKey)
  senderFpr := sender.fingerprint
  recipients := stanzas
  manifestNonce
  manifestLen
  dataStreamNonce
  dataChunkSize := options.chunkSize % 2 ^ 32
  dataLen

/-- `ContainerPlan::new`; the draws are the content key, the two nonces, the vault id and those of the stanzas. -/
def ContainerPlan.new (manifest : Manifest) (dataPlaintextLen : Nat) (sender : Identity C)
    (recipients : List Peer.PublicIdentity) (options : ExportOptions) (draws : Draws) : Result (ContainerPlan C) := do
  refuseIf (recipients = []) (.vault "a container needs at least one recipient".toList)
  refuseIf (options.chunkSize = 0) (.format "chunk size".toList)
  let suite := options.suite
  refuseIf (isHybrid suite ∧ (sender.mldsa.isNone ∨ sender.mlkem.isNone))
    (.missingPqcKey "hybrid container requires a sender with post-quantum keys".toList)
  let manifestPlaintext := C.encodeManifest manifest
  let manifestLen := manifestPlaintext.length + tagLen
  let dataLen := dataCiphertextLen dataPlaintextLen options.chunkSize
  let cek ← randomVec symKeyLen (draws 0)
  let manifestNonce ← randomVec suite.aeadAlg.nonceLen (draws 1)
  let dataStreamNonce ← randomVec suite.aeadAlg.streamNonceLen (draws 2)
  let vaultId ← randomVec 16 (draws 3)
  let stanzas ← wrapAll C cek suite recipients fun i => draws (i + 4)
  let headerBytes := C.encodeHeader
    (planHeader C sender options vaultId manifestNonce dataStreamNonce stanzas manifestLen dataLen)
  refuseIf (headerBytes.length > maxContainerHeaderLen ∨ headerBytes.length > u32Max) (.format "header too large".toList)
  .ok { sender, suite, cek, headerBytes, manifestPlaintext, manifestNonce, dataStreamNonce, manifestLen, dataLen,
        chunkSize := options.chunkSize }

variable {C}

/-- `container_len` -/
def ContainerPlan.containerLen (plan : ContainerPlan C) : Nat :=
  preambleLen + plan.headerBytes.length + plan.manifestLen + plan.dataLen + trailerLen plan.suite

/-- The preamble and the header of the container. -/
def ContainerPlan.front (plan : ContainerPlan C) : Bytes :=
  magic ++ be16 formatVersion ++ be32 plan.headerBytes.length ++ plan.headerBytes

/-- The sealed manifest. -/
def ContainerPlan.encManifest (plan : ContainerPlan C) : Bytes :=
  P.sealBytes plan.suite.aeadAlg plan.cek plan.manifestNonce (C.aad plan.headerBytes) plan.manifestPlaintext

/-- `encrypt_stream_with` on a source that may break off. -/
def ContainerPlan.encData (plan : ContainerPlan C) (data : ByteStream) : Result Bytes :=
  match data.fault with
  | some e => .error e
  | none => encryptStreamWith P plan.suite.aeadAlg plan.cek plan.dataStreamNonce (C.aad plan.headerBytes) data.bytes
      plan.chunkSize

/-- The ML-DSA half of the trailer. -/
def ContainerPlan.pqSignature (plan : ContainerPlan C) (hash : Bytes) : Result Bytes :=
  if isHybrid plan.suite then plan.sender.signPqc hash else .ok []

/-- `ContainerPlan::write` into a buffer. -/
def ContainerPlan.write (plan : ContainerPlan C) (data : ByteStream) : Result Bytes := do
  refuseIf (plan.encManifest.length ≠ plan.manifestLen) (.format "manifest length mismatch".toList)
  let encData ← plan.encData data
  refuseIf (encData.length ≠ plan.dataLen) (.format "data length mismatch".toList)
  let hash := P.hashContent (plan.front ++ plan.encManifest ++ encData)
  let pqSignature ← plan.pqSignature hash
  .ok (plan.front ++ plan.encManifest ++ encData ++ (plan.sender.sign hash ++ pqSignature))

/-! ### Exporting an in-memory vault -/

/-- `Vault::total_size` -/
def totalSizeOf (vault : Vault) : Nat := (vault.entries.map (·.content.length)).sum

/-- The loop of `build_manifest`. -/
def buildEntries (P : Prims) : List VaultEntry → Nat → List Entry
  | [], _ => []
  | e :: es, offset =>
    match e.kind with
    | .file =>
      ⟨e.path, .file, e.content.length, e.mtime, e.mode, P.hashContent e.content, offset⟩ ::
        buildEntries P es (min (offset + e.content.length) u64Max)
    | .dir => ⟨e.path, .dir, 0, e.mtime, e.mode, zeroHash, 0⟩ :: buildEntries P es offset

/-- `build_manifest` -/
def buildManifest (P : Prims) (vault : Vault) : Manifest :=
  ⟨vault.name, vault.createdAt, buildEntries P vault.entries 0⟩

/-- What `VaultContentReader` gives. -/
def vaultContent (vault : Vault) : Bytes :=
  (vault.entries.filter fun e => e.kind = .file).flatMap (·.content)

variable (C)

/-- `write_container` -/
def writeContainer (manifest : Manifest) (dataPlaintextLen : Nat) (data : ByteStream) (sender : Identity C)
    (recipients : List Peer.PublicIdentity) (options : ExportOptions) (draws : Draws) : Result Bytes := do
  let plan ← ContainerPlan.new C manifest dataPlaintextLen sender recipients options draws
  plan.write data

/-- `export_vault` into a buffer. -/
def exportVault (vault : Vault) (sender : Identity C) (recipients : List Peer.PublicIdentity) (options : ExportOptions)
    (draws : Draws) : Result Bytes :=
  writeContainer C (buildManifest P vault) (totalSizeOf vault) ⟨vaultContent vault, none⟩ sender recipients options draws

/-! ### What a plan fixes -/

variable {C}

/-- What `ContainerPlan::new` has made of its arguments. -/
structure ContainerPlan.Made (plan : ContainerPlan C) (manifest : Manifest) (dataPlaintextLen : Nat) (sender : Identity C)
    (recipients : List Peer.PublicIdentity) (options : ExportOptions) (header : Header) : Prop where
  chunkSize_ne : options.chunkSize ≠ 0
  signs : isHybrid options.suite = true → sender.mldsa.isSome = true
  chunkSize_eq : plan.chunkSize = options.chunkSize
  sender_eq : plan.sender = sender
  suite_eq : plan.suite = options.suite
  headerBytes_eq : plan.headerBytes = C.encodeHeader header
  header_le : plan.headerBytes.length ≤ maxContainerHeaderLen
  header_eq : ∃ vaultId, header = planHeader C sender options vaultId plan.manifestNonce plan.dataStreamNonce
    header.recipients plan.manifestLen plan.dataLen
  cek_length : plan.cek.length = symKeyLen
  manifestNonce_length : plan.manifestNonce.length = options.suite.aeadAlg.nonceLen
  dataStreamNonce_length : plan.dataStreamNonce.length = options.suite.aeadAlg.streamNonceLen
  manifestPlaintext_eq : plan.manifestPlaintext = C.encodeManifest manifest
  manifestLen_eq : plan.manifestLen = plan.manifestPlaintext.length + tagLen
  dataLen_eq : plan.dataLen = dataCiphertextLen dataPlaintextLen options.chunkSize
  stanzas : ∃ draws, wrapAll C plan.cek options.suite recipients draws = .ok header.recipients

theorem ContainerPlan.new_eq_ok {manifest : Manifest} {dataPlaintextLen : Nat} {sender : Identity C}
    {recipients : List Peer.PublicIdentity} {options : ExportOptions} {draws : Draws} {plan : ContainerPlan C}
    (h : ContainerPlan.new C manifest dataPlaintextLen sender recipients options draws = .ok plan) :
    ∃ header, plan.Made manifest dataPlaintextLen sender recipients options header := by
  unfold ContainerPlan.new at h
  simp only [bind_eq_ok, refuseIf_eq_ok, Except.ok.injEq, exists_const] at h
  obtain ⟨-, hchunk, hpqc, cek, hcek, manifestNonce, hmn, dataStreamNonce, hdn, vaultId, hid, stanzas, hst, hlen, rfl⟩ := h
  rw [not_or, not_lt] at hlen
  have hsigns : isHybrid options.suite = true → sender.mldsa.isSome = true := by
    intro hs
    by_contra hn
    exact hpqc ⟨hs, Or.inl (by simpa using hn)⟩
  exact ⟨_, hchunk, hsigns, rfl, rfl, rfl, rfl, hlen.1, ⟨vaultId, rfl⟩, randomVec_length hcek, randomVec_length hmn,
    randomVec_length hdn, rfl, rfl, rfl, ⟨_, hst⟩⟩

/-! ### The stanzas -/

/-- Every recipient has got a stanza. -/
private theorem wrapAll_mem {cek : Bytes} {suite : SuiteId} {recipients : List Peer.PublicIdentity} {draws : Draws}
    {stanzas : List RecipientStanza} (h : wrapAll C cek suite recipients draws = .ok stanzas) :
    ∀ r ∈ recipients, ∃ stanza ds, wrapForRecipient C cek r suite ds = .ok stanza := by
  induction recipients generalizing draws stanzas with
  | nil => simp
  | cons r rs ih =>
    obtain ⟨stanza, hs, h⟩ := bind_eq_ok.1 h
    obtain ⟨rest, hrest, -⟩ := bind_eq_ok.1 h
    intro q hq
    rcases List.mem_cons.1 hq with rfl | hq
    · exact ⟨stanza, draws, hs⟩
    · exact ih hrest q hq

/-- The first stanza with a fingerprint is the one for the first recipient with it. -/
private theorem wrapAll_find {cek : Bytes} (fpr : Bytes) {suite : SuiteId} {recipients : List Peer.PublicIdentity} {draws : Draws}
    {stanzas : List RecipientStanza} (h : wrapAll C cek suite recipients draws = .ok stanzas)
    (hmem : ∃ r ∈ recipients, r.fingerprint P.hashContent = fpr) :
    ∃ stanza ds, ∃ r ∈ recipients, stanzas.find? (fun s => s.recipientFpr = fpr) = some stanza ∧
      wrapForRecipient C cek r suite ds = .ok stanza ∧ r.fingerprint P.hashContent = fpr := by
  induction recipients generalizing draws stanzas with
  | nil => simp at hmem
  | cons r rs ih =>
    obtain ⟨stanza, hs, h⟩ := bind_eq_ok.1 h
    obtain ⟨rest, hrest, hcons⟩ := bind_eq_ok.1 h
    rw [Except.ok.injEq] at hcons
    subst hcons
    obtain ⟨hfpr, -⟩ := wrapForRecipient_eq_ok hs
    by_cases hr : r.fingerprint P.hashContent = fpr
    · exact ⟨stanza, draws, r, List.mem_cons_self, by simp [hfpr, hr], hs, hr⟩
    · have hrs : ∃ q ∈ rs, q.fingerprint P.hashContent = fpr := by
        obtain ⟨q, hq, hqf⟩ := hmem
        rcases List.mem_cons.1 hq with rfl | hq
        · exact absurd hqf hr
        · exact ⟨q, hq, hqf⟩
      obtain ⟨s, ds, q, hq, hfind, hw, hqf⟩ := ih hrest hrs
      refine ⟨s, ds, q, List.mem_cons_of_mem _ hq, ?_, hw, hqf⟩
      rw [List.find?_cons_of_neg (by simpa [hfpr] using hr)]
      exact hfind

/-- The identity is among the recipients. -/
def IsRecipient (recipients : List Peer.PublicIdentity) (identity : Identity C) : Prop :=
  ∃ r ∈ recipients, r.keys = identity.publicPart.keys

/-- No recipient has the fingerprint of the identity without the bytes under it. -/
def NoCollision (recipients : List Peer.PublicIdentity) (identity : Identity C) : Prop :=
  ∀ r ∈ recipients, r.fingerprint P.hashContent = identity.fingerprint → r.preimage = identity.publicPart.preimage

/-- Whoever is among the recipients finds the content key. -/
theorem unwrapCek_eq_ok {cek : Bytes} {suite : SuiteId} {recipients : List Peer.PublicIdentity} {draws : Draws}
    {header : Header} {identity : Identity C} (h : wrapAll C cek suite recipients draws = .ok header.recipients)
    (hcek : cek.length = symKeyLen) (hmem : IsRecipient recipients identity) (hcoll : NoCollision recipients identity) :
    unwrapCek header identity = .ok cek := by
  obtain ⟨q, hq, hkeys⟩ := hmem
  obtain ⟨stanza, ds, r, hr, hfind, hw, hfpr⟩ := wrapAll_find identity.fingerprint h
    ⟨q, hq, congrArg P.hashContent (Peer.preimage_of_keys hkeys)⟩
  obtain ⟨hkem, hmlkem⟩ := Peer.agreement_of_preimage (hcoll r hr hfpr)
  obtain ⟨-, hkey, hunwrap⟩ := wrapForRecipient_eq_ok hw
  unfold unwrapCek
  have hfind' : header.recipients.find? (fun s => s.recipientFpr = identity.fingerprint) = some stanza := hfind
  rw [hfind']
  refine hunwrap identity hcek hkem fun hs => ?_
  obtain ⟨key, hkey, hlen⟩ := hkey hs
  obtain ⟨stanza', ds', hw'⟩ := wrapAll_mem h _ hq
  obtain ⟨-, hkey', -⟩ := wrapForRecipient_eq_ok hw'
  obtain ⟨key', hkey', hlen'⟩ := hkey' hs
  have hmine : q.mlkemPublic = identity.publicPart.mlkemPublic := congrArg (fun k => k.2.2.2) hkeys
  rw [hmine] at hkey'
  rw [hkey, hkey', hmlkem key key' hkey hkey' (hlen.trans hlen'.symm)]

end FileSec.Fsec
