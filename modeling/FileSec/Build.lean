import FileSec.Opening

/-!
# Building vaults

The constructors of a vault (`format_v2.rs`): an empty one, and those filled from an in-memory `Vault`, from a v1
container or from another v2 vault.  They create the vault and put everything in with one commit, so a built vault is a
created one after one commit (`Builder.run_ok`).
-/

namespace FileSec

open CrashDir Prog

variable {P : Prims}

/-! ### Sources -/

/-- `VaultEntry` -/
structure VaultEntry where
  path : Str
  kind : EntryKind
  mtime : Option Int
  mode : Option Nat
  content : Bytes

/-- `Vault` -/
structure Vault where
  name : Str
  createdAt : Int
  entries : List VaultEntry

/-- A stream of bytes that ends or breaks off with an error. -/
structure ByteStream where
  bytes : Bytes
  fault : Option Error

/-- `VaultReader`, as far as an import looks at it; `plaintextStream` is what the function of that name returns. -/
structure VaultReader where
  name : Str
  createdAt : Int
  entries : List Entry
  plaintextStream : Result ByteStream

/-- Read `take(n)` of a stream to its end. -/
def ByteStream.take (s : ByteStream) (n : Nat) : Result Bytes × ByteStream :=
  if n ≤ s.bytes.length then (.ok (s.bytes.take n), { s with bytes := s.bytes.drop n })
  else
    match s.fault with
    | none => (.ok s.bytes, { s with bytes := [] })
    | some e => (.error e, { s with bytes := [] })

/-- The rounds of `StreamDecryptReader::refill` from the chunk `current` with the counter `index`; `rest` is what the
file has left.  The first argument bounds the number of rounds. -/
def decryptChunks (P : Prims) (alg : AeadAlg) (key streamNonce : Bytes) (aad : P.Raw) (encChunk : Nat) :
    Nat → Nat → Bytes → Bytes → Result Bytes
  | 0, _, _, _ => .error (.format "stream state".toList)
  | fuel + 1, index, current, rest =>
    if rest.take encChunk = [] then decryptChunkWith P alg key streamNonce aad index true current
    else if index = u32Max then .error .auth
    else do
      let pt ← decryptChunkWith P alg key streamNonce aad index false current
      let out ← decryptChunks P alg key streamNonce aad encChunk fuel (index + 1) (rest.take encChunk)
        (rest.drop encChunk)
      .ok (pt ++ out)

/-- `StreamDecryptReader`: making one, and what reading it to its end gives. -/
def streamDecrypt (P : Prims) (alg : AeadAlg) (key streamNonce : Bytes) (aad : P.Raw) (file : Bytes)
    (chunkSize : Nat) : Result (Result Bytes) :=
  if streamNonce.length ≠ alg.streamNonceLen then .error (.format "stream nonce length".toList)
  else if chunkSize = 0 ∨ chunkSize > maxChunkSize then .error (.format "chunk size".toList)
  else .ok (decryptChunks P alg key streamNonce aad (chunkSize + tagLen) (file.length + 1) 0
    (file.take (chunkSize + tagLen)) (file.drop (chunkSize + tagLen)))

/-- `entry_plaintext` -/
def VaultReaderV2.entryPlaintext (r : VaultReaderV2 P) (blobs : Str → Option Bytes) (e : EntryV2) :
    Result (Result Bytes) :=
  if e.chunkSize = 0 then .error (.format "bad chunk size".toList)
  else
    match e.key, e.nonce with
    | none, _ => .error (.format "missing blob key".toList)
    | some _, none => .error (.format "missing blob nonce".toList)
    | some key, some nonce => do
      let file ← openBlob blobs (← blobId e) e.size e.chunkSize
      streamDecrypt P r.suite.aeadAlg key nonce r.headerBytes file e.chunkSize

/-! ### The closures of the builders -/

/-- `op?` and then the rest of the closure. -/
def Edits.andThen (op : Op) (rest : Edits) : Edits :=
  .call op fun r =>
    match r with
    | .ok () => rest
    | .error e => .done (.error e)

/-- The closure of `from_vault`; `io i` is how the machine treats the blob of the `i`-th entry. -/
def vaultEdits (P : Prims) (io : Nat → BlobIo) : Nat → List VaultEntry → Edits
  | _, [] => .done (.ok ())
  | i, e :: es =>
    match e.kind with
    | .dir => .andThen (.addDirTrusted e.path) (vaultEdits P io (i + 1) es)
    | .file =>
      .andThen (.putStreamTrusted e.path (P.hashContent e.content) e.content.length (.ok e.content) (io i) e.mtime
        e.mode) (vaultEdits P io (i + 1) es)

/-- The closure of `from_reader_v1`, with the offset and the stream it has come to. -/
def importEdits (io : Nat → BlobIo) : Nat → List Entry → Nat → ByteStream → Edits
  | _, [], _, s =>
    .done (if s.bytes ≠ [] then .error (.format "trailing data after last entry".toList)
      else match s.fault with
        | some e => .error e
        | none => .ok ())
  | i, e :: es, offset, s =>
    match e.kind with
    | .dir => .andThen (.addDirTrusted e.path) (importEdits io (i + 1) es offset s)
    | .file =>
      if e.dataOffset ≠ offset then .done (.error (.format "non-contiguous data offset".toList))
      else
        .andThen (.putStreamTrusted e.path e.blake3 e.size (s.take e.size).1 (io i) e.mtime e.mode)
          (if offset + e.size > u64Max then .done (.error (.format "size overflow".toList))
          else importEdits io (i + 1) es (offset + e.size) (s.take e.size).2)

/-- The closure of `from_reader_v2`; `blobs` are the blobs of the source. -/
def rekeyEdits (source : VaultReaderV2 P) (blobs : Str → Option Bytes) (io : Nat → BlobIo) :
    Nat → List EntryV2 → Edits
  | _, [] => .done (.ok ())
  | i, e :: es =>
    match e.kind with
    | .dir => .andThen (.addDirTrusted e.path) (rekeyEdits source blobs io (i + 1) es)
    | .file =>
      match source.entryPlaintext blobs e with
      | .error err => .done (.error err)
      | .ok stream =>
        .andThen (.putStreamTrusted e.path e.blake3 e.size stream (io i) e.mtime e.mode)
          (rekeyEdits source blobs io (i + 1) es)

/-! ### The builders -/

/-- How the machine treats the building of a vault. -/
structure BuildIo where
  create : CreateIo
  blob : Nat → BlobIo
  commit : CommitIo

/-- `create` or `create_with_object_id`. -/
def createFor (P : Prims) (identity : Identity) (suite : SuiteId) (name : Str) (createdAt : Int)
    (objectId : Option Str) (io : CreateIo) : HostM P (VaultReaderV2 P) :=
  match objectId with
  | some id => createWithObjectId P identity suite name createdAt id io
  | none => create P identity suite name createdAt io

/-- `me.commit_build(edits)?; Ok(me)` -/
def VaultReaderV2.fill (r : VaultReaderV2 P) (edits : Edits) (io : CommitIo) : HostM P (VaultReaderV2 P) :=
  ExceptT.mk fun h =>
    let (res, s) := exec (commitBuild edits io) ⟨r, h⟩
    (res.map fun _ => s.reader, s.host)

/-- `from_vault_inner` -/
def fromVault (identity : Identity) (suite : SuiteId) (vault : Vault) (objectId : Option Str) (io : BuildIo) :
    HostM P (VaultReaderV2 P) := do
  let me ← createFor P identity suite vault.name vault.createdAt objectId io.create
  me.fill (vaultEdits P io.blob 0 vault.entries) io.commit

/-- `from_reader_v1_inner` -/
def fromReaderV1 (identity : Identity) (suite : SuiteId) (reader : VaultReader) (objectId : Option Str)
    (io : BuildIo) : HostM P (VaultReaderV2 P) := do
  let me ← createFor P identity suite reader.name reader.createdAt objectId io.create
  let plaintext ← reader.plaintextStream
  me.fill (importEdits io.blob 0 reader.entries 0 plaintext) io.commit

/-- `from_reader_v2_inner` -/
def fromReaderV2 (identity : Identity) (suite : SuiteId) (source : VaultReaderV2 P) (blobs : Str → Option Bytes)
    (objectId : Option Str) (io : BuildIo) : HostM P (VaultReaderV2 P) := do
  let me ← createFor P identity suite source.manifest.vaultName source.manifest.createdAt objectId io.create
  me.fill (rekeyEdits source blobs io.blob 0 source.manifest.entries) io.commit

/-- The ways to build a vault. -/
inductive Builder (P : Prims) where
  | create (suite : SuiteId) (name : Str) (createdAt : Int) (objectId : Option Str) (io : CreateIo)
  | fromVault (suite : SuiteId) (vault : Vault) (objectId : Option Str) (io : BuildIo)
  | fromReaderV1 (suite : SuiteId) (reader : VaultReader) (objectId : Option Str) (io : BuildIo)
  | fromReaderV2 (suite : SuiteId) (source : VaultReaderV2 P) (blobs : Str → Option Bytes) (objectId : Option Str)
      (io : BuildIo)

/-- Run a builder. -/
def Builder.run (identity : Identity) : Builder P → HostM P (VaultReaderV2 P)
  | .create suite name createdAt objectId io => createFor P identity suite name createdAt objectId io
  | .fromVault suite vault objectId io => FileSec.fromVault identity suite vault objectId io
  | .fromReaderV1 suite reader objectId io => FileSec.fromReaderV1 identity suite reader objectId io
  | .fromReaderV2 suite source blobs objectId io => FileSec.fromReaderV2 identity suite source blobs objectId io

/-! ### What creating leaves -/

/-- The session after an empty vault has been created on the machine `h`. -/
structure Session.Created (s : Session P) (identity : Identity) (h : Host P) : Prop where
  belongs : s.reader.Belongs identity
  empty : s.reader.manifest.entries = []
  view : s.reader.view = viewOf s.reader.manifest
  pending : s.reader.pendingReclaim = []
  /-- The manifest on disk is the reader's, sealed by the reader as it was without a state. -/
  sealed : ∃ state nonce, s.reader.state = some state ∧
    VaultReaderV2.nextState { s.reader with state := none } s.reader.manifest = .ok state ∧
    nonce.length = s.reader.suite.aeadAlg.nonceLen ∧
    s.host.top.shown .manifest = some (s.reader.sealedRaw s.reader.manifest state nonce) ∧
    s.host.top.versions .manifest ⊆
      some (s.reader.sealedRaw s.reader.manifest state nonce) :: h.top.versions .manifest
  header : s.host.top.shown .header = some s.reader.headerBytes ∧
    s.host.top.versions .header ⊆ some s.reader.headerBytes :: h.top.versions .header
  blobs : ∃ ok, s.host.blobs = h.blobs.sync ok
  rng : ∃ k, s.host.rng = fun i => h.rng (i + k)

theorem openHeader_encodeHeader {suite : SuiteId} {vaultId key : Bytes} {stanza : P.Stanza} {identity : Identity}
    {seed : Nat} (h : P.wrapForRecipient key identity.publicPart suite seed = .ok stanza) :
    openHeader P (P.encodeHeader ⟨formatVersionV2, suite.toU16, vaultId, stanza⟩) identity =
      .ok (⟨formatVersionV2, suite.toU16, vaultId, stanza⟩, suite, key) := by
  unfold openHeader
  simp only [P.decodeHeader_encodeHeader, ne_eq, not_true_eq_false, if_false, fromU16_toU16,
    P.unwrap_wrap _ _ _ _ _ h, bind, Except.bind]

private theorem createInner_spec (identity : Identity) (suite : SuiteId) (name : Str) (createdAt : Int)
    (vaultId : Bytes) (io : CreateIo) (h : Host P) :
    wp (createInner P identity suite name createdAt vaultId io) (fun res h' => match res with
      | .ok r => Session.Created ⟨r, h'⟩ identity h
      | .error _ => True) h := by
  unfold createInner
  cases io.dirFault with
  | some e => trivial
  | none =>
    simp only [wp_bind, wp_draw]
    cases hkey : randomVec 32 (h.rng 0) with
    | error e => trivial
    | ok key =>
      simp only [wp_liftM]
      cases hw : P.wrapForRecipient key identity.publicPart suite io.wrapSeed with
      | error e => trivial
      | ok stanza =>
        unfold writeAtomic
        cases io.headerFault with
        | some e => trivial
        | none =>
          simp only [wp_bind, wp_modify, wp_pure]
          refine wp_mono (sealAndWrite_spec _ _ _ _) ?_
          intro res h' hres
          cases res with
          | error e => trivial
          | ok sealed =>
            obtain ⟨state, durable⟩ := sealed
            obtain ⟨-, nonce, hsealed⟩ := hres
            obtain ⟨hnext, hdrawn, -, rfl⟩ := hsealed
            have hnonce := randomVec_length hdrawn
            refine ⟨⟨⟨_, openHeader_encodeHeader hw⟩, rfl⟩, rfl, rfl, rfl, ⟨state, nonce, rfl, hnext, hnonce, ?_, ?_⟩,
              ⟨?_, ?_⟩, ⟨_, rfl⟩, ⟨2, rfl⟩⟩
            · exact (congrFun (shown_sync _ _) _).trans (shown_write_self _ _ _)
            · refine List.Subset.trans (versions_write_sync_self _ _ _ _) (List.cons_subset_cons _ ?_)
              exact versions_write_sync_of_ne (by decide) _
            · refine (congrFun (shown_sync _ _) _).trans ((shown_write_of_ne (by decide)).trans ?_)
              exact (congrFun (shown_sync _ _) _).trans (shown_write_self _ _ _)
            · exact List.Subset.trans (versions_write_sync_of_ne (by decide) _) (versions_write_sync_self _ _ _ _)

theorem Session.Created.shift {s : Session P} {identity : Identity} {h : Host P}
    (hs : s.Created identity { h with rng := fun i => h.rng (i + 1) }) : s.Created identity h := by
  obtain ⟨h1, h2, h3, h4, h5, h6, h7, k, hk⟩ := hs
  exact ⟨h1, h2, h3, h4, h5, h6, h7, k + 1, hk⟩

theorem createFor_spec (identity : Identity) (suite : SuiteId) (name : Str) (createdAt : Int)
    (objectId : Option Str) (io : CreateIo) (h : Host P) :
    wp (createFor P identity suite name createdAt objectId io) (fun res h' => match res with
      | .ok r => Session.Created ⟨r, h'⟩ identity h
      | .error _ => True) h := by
  cases objectId with
  | none =>
    simp only [createFor, create, wp_bind, wp_draw]
    cases hid : randomVec 16 (h.rng 0) with
    | error e => trivial
    | ok vaultId =>
      refine wp_mono (createInner_spec identity suite name createdAt vaultId io _) ?_
      intro res h' hres
      cases res with
      | error e => trivial
      | ok r => exact hres.shift
  | some id =>
    simp only [createFor, createWithObjectId]
    cases unhex id with
    | none => trivial
    | some vaultId =>
      simp only
      split
      · trivial
      · exact createInner_spec identity suite name createdAt vaultId io h

/-- A built vault is one that has been created and filled by one commit. -/
theorem Builder.run_ok {b : Builder P} {identity : Identity} {h h' : Host P} {r : VaultReaderV2 P}
    (hrun : exec (b.run identity) h = (.ok r, h')) : ∃ s : Session P, s.Created identity h ∧
      ∃ edits io, exec (commitBuild edits io) s = (.ok (), ⟨r, h'⟩) := by
  have hcreate := fun suite name createdAt objectId io => createFor_spec (P := P) identity suite name createdAt objectId io h
  -- the part of the three builders that comes after creating
  have hfill : ∀ {suite name createdAt objectId} {io : CreateIo} {rest : VaultReaderV2 P → HostM P (VaultReaderV2 P)},
      (∀ me s, exec (rest me) s = (.ok r, h') → ∃ edits io, exec (me.fill edits io) s = (.ok r, h')) →
      exec (do
        let me ← createFor P identity suite name createdAt objectId io
        rest me) h = (.ok r, h') →
      ∃ s : Session P, s.Created identity h ∧ ∃ edits io, exec (commitBuild edits io) s = (.ok (), ⟨r, h'⟩) := by
    intro suite name createdAt objectId io rest hrest he
    have hc := hcreate suite name createdAt objectId io
    unfold wp at hc
    rw [exec_bind] at he
    rcases hx : exec (createFor P identity suite name createdAt objectId io) h with ⟨res, h₁⟩
    rw [hx] at hc he
    cases res with
    | error e => simp at he
    | ok me =>
      obtain ⟨edits, io', hf⟩ := hrest me h₁ he
      refine ⟨⟨me, h₁⟩, hc, edits, io', ?_⟩
      unfold VaultReaderV2.fill at hf
      have hf' : (Except.map (fun _ => (exec (commitBuild edits io') ⟨me, h₁⟩).2.reader)
          (exec (commitBuild edits io') ⟨me, h₁⟩).1, (exec (commitBuild edits io') ⟨me, h₁⟩).2.host) = (.ok r, h') := hf
      rcases hy : exec (commitBuild edits io') ⟨me, h₁⟩ with ⟨res, s'⟩
      rw [hy] at hf'
      cases res with
      | error e => simp [Except.map] at hf'
      | ok u =>
        simp only [Except.map, Prod.mk.injEq, Except.ok.injEq] at hf'
        obtain ⟨rfl, rfl⟩ := hf'
        rfl
  cases b with
  | create suite name createdAt objectId io =>
    have hc := of_wp (hcreate suite name createdAt objectId io) hrun
    refine ⟨⟨r, h'⟩, hc, .done (.ok ()), ⟨⟨true, none, true⟩, fun _ => true⟩, rfl⟩
  | fromVault suite vault objectId io => exact hfill (fun me s hs => ⟨_, _, hs⟩) hrun
  | fromReaderV2 suite source blobs objectId io => exact hfill (fun me s hs => ⟨_, _, hs⟩) hrun
  | fromReaderV1 suite reader objectId io =>
    refine hfill (fun me s hs => ?_) hrun
    rw [exec_bind, exec_liftM] at hs
    cases hp : reader.plaintextStream with
    | error e => simp [hp] at hs
    | ok plaintext =>
      rw [hp] at hs
      exact ⟨_, _, hs⟩

end FileSec
