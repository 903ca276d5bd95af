import FileSec.Build
import FileSec.Fsec.Envelope
import FileSec.StreamDecrypt

/-!
# The `.fsec` container

A v1 container is a preamble, the header, the sealed manifest, the encrypted data stream and a trailer with the sender's
signatures (`format.rs`).  `importVault` reads one from a byte string; `verifyAndOpen` reads the same from a file that
it hashes as it goes, and leaves the data to `toVault`.
-/

namespace FileSec.Fsec

variable {P : Prims} (C : FsecPrims P)

/-- `MAGIC` -/
def magic : Bytes := [0x46, 0x53, 0x45, 0x43, 0x1a]

/-- `FORMAT_VERSION` -/
def formatVersion : Nat := 1

/-- `PREAMBLE_LEN` -/
def preambleLen : Nat := 11

/-- `MAX_CONTAINER_HEADER_LEN` -/
def maxContainerHeaderLen : Nat := 4 * 1024 * 1024

/-- The number whose big-endian bytes these are. -/
def ofBe (bytes : Bytes) : Nat := bytes.foldl (fun n b => n * 256 + b.toNat) 0

/-- `trailer_len` -/
def trailerLen (suite : SuiteId) : Nat := if isHybrid suite then signatureLen + mldsaSignatureLen else signatureLen

/-- Refuse to go on. -/
def refuseIf (p : Prop) [Decidable p] (e : Error) : Result Unit := if p then .error e else .ok ()

/-- `checked_add` on lengths. -/
def checkedAdd (a b : Nat) : Result Nat := if a + b > u64Max then .error (.format "length overflow".toList) else .ok (a + b)

/-- The AEAD adds a tag and nothing else. -/
def TagOnly (P : Prims) : Prop :=
  ∀ alg key nonce aad ct pt, P.openBytes alg key nonce aad ct = some pt → ct.length = pt.length + tagLen

/-- A decoded value, or `Error::Serialization`. -/
def decoded {α : Type} : Option α → Result α
  | some a => .ok a
  | none => .error .serialization

/-! ### Manifests -/

/-- The loop of `validate_manifest_layout`: the paths seen so far with their kinds, and the size of the files. -/
def layoutEntries : List Entry → List (Str × EntryKind) → Nat → Result (List (Str × EntryKind) × Nat)
  | [], shape, total => .ok (shape, total)
  | e :: rest, shape, total =>
    match normalizePath e.path with
    | .error err => .error err
    | .ok p =>
      if p ∈ shape.map (·.1) then .error (.format "duplicate path in manifest".toList)
      else if e.kind = .file then
        if e.dataOffset ≠ total then .error (.format "non-contiguous data offset".toList)
        else if total + e.size > u64Max then .error (.format "size overflow".toList)
        else layoutEntries rest (shape ++ [(p, e.kind)]) (total + e.size)
      else layoutEntries rest (shape ++ [(p, e.kind)]) total

/-- `validate_manifest_layout`: the plaintext size and the number of chunks. -/
def validateManifestLayout (m : Manifest) (chunkSize dataLenCiphertext : Nat) : Result (Nat × Nat) := do
  refuseIf (chunkSize = 0) (.format "bad chunk size".toList)
  refuseIf (m.entries.length > maxManifestEntries) (.format "too many manifest entries".toList)
  let (shape, totalPlaintext) ← layoutEntries m.entries [] 0
  refuseIf (numChunks totalPlaintext chunkSize > u32Max) (.format "too many chunks".toList)
  checkTreeShape shape
  let expected ← checkedAdd totalPlaintext (min (numChunks totalPlaintext chunkSize * tagLen) u64Max)
  refuseIf (expected ≠ dataLenCiphertext) (.format "data length mismatch".toList)
  .ok (totalPlaintext, numChunks totalPlaintext chunkSize)

/-- The loop of `read_exact`; the first argument bounds the number of reads. -/
def readExactLoop (P : Prims) : Nat → Nat → StreamDecryptReader P → Result (Bytes × StreamDecryptReader P)
  | 0, _, _ => .error (.io "failed to fill whole buffer".toList)
  | fuel + 1, n, r =>
    if n = 0 then .ok ([], r)
    else
      match r.read P.openBytes n with
      | (.error e, _) => .error (.io e.display)
      | (.ok bytes, r) =>
        if bytes = [] then .error (.io "failed to fill whole buffer".toList)
        else (readExactLoop P fuel (n - bytes.length) r).map fun out => (bytes ++ out.1, out.2)

/-- `read_exact` into a buffer of `n` bytes. -/
def readExact (P : Prims) (n : Nat) (r : StreamDecryptReader P) : Result (Bytes × StreamDecryptReader P) :=
  readExactLoop P (n + 1) n r

/-- The loop of `reconstruct_vault_streaming`: the entries, and the reader after them. -/
def reconstructEntries (P : Prims) :
    List Entry → Nat → StreamDecryptReader P → Result (List VaultEntry × StreamDecryptReader P)
  | [], _, r => .ok ([], r)
  | e :: rest, offset, r => do
    let path ← normalizePath e.path
    match e.kind with
    | .file =>
      refuseIf (e.dataOffset ≠ offset) (.format "non-contiguous data offset".toList)
      let (content, r) ← readExact P e.size r
      refuseIf (P.hashContent content ≠ e.blake3) .auth
      refuseIf (offset + e.size > u64Max) (.format "size overflow".toList)
      let (entries, r) ← reconstructEntries P rest (offset + e.size) r
      .ok (⟨path, .file, e.mtime, e.mode, content⟩ :: entries, r)
    | .dir =>
      let (entries, r) ← reconstructEntries P rest offset r
      .ok (⟨path, .dir, e.mtime, e.mode, []⟩ :: entries, r)

/-- `reconstruct_vault_streaming` -/
def reconstructVaultStreaming (m : Manifest) (plaintext : StreamDecryptReader P) : Result Vault := do
  let (entries, plaintext) ← reconstructEntries P m.entries 0 plaintext
  match plaintext.read P.openBytes 1 with
  | (.ok [], _) => .ok ⟨m.vaultName, m.createdAt, entries⟩
  | (.ok _, _) => .error (.format "trailing data after last entry".toList)
  | (.error e, _) => .error (.io e.display)

/-! ### What the two readers have in common -/

/-- The sender that a header names; its name comes from elsewhere. -/
def Header.sender (header : Header) : Peer.PublicIdentity where
  name := []
  createdAt := 0
  signPublic := header.senderSignPublic
  kemPublic := header.senderKemPublic
  mldsaPublic := header.senderMldsaPublic
  mlkemPublic := header.senderMlkemPublic
  signPublic_length := header.senderSignPublic.2
  kemPublic_length := header.senderKemPublic.2

/-- `VerifiedSender` -/
structure VerifiedSender where
  fingerprint : Bytes
  signPublic : Bytes32
  kemPublic : Bytes32
  mldsaPublic : Option Bytes
  mlkemPublic : Option Bytes
  deriving DecidableEq

/-- The sender whose keys and fingerprint are in the header. -/
def Header.verifiedSender (header : Header) : VerifiedSender :=
  ⟨header.senderFpr, header.senderSignPublic, header.senderKemPublic, header.senderMldsaPublic,
    header.senderMlkemPublic⟩

/-- The checks of the header fields that come before any length is trusted. -/
def Header.check (header : Header) : Result SuiteId := do
  let suite ← SuiteId.fromU16 header.suiteId
  refuseIf (header.manifestNonce.length ≠ suite.aeadAlg.nonceLen ∨
    header.dataStreamNonce.length ≠ suite.aeadAlg.streamNonceLen) (.format "bad nonce length".toList)
  refuseIf (header.dataChunkSize = 0 ∨ header.dataChunkSize > maxChunkSize) (.format "bad chunk size".toList)
  refuseIf (header.manifestLen < tagLen ∨ header.manifestLen > maxManifestLen) (.format "bad manifest length".toList)
  refuseIf (header.dataLen < tagLen) (.format "bad data length".toList)
  .ok suite

/-- `verify_hybrid_signature` and `verify_verified_sender_hybrid`, on the sender's ML-DSA key. -/
def verifyHybridSignature (suite : SuiteId) (mldsaPublic : Option Bytes) (bodyHash trailer : Bytes) : Result Unit :=
  if isHybrid suite = false then .ok ()
  else
    match mldsaPublic with
    | none => .error (.format "hybrid container missing ML-DSA sender key".toList)
    | some key =>
      if trailer.length < signatureLen then .error (.format "truncated hybrid signature".toList)
      else mldsaVerify C key bodyHash (trailer.drop signatureLen)

variable {C}

/-- The first stanza for the identity, and the content key in it. -/
def unwrapCek (header : Header) (identity : Identity C) : Result Bytes :=
  match header.recipients.find? fun s => s.recipientFpr = identity.fingerprint with
  | none => .error .notARecipient
  | some stanza => unwrapWithIdentity stanza identity

variable (C)

/-- The manifest in its sealed form. -/
def openManifestWith (suite : SuiteId) (cek : Bytes) (header : Header) (headerBytes encManifest : Bytes) :
    Result Manifest :=
  match P.openBytes suite.aeadAlg cek header.manifestNonce (C.aad headerBytes) encManifest with
  | none => .error .auth
  | some plaintext => decoded (C.decodeManifest plaintext)

/-! ### Importing a byte string -/

/-- `ImportedVault` -/
structure ImportedVault where
  vault : Vault
  suite : SuiteId
  senderFingerprint : Bytes
  senderSignPublic : Bytes32
  senderKemPublic : Bytes32
  senderMldsaPublic : Option Bytes
  senderMlkemPublic : Option Bytes

/-- The sender that an import reports. -/
def ImportedVault.sender (i : ImportedVault) : VerifiedSender :=
  ⟨i.senderFingerprint, i.senderSignPublic, i.senderKemPublic, i.senderMldsaPublic, i.senderMlkemPublic⟩

/-- The part of `import_vault` after the header has been decoded. -/
def importBody (bytes : Bytes) (manifestStart : Nat) (headerBytes : Bytes) (header : Header) (identity : Identity C) :
    Result ImportedVault := do
  let suite ← header.check
  refuseIf (header.dataLen > bytes.length) (.format "bad data length".toList)
  let manifestEnd ← checkedAdd manifestStart header.manifestLen
  let dataEnd ← checkedAdd manifestEnd header.dataLen
  let sigEnd ← checkedAdd dataEnd (trailerLen suite)
  refuseIf (bytes.length ≠ sigEnd) (.format "container length does not match header".toList)
  let bodyHash := P.hashContent (bytes.take dataEnd)
  C.verify header.senderSignPublic bodyHash ((bytes.drop dataEnd).take signatureLen)
  verifyHybridSignature C suite header.senderMldsaPublic bodyHash ((bytes.drop dataEnd).take (sigEnd - dataEnd))
  refuseIf (header.sender.fingerprint P.hashContent ≠ header.senderFpr) (.format "sender fingerprint mismatch".toList)
  let cek ← unwrapCek header identity
  let manifest ← openManifestWith C suite cek header headerBytes ((bytes.drop manifestStart).take header.manifestLen)
  let _ ← validateManifestLayout manifest header.dataChunkSize header.dataLen
  let plaintext ← StreamDecryptReader.newWith suite.aeadAlg cek header.dataStreamNonce (C.aad headerBytes)
    ((bytes.drop manifestEnd).take header.dataLen) header.dataChunkSize
  let vault ← reconstructVaultStreaming manifest plaintext
  .ok {
    vault
    suite
    senderFingerprint := header.senderFpr
    senderSignPublic := header.senderSignPublic
    senderKemPublic := header.senderKemPublic
    senderMldsaPublic := header.senderMldsaPublic
    senderMlkemPublic := header.senderMlkemPublic }

/-- `import_vault` -/
def importVault (bytes : Bytes) (identity : Identity C) : Result ImportedVault := do
  refuseIf (bytes.length < preambleLen) (.format "truncated preamble".toList)
  refuseIf (bytes.take 5 ≠ magic) (.format "not a FileSec container".toList)
  refuseIf (ofBe ((bytes.drop 5).take 2) ≠ formatVersion) (.format "unsupported format version".toList)
  let headerLen := ofBe ((bytes.drop 7).take 4)
  refuseIf (headerLen > maxContainerHeaderLen) (.format "header too large".toList)
  let manifestStart ← checkedAdd preambleLen headerLen
  refuseIf (bytes.length < manifestStart) (.format "truncated header".toList)
  let headerBytes := (bytes.drop preambleLen).take headerLen
  let header ← decoded (C.decodeHeader headerBytes)
  importBody C bytes manifestStart headerBytes header identity

/-! ### Opening a file -/

/-- `read_exact` of `n` bytes of what the file has left. -/
def readFile (n : Nat) (rest : Bytes) : Result (Bytes × Bytes) :=
  if rest.length < n then .error (.io "failed to fill whole buffer".toList) else .ok (rest.take n, rest.drop n)

/-- `VaultReader`; the file it reads is an argument of its functions. -/
structure VaultReader where
  manifest : Manifest
  cek : Bytes
  headerBytes : Bytes
  dataStreamNonce : Bytes
  dataChunkSize : Nat
  dataSectionOffset : Nat
  totalPlaintext : Nat
  numChunks : Nat
  suite : SuiteId

/-- `VaultReader::data_len` -/
def VaultReader.dataLen (r : VaultReader) : Nat := r.totalPlaintext + r.numChunks * tagLen

/-- What `open_reader_inner` leaves: the reader, the sender, the rest of the file and what the hasher has been fed. -/
structure Opened where
  reader : VaultReader
  sender : VerifiedSender
  rest : Bytes
  hashed : Bytes

/-- The part of `open_reader_inner` after the header has been decoded; `rest` begins with the manifest. -/
def openBody (fileLen headerLen : Nat) (headerBytes : Bytes) (header : Header) (identity : Identity C)
    (rest hashed : Bytes) : Result Opened := do
  let suite ← header.check
  let dataSectionOffset ← checkedAdd (preambleLen + headerLen) header.manifestLen
  let dataEnd ← checkedAdd dataSectionOffset header.dataLen
  let sigEnd ← checkedAdd dataEnd (trailerLen suite)
  refuseIf (fileLen ≠ sigEnd) (.format "container length does not match header".toList)
  let (encManifest, rest) ← readFile header.manifestLen rest
  let hashed := hashed ++ encManifest
  refuseIf (header.sender.fingerprint P.hashContent ≠ header.senderFpr) (.format "sender fingerprint mismatch".toList)
  let cek ← unwrapCek header identity
  let manifest ← openManifestWith C suite cek header headerBytes encManifest
  let (totalPlaintext, numChunks) ← validateManifestLayout manifest header.dataChunkSize header.dataLen
  .ok {
    reader := {
      manifest
      cek
      headerBytes
      dataStreamNonce := header.dataStreamNonce
      dataChunkSize := header.dataChunkSize
      dataSectionOffset
      totalPlaintext
      numChunks
      suite }
    sender := header.verifiedSender
    rest
    hashed }

/-- `open_reader_inner` at the beginning of the file, with a hasher. -/
def openReaderInner (file : Bytes) (fileLen : Nat) (identity : Identity C) : Result Opened := do
  let (preamble, rest) ← readFile preambleLen file
  refuseIf (preamble.take 5 ≠ magic) (.format "not a FileSec container".toList)
  refuseIf (ofBe ((preamble.drop 5).take 2) ≠ formatVersion) (.format "unsupported format version".toList)
  let headerLen := ofBe ((preamble.drop 7).take 4)
  refuseIf (headerLen > maxContainerHeaderLen) (.format "header too large".toList)
  refuseIf (min (preambleLen + headerLen) u64Max > fileLen) (.format "truncated header".toList)
  let (headerBytes, rest) ← readFile headerLen rest
  let header ← decoded (C.decodeHeader headerBytes)
  openBody C fileLen headerLen headerBytes header identity rest (preamble ++ headerBytes)

/-- The loop of `verify_and_open` over the data section: the rest of the file and what has been hashed.  The first
argument bounds the number of rounds. -/
def hashData : Nat → Nat → Bytes → Bytes → Result (Bytes × Bytes)
  | 0, _, rest, hashed => .ok (rest, hashed)
  | fuel + 1, remaining, rest, hashed =>
    if remaining = 0 then .ok (rest, hashed)
    else do
      let (buf, rest) ← readFile (min remaining defaultChunkSize) rest
      hashData fuel (remaining - min remaining defaultChunkSize) rest (hashed ++ buf)

/-- `verify_and_open` -/
def verifyAndOpen (file : Bytes) (identity : Identity C) : Result (VaultReader × VerifiedSender) := do
  refuseIf (file.length < preambleLen) (.format "truncated preamble".toList)
  let opened ← openReaderInner C file file.length identity
  let (rest, hashed) ← hashData opened.reader.dataLen opened.reader.dataLen opened.rest opened.hashed
  let (trailer, _) ← readFile (trailerLen opened.reader.suite) rest
  let bodyHash := P.hashContent hashed
  C.verify opened.sender.signPublic bodyHash (trailer.take signatureLen)
  verifyHybridSignature C opened.reader.suite opened.sender.mldsaPublic bodyHash trailer
  .ok (opened.reader, opened.sender)

/-- `open_vault_from_path` -/
def openVaultFromPath (file : Bytes) (identity : Identity C) : Result VaultReader := do
  refuseIf (file.length < preambleLen) (.format "truncated preamble".toList)
  let opened ← openReaderInner C file file.length identity
  .ok opened.reader

/-- `VaultReader::plaintext_reader` -/
def VaultReader.plaintextReader (r : VaultReader) (file : Bytes) : Result (StreamDecryptReader P) :=
  StreamDecryptReader.newWith r.suite.aeadAlg r.cek r.dataStreamNonce (C.aad r.headerBytes)
    ((file.drop r.dataSectionOffset).take r.dataLen) r.dataChunkSize

/-- `VaultReader::to_vault` -/
def VaultReader.toVault (r : VaultReader) (file : Bytes) : Result Vault := do
  let plaintext ← r.plaintextReader C file
  reconstructVaultStreaming r.manifest plaintext

end FileSec.Fsec
