import FileSec.Fsec.Format

/-!
# The two readers of a container

`importVault` and `verifyAndOpen` make the same checks in different orders, on a byte string and on a file.  `Reads`
collects the checks without their order; each reader answers exactly when they hold (`importVault_eq_ok`,
`verifyAndOpen_eq_ok`), so on every input the two agree (`readers_agree`).
-/

namespace FileSec.Fsec

variable {P : Prims} {C : FsecPrims P}

/-! ### Answers of checks -/

@[simp] theorem refuseIf_eq_ok {p : Prop} [Decidable p] {e : Error} {u : Unit} : refuseIf p e = .ok u ↔ ¬ p := by
  unfold refuseIf
  by_cases hp : p
  · simp [hp]
  · simp [hp]

@[simp] theorem checkedAdd_eq_ok {m n k : Nat} : checkedAdd m n = .ok k ↔ m + n ≤ u64Max ∧ k = m + n := by
  unfold checkedAdd
  by_cases h : m + n > u64Max
  · rw [if_pos h]
    simp only [reduceCtorEq, false_iff, not_and]
    omega
  · rw [if_neg h, Except.ok.injEq]
    omega

@[simp] theorem readFile_eq_ok {n : Nat} {rest : Bytes} {p : Bytes × Bytes} :
    readFile n rest = .ok p ↔ n ≤ rest.length ∧ p = (rest.take n, rest.drop n) := by
  unfold readFile
  by_cases h : rest.length < n
  · rw [if_pos h]
    simp only [reduceCtorEq, false_iff, not_and]
    omega
  · rw [if_neg h, Except.ok.injEq, eq_comm]
    simp only [iff_and_self]
    omega

@[simp] theorem decoded_eq_ok {α : Type} {x : Option α} {a : α} : decoded x = .ok a ↔ x = some a := by
  cases x with
  | none => simp [decoded]
  | some b => simp [decoded]

/-- The hashing loop takes the data section off the file. -/
private theorem hashData_eq_ok {fuel remaining : Nat} {rest hashed rest' hashed' : Bytes} (hf : remaining ≤ fuel) :
    hashData fuel remaining rest hashed = .ok (rest', hashed') ↔
      remaining ≤ rest.length ∧ rest' = rest.drop remaining ∧ hashed' = hashed ++ rest.take remaining := by
  induction fuel generalizing remaining rest hashed with
  | zero =>
    have h0 : remaining = 0 := by omega
    subst h0
    simp only [hashData, Except.ok.injEq, Prod.mk.injEq, Nat.zero_le, List.drop_zero, List.take_zero, List.append_nil,
      true_and]
    constructor
    · rintro ⟨rfl, rfl⟩
      exact ⟨rfl, rfl⟩
    · rintro ⟨rfl, rfl⟩
      exact ⟨rfl, rfl⟩
  | succ fuel ih =>
    unfold hashData
    by_cases h0 : remaining = 0
    · subst h0
      simp only [if_true, Except.ok.injEq, Prod.mk.injEq, Nat.zero_le, List.drop_zero, List.take_zero, List.append_nil,
        true_and]
      constructor
      · rintro ⟨rfl, rfl⟩
        exact ⟨rfl, rfl⟩
      · rintro ⟨rfl, rfl⟩
        exact ⟨rfl, rfl⟩
    · rw [if_neg h0, bind_eq_ok]
      simp only [readFile_eq_ok, and_assoc, exists_and_left, exists_eq_left]
      have hk := defaultChunkSize_pos
      obtain ⟨k, hkd⟩ : ∃ k, min remaining defaultChunkSize = k := ⟨_, rfl⟩
      rw [hkd]
      have hkle : k ≤ remaining := by omega
      rw [ih (by omega), List.length_drop, List.drop_drop, List.append_assoc, ← List.take_add]
      have hsum : k + (remaining - k) = remaining := by omega
      rw [hsum]
      constructor
      · rintro ⟨h1, h2, h3⟩
        exact ⟨by omega, h3⟩
      · rintro ⟨h1, h3⟩
        exact ⟨by omega, by omega, h3⟩

/-! ### The checks -/

/-- The header length that the preamble declares. -/
def declaredHeaderLen (bytes : Bytes) : Nat := ofBe ((bytes.drop 7).take 4)

/-- Where the manifest starts. -/
def manifestStart (bytes : Bytes) : Nat := preambleLen + declaredHeaderLen bytes

/-- The bytes of the header. -/
def headerBytesOf (bytes : Bytes) : Bytes := (bytes.drop preambleLen).take (declaredHeaderLen bytes)

/-- Where the data section starts. -/
def dataStart (bytes : Bytes) (header : Header) : Nat := manifestStart bytes + header.manifestLen

/-- The bytes have the form of a container with this header, whose manifest opens for the identity with this content
key: the checks that need neither the data nor a signature. -/
structure Parses (C : FsecPrims P) (bytes : Bytes) (identity : Identity C) (header : Header) (suite : SuiteId)
    (cek : Bytes) (manifest : Manifest) (layout : Nat × Nat) : Prop where
  preamble : preambleLen ≤ bytes.length
  magic : bytes.take 5 = Fsec.magic
  version : ofBe ((bytes.drop 5).take 2) = formatVersion
  header_le : declaredHeaderLen bytes ≤ maxContainerHeaderLen
  header_in : manifestStart bytes ≤ bytes.length
  decodes : C.decodeHeader (headerBytesOf bytes) = some header
  check : header.check = .ok suite
  length_eq : bytes.length = dataStart bytes header + header.dataLen + trailerLen suite
  length_le : bytes.length ≤ u64Max
  fingerprint : header.sender.fingerprint P.hashContent = header.senderFpr
  unwraps : unwrapCek header identity = .ok cek
  opens : openManifestWith C suite cek header (headerBytesOf bytes)
    ((bytes.drop (manifestStart bytes)).take header.manifestLen) = .ok manifest
  layout : validateManifestLayout manifest header.dataChunkSize header.dataLen = .ok layout

/-- The sender has signed the bytes before the trailer. -/
structure Signed (C : FsecPrims P) (bytes : Bytes) (header : Header) (suite : SuiteId) : Prop where
  classic : C.verify header.senderSignPublic (P.hashContent (bytes.take (dataStart bytes header + header.dataLen)))
    ((bytes.drop (dataStart bytes header + header.dataLen)).take signatureLen) = .ok ()
  hybrid : verifyHybridSignature C suite header.senderMldsaPublic
    (P.hashContent (bytes.take (dataStart bytes header + header.dataLen)))
    ((bytes.drop (dataStart bytes header + header.dataLen)).take (trailerLen suite)) = .ok ()

/-- The stream of a container's data. -/
def dataReader (C : FsecPrims P) (bytes : Bytes) (header : Header) (suite : SuiteId) (cek : Bytes) :
    Result (StreamDecryptReader P) :=
  StreamDecryptReader.newWith suite.aeadAlg cek header.dataStreamNonce (C.aad (headerBytesOf bytes))
    ((bytes.drop (dataStart bytes header)).take header.dataLen) header.dataChunkSize

variable {bytes : Bytes} {identity : Identity C}

/-- What `import_vault` returns. -/
theorem importVault_eq_ok {imported : ImportedVault} :
    importVault C bytes identity = .ok imported ↔
      ∃ header suite cek manifest layout, Parses C bytes identity header suite cek manifest layout ∧
        Signed C bytes header suite ∧
        (∃ plaintext, dataReader C bytes header suite cek = .ok plaintext ∧
          reconstructVaultStreaming manifest plaintext = .ok imported.vault) ∧
        imported.suite = suite ∧ imported.sender = header.verifiedSender := by
  unfold importVault importBody
  simp only [bind_eq_ok, refuseIf_eq_ok, checkedAdd_eq_ok, decoded_eq_ok, not_lt, not_not, Except.ok.injEq, gt_iff_lt,
    exists_const, exists_and_left, exists_eq_left, and_assoc]
  constructor
  · rintro ⟨h1, h2, h3, h4, -, h5, header, h6, suite, h7, -, -, -, h8, h9, ⟨⟩, h10, ⟨⟩, h11, h12, cek, h13, manifest, h14,
      layout, h15, plaintext, h16, vault, h17, rfl⟩
    rw [Nat.add_sub_cancel_left] at h11
    refine ⟨header, suite, cek, manifest, layout, ?_, ⟨h10, h11⟩, ⟨plaintext, h16, h17⟩, rfl, rfl⟩
    exact ⟨h1, h2, h3, h4, h5, h6, h7, h9, by omega, h12, h13, h14, h15⟩
  · rintro ⟨header, suite, cek, manifest, layout, hp, hsigned, ⟨plaintext, h16, h17⟩, hsuite, hsender⟩
    have hlen := hp.length_eq
    have hle := hp.length_le
    have hstart : dataStart bytes header = preambleLen + ofBe ((bytes.drop 7).take 4) + header.manifestLen := rfl
    rw [hstart] at hlen
    refine ⟨hp.preamble, hp.magic, hp.version, hp.header_le, by omega, hp.header_in, header, hp.decodes, suite, hp.check,
      by omega, by omega, by omega, by omega, hlen, (), hsigned.classic, (), ?_, hp.fingerprint, cek, hp.unwraps,
      manifest, hp.opens, layout, hp.layout, plaintext, h16, imported.vault, h17, ?_⟩
    · rw [Nat.add_sub_cancel_left]
      exact hsigned.hybrid
    · obtain ⟨vault, s, f, sp, kp, mp, mk⟩ := imported
      simp only [ImportedVault.sender, Header.verifiedSender, VerifiedSender.mk.injEq] at hsender
      obtain ⟨rfl, rfl, rfl, rfl, rfl⟩ := hsender
      rw [← show s = suite from hsuite]

/-! ### The reader of files -/

/-- The layout of a manifest accounts for the whole data section. -/
theorem validateManifestLayout_eq_ok {m : Manifest} {chunkSize dataLen : Nat} {layout : Nat × Nat} :
    validateManifestLayout m chunkSize dataLen = .ok layout ↔ chunkSize ≠ 0 ∧ m.entries.length ≤ maxManifestEntries ∧
      ∃ shape, layoutEntries m.entries [] 0 = .ok (shape, layout.1) ∧ layout.2 = numChunks layout.1 chunkSize ∧
        layout.2 ≤ u32Max ∧ checkTreeShape shape = .ok () ∧ layout.1 + layout.2 * tagLen ≤ u64Max ∧
        dataLen = layout.1 + layout.2 * tagLen := by
  have htag : u32Max * tagLen ≤ u64Max := by decide
  unfold validateManifestLayout
  simp only [bind_eq_ok, refuseIf_eq_ok, checkedAdd_eq_ok, not_lt, not_not, gt_iff_lt, exists_const, exists_and_left,
    exists_eq_left, and_assoc, Except.ok.injEq]
  constructor
  · rintro ⟨h1, h2, ⟨shape, total⟩, h3, h4, ⟨⟩, h6, h7, h8, rfl⟩
    have hmin : min (numChunks total chunkSize * tagLen) u64Max = numChunks total chunkSize * tagLen :=
      Nat.min_eq_left (le_trans (Nat.mul_le_mul_right _ h4) htag)
    simp only [hmin] at h7 h8
    exact ⟨h1, h2, shape, h3, rfl, h4, h6, h7, h8.symm⟩
  · rintro ⟨h1, h2, shape, h3, h4, h5, h6, h7, rfl⟩
    obtain ⟨total, chunks⟩ := layout
    obtain rfl : chunks = numChunks total chunkSize := h4
    have hmin : min (numChunks total chunkSize * tagLen) u64Max = numChunks total chunkSize * tagLen :=
      Nat.min_eq_left (le_trans (Nat.mul_le_mul_right _ h5) htag)
    refine ⟨h1, h2, (shape, total), h3, h5, (), h6, ?_⟩
    rw [hmin]
    exact ⟨h7, rfl, rfl⟩

/-- The reader of a container's file. -/
def readerOf (bytes : Bytes) (header : Header) (suite : SuiteId) (cek : Bytes) (manifest : Manifest)
    (layout : Nat × Nat) : VaultReader where
  manifest
  cek
  headerBytes := headerBytesOf bytes
  dataStreamNonce := header.dataStreamNonce
  dataChunkSize := header.dataChunkSize
  dataSectionOffset := dataStart bytes header
  totalPlaintext := layout.1
  numChunks := layout.2
  suite

/-- What `open_reader_inner` leaves: the file is at the data section, and all before it has been hashed. -/
theorem openReaderInner_eq_ok {opened : Opened} :
    openReaderInner C bytes bytes.length identity = .ok opened ↔
      ∃ header suite cek manifest layout, Parses C bytes identity header suite cek manifest layout ∧
        opened = ⟨readerOf bytes header suite cek manifest layout, header.verifiedSender,
          bytes.drop (dataStart bytes header), bytes.take (dataStart bytes header)⟩ := by
  have hpre5 : (bytes.take preambleLen).take 5 = bytes.take 5 := by
    rw [List.take_take]
    rfl
  have hpre (m n : Nat) (h : m + n ≤ preambleLen) :
      ((bytes.take preambleLen).drop m).take n = (bytes.drop m).take n := by
    rw [List.drop_take, List.take_take, Nat.min_eq_left (by omega)]
  have hrest (m : Nat) : ((bytes.drop preambleLen).drop (declaredHeaderLen bytes)).drop m =
      bytes.drop (manifestStart bytes + m) := by
    rw [List.drop_drop, List.drop_drop, ← Nat.add_assoc]
    rfl
  have hhashed (m : Nat) : bytes.take preambleLen ++ (bytes.drop preambleLen).take (declaredHeaderLen bytes) ++
      ((bytes.drop preambleLen).drop (declaredHeaderLen bytes)).take m = bytes.take (manifestStart bytes + m) := by
    rw [← List.take_add, List.drop_drop, ← List.take_add]
    rfl
  unfold openReaderInner openBody
  simp only [bind_eq_ok, refuseIf_eq_ok, checkedAdd_eq_ok, decoded_eq_ok, readFile_eq_ok, not_lt, not_not,
    Except.ok.injEq, gt_iff_lt, exists_const, exists_and_left, exists_eq_left, and_assoc, hpre5]
  rw [hpre 5 2 (by decide), hpre 7 4 (by decide)]
  constructor
  · rintro ⟨h1, h2, h3, h4, -, h5, header, h6, suite, h7, -, -, h8, h9, -, h10, cek, h11, manifest, h12, layout, h13,
      rfl⟩
    have hin : manifestStart bytes ≤ bytes.length := by
      rw [List.length_drop] at h5
      unfold manifestStart declaredHeaderLen
      omega
    rw [List.drop_drop] at h12
    refine ⟨header, suite, cek, manifest, layout, ⟨h1, h2, h3, h4, hin, h6, h7, h9, by omega, h10, h11, h12, h13⟩, ?_⟩
    congr 1
    · exact hrest header.manifestLen
    · exact hhashed header.manifestLen
  · rintro ⟨header, suite, cek, manifest, layout, hp, rfl⟩
    have hlen := hp.length_eq
    have hle := hp.length_le
    have hin := hp.header_in
    have hopens := hp.opens
    have hstart : dataStart bytes header = preambleLen + ofBe ((bytes.drop 7).take 4) + header.manifestLen := rfl
    have hmstart : manifestStart bytes = preambleLen + ofBe ((bytes.drop 7).take 4) := rfl
    rw [hstart] at hlen
    rw [hmstart] at hin
    refine ⟨hp.preamble, hp.magic, hp.version, hp.header_le, by omega, ?_, header, hp.decodes, suite, hp.check, by omega,
      by omega, by omega, hlen, ?_, hp.fingerprint, cek, hp.unwraps, manifest, ?_, layout, hp.layout, ?_⟩
    · rw [List.length_drop]
      omega
    · rw [List.length_drop, List.length_drop]
      omega
    · rw [List.drop_drop]
      exact hopens
    · congr 1
      · exact hrest header.manifestLen
      · exact hhashed header.manifestLen

/-- What `open_vault_from_path` returns. -/
theorem openVaultFromPath_eq_ok {reader : VaultReader} :
    openVaultFromPath C bytes identity = .ok reader ↔
      ∃ header suite cek manifest layout, Parses C bytes identity header suite cek manifest layout ∧
        reader = readerOf bytes header suite cek manifest layout := by
  unfold openVaultFromPath
  simp only [bind_eq_ok, refuseIf_eq_ok, openReaderInner_eq_ok, not_lt, Except.ok.injEq, exists_const]
  constructor
  · rintro ⟨-, opened, ⟨header, suite, cek, manifest, layout, hp, rfl⟩, rfl⟩
    exact ⟨header, suite, cek, manifest, layout, hp, rfl⟩
  · rintro ⟨header, suite, cek, manifest, layout, hp, rfl⟩
    exact ⟨hp.preamble, _, ⟨header, suite, cek, manifest, layout, hp, rfl⟩, rfl⟩

/-- The reader knows the length of the data section. -/
theorem Parses.dataLen_eq {header : Header} {suite : SuiteId} {cek : Bytes} {manifest : Manifest} {layout : Nat × Nat}
    (h : Parses C bytes identity header suite cek manifest layout) :
    (readerOf bytes header suite cek manifest layout).dataLen = header.dataLen := by
  obtain ⟨-, -, -, -, -, -, -, -, hlen⟩ := validateManifestLayout_eq_ok.1 h.layout
  exact hlen.symm

/-- What `verify_and_open` returns. -/
theorem verifyAndOpen_eq_ok {reader : VaultReader} {sender : VerifiedSender} :
    verifyAndOpen C bytes identity = .ok (reader, sender) ↔
      ∃ header suite cek manifest layout, Parses C bytes identity header suite cek manifest layout ∧
        Signed C bytes header suite ∧ reader = readerOf bytes header suite cek manifest layout ∧
        sender = header.verifiedSender := by
  have hsuite (suite : SuiteId) : signatureLen ≤ trailerLen suite := by
    cases suite <;> decide
  have hdrop (header : Header) : (bytes.drop (dataStart bytes header)).drop header.dataLen =
      bytes.drop (dataStart bytes header + header.dataLen) := List.drop_drop
  have hbody (header : Header) : bytes.take (dataStart bytes header) ++
      (bytes.drop (dataStart bytes header)).take header.dataLen =
        bytes.take (dataStart bytes header + header.dataLen) := List.take_add.symm
  unfold verifyAndOpen
  simp only [bind_eq_ok, refuseIf_eq_ok, readFile_eq_ok, not_lt, Except.ok.injEq, exists_const, exists_and_left,
    exists_eq_left, and_assoc, openReaderInner_eq_ok, Prod.mk.injEq]
  constructor
  · rintro ⟨-, opened, ⟨header, suite, cek, manifest, layout, hp, rfl⟩, ⟨rest, hashed⟩, hhash, -, ⟨⟩, hclassic, ⟨⟩,
      hhybrid, rfl, rfl⟩
    dsimp only at hhash hclassic hhybrid
    rw [hp.dataLen_eq, hashData_eq_ok le_rfl, hdrop, hbody] at hhash
    obtain ⟨-, rfl, rfl⟩ := hhash
    rw [List.take_take, Nat.min_eq_left (hsuite _)] at hclassic
    exact ⟨header, suite, cek, manifest, layout, hp, ⟨hclassic, hhybrid⟩, rfl, rfl⟩
  · rintro ⟨header, suite, cek, manifest, layout, hp, hsigned, rfl, rfl⟩
    have hlen := hp.length_eq
    refine ⟨hp.preamble, _, ⟨header, suite, cek, manifest, layout, hp, rfl⟩,
      (bytes.drop (dataStart bytes header + header.dataLen), bytes.take (dataStart bytes header + header.dataLen)), ?_, ?_,
      (), ?_, (), hsigned.hybrid, rfl, rfl⟩
    · dsimp only
      rw [hp.dataLen_eq, hashData_eq_ok le_rfl, hdrop, hbody]
      refine ⟨?_, rfl, rfl⟩
      rw [List.length_drop]
      omega
    · dsimp only [readerOf]
      rw [List.length_drop]
      omega
    · dsimp only
      rw [List.take_take, Nat.min_eq_left (hsuite _)]
      exact hsigned.classic

/-- On every input and for every sender that is expected, importing a container returns the vault and the suite exactly
when verifying, opening and reading its file do. -/
theorem readers_agree (C : FsecPrims P) (bytes : Bytes) (identity : Identity C) (expected : VerifiedSender) (vault : Vault)
    (suite : SuiteId) :
    (∃ imported, importVault C bytes identity = .ok imported ∧ imported.vault = vault ∧ imported.suite = suite ∧
      imported.sender = expected) ↔
    ∃ reader, verifyAndOpen C bytes identity = .ok (reader, expected) ∧ reader.toVault C bytes = .ok vault ∧
      reader.suite = suite := by
  simp only [importVault_eq_ok, verifyAndOpen_eq_ok]
  constructor
  · rintro ⟨imported, ⟨header, s, cek, manifest, layout, hp, hsigned, ⟨plaintext, hstream, hvault⟩, hsuite, hsender⟩, rfl,
      rfl, rfl⟩
    refine ⟨_, ⟨header, s, cek, manifest, layout, hp, hsigned, rfl, hsender⟩, ?_, hsuite.symm⟩
    have hreader : (readerOf bytes header s cek manifest layout).plaintextReader C bytes = .ok plaintext := by
      unfold VaultReader.plaintextReader
      rw [hp.dataLen_eq]
      exact hstream
    exact bind_eq_ok.2 ⟨plaintext, hreader, hvault⟩
  · rintro ⟨reader, ⟨header, s, cek, manifest, layout, hp, hsigned, rfl, rfl⟩, hvault, rfl⟩
    obtain ⟨plaintext, hreader, hvault⟩ := bind_eq_ok.1 hvault
    unfold VaultReader.plaintextReader at hreader
    rw [hp.dataLen_eq] at hreader
    exact ⟨⟨vault, s, header.senderFpr, header.senderSignPublic, header.senderKemPublic, header.senderMldsaPublic,
      header.senderMlkemPublic⟩, ⟨header, s, cek, manifest, layout, hp, hsigned, ⟨plaintext, hreader, hvault⟩, rfl, rfl⟩,
      rfl, rfl, rfl⟩

end FileSec.Fsec
