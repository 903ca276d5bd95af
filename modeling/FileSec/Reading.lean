import FileSec.Ensure
import FileSec.Reader

/-!
# Reading back what was stored

An entry *stores* bytes when its blob holds their ciphertext under the entry's key and nonce and its size and hash are
theirs.  Reading such an entry gives the bytes (`readEntryToWriter_of_stores`), unless it has more chunks than a `u32`
counts.
-/

namespace FileSec

variable {P : Prims}

/-- The entry's blob holds `bytes` as `write_blob` and `place` leave them. -/
structure EntryAttrs.Stores (P : Prims) (alg : AeadAlg) (headerBytes : P.Raw) (blobs : Str → Option Bytes)
    (a : EntryAttrs) (bytes : Bytes) : Prop where
  kind : a.kind = .file
  size : a.size = bytes.length
  blake3 : a.blake3 = P.hashContent bytes
  chunkSize : a.chunkSize = defaultChunkSize
  blob : ∃ id key nonce ciphertext, a.fileId = some id ∧ a.key = some key ∧ a.nonce = some nonce ∧
    validateBlobId id = .ok () ∧
    encryptStreamWith P alg key nonce headerBytes bytes defaultChunkSize = .ok ciphertext ∧ blobs id = some ciphertext

/-! ### The lengths of chunks -/

theorem numChunks_bounds {n size : Nat} (hs : 0 < size) (hn : 0 < n) :
    n ≤ numChunks n size * size ∧ numChunks n size * size < n + size := by
  unfold numChunks
  rw [if_neg (by omega)]
  have hdiv := Nat.div_add_mod (n + size - 1) size
  have hmod := Nat.mod_lt (n + size - 1) hs
  rw [Nat.mul_comm size] at hdiv
  omega

theorem chunkLen_last {n size : Nat} (hs : 0 < size) :
    n - (numChunks n size - 1) * size = chunkLen n size (numChunks n size - 1) := by
  unfold chunkLen
  rcases Nat.eq_zero_or_pos n with rfl | hn
  · simp
  · obtain ⟨hle, -⟩ := numChunks_bounds hs hn
    have hsub : (numChunks n size - 1) * size = numChunks n size * size - size := Nat.sub_one_mul _ _
    omega

theorem chunkLen_of_lt {n size c : Nat} (hs : 0 < size) (hc : c < numChunks n size - 1) :
    size = chunkLen n size c := by
  unfold chunkLen
  rcases Nat.eq_zero_or_pos n with rfl | hn
  · simp [numChunks] at hc
  · obtain ⟨-, hlt⟩ := numChunks_bounds hs hn
    have hsucc : (c + 1) * size = c * size + size := Nat.succ_mul _ _
    have hsub : (numChunks n size - 1) * size = numChunks n size * size - size := Nat.sub_one_mul _ _
    have hle : (c + 1) * size ≤ (numChunks n size - 1) * size := Nat.mul_le_mul_right _ (by omega)
    omega

theorem numChunks_le_of_size {n size : Nat} (hs : 0 < size) : n ≤ numChunks n size * size := by
  rcases Nat.eq_zero_or_pos n with rfl | hn
  · simp
  · exact (numChunks_bounds hs hn).1

/-! ### Reading -/

section Read

variable {r : VaultReaderV2 P} {blobs : Str → Option Bytes} {e : EntryV2} {bytes key nonce file : Bytes}

/-- Each chunk of a stored file decrypts to its part of the bytes. -/
private theorem decryptBlobChunk_of_encrypt (hsize : e.size = bytes.length) (hchunk : e.chunkSize = defaultChunkSize)
    (henc : encryptStreamWith P r.suite.aeadAlg key nonce r.headerBytes bytes defaultChunkSize = .ok file)
    {c : Nat} (hc : c < numChunks bytes.length defaultChunkSize) :
    r.decryptBlobChunk file e key nonce c = .ok ((bytes.drop (c * defaultChunkSize)).take defaultChunkSize) := by
  have hpos := defaultChunkSize_pos
  have hnonce : nonce.length = r.suite.aeadAlg.streamNonceLen := by
    unfold encryptStreamWith at henc
    split at henc
    · simp at henc
    · rename_i h
      exact not_ne_iff.1 h
  have hlen : (if c = numChunks bytes.length defaultChunkSize - 1 then
      bytes.length - (numChunks bytes.length defaultChunkSize - 1) * defaultChunkSize else defaultChunkSize) =
      chunkLen bytes.length defaultChunkSize c := by
    split
    · rename_i hlast
      rw [hlast]
      exact chunkLen_last hpos
    · exact chunkLen_of_lt hpos (by omega)
  have hslice := (encryptStreamWith_slice henc).2 c hc
  unfold VaultReaderV2.decryptBlobChunk
  simp only [hsize, hchunk, hlen, hslice]
  rw [if_neg, decryptChunkWith_sealBytes hnonce]
  rw [Prims.length_sealBytes, List.length_take, List.length_drop]
  unfold chunkLen
  omega

private theorem readChunks_of_encrypt (hsize : e.size = bytes.length) (hchunk : e.chunkSize = defaultChunkSize)
    (henc : encryptStreamWith P r.suite.aeadAlg key nonce r.headerBytes bytes defaultChunkSize = .ok file)
    {cs : List Nat} (hcs : ∀ c ∈ cs, c < numChunks bytes.length defaultChunkSize) :
    r.readChunks file e key nonce cs =
      .ok (cs.flatMap fun c => (bytes.drop (c * defaultChunkSize)).take defaultChunkSize) := by
  induction cs with
  | nil => rfl
  | cons c cs ih =>
    have hhead := decryptBlobChunk_of_encrypt hsize hchunk henc (hcs c (by simp))
    have htail := ih fun c' hc' => hcs c' (by simp [hc'])
    simp only [VaultReaderV2.readChunks, hhead, htail, bind, Except.bind, List.flatMap_cons]

/-- The stored bytes are read back. -/
theorem readEntryToWriter_of_stores (hp : NormalPath e.path) (hat : entryAt r.manifest.entries e.path = some e)
    (hs : e.toEntryAttrs.Stores P r.suite.aeadAlg r.headerBytes blobs bytes)
    (hchunks : numChunks bytes.length defaultChunkSize ≤ u32Max) :
    r.readEntryToWriter blobs e.path = .ok bytes := by
  obtain ⟨hkind, hsize, hblake3, hchunk, id, key, nonce, ciphertext, hid, hkey, hnonce, hvalid, henc, hblob⟩ := hs
  have hpos := defaultChunkSize_pos
  have hentry : r.fileEntry e.path = .ok e := by
    have hfind : r.manifest.entries.find? (·.path = e.path) = some e := hat
    simp only [VaultReaderV2.fileEntry, hp.normalizeStoredPath, bind, Except.bind, hfind, hkind, ↓reduceIte]
  have hlen := (encryptStreamWith_slice henc).1
  have hmax : bytes.length + numChunks bytes.length defaultChunkSize * tagLen ≤ u64Max := by
    have h1 := numChunks_le_of_size (n := bytes.length) hpos
    have h2 : numChunks bytes.length defaultChunkSize * defaultChunkSize ≤ u32Max * defaultChunkSize :=
      Nat.mul_le_mul_right _ hchunks
    have h3 : numChunks bytes.length defaultChunkSize * tagLen ≤ u32Max * tagLen := Nat.mul_le_mul_right _ hchunks
    have h4 : u32Max * defaultChunkSize + u32Max * tagLen ≤ u64Max := by decide
    omega
  have hopen : openBlob blobs id bytes.length defaultChunkSize = .ok ciphertext := by
    unfold openBlob
    rw [if_neg (by omega), if_neg (by omega), if_neg (by omega), hblob]
    simp only [hlen, ne_eq, not_true_eq_false, ↓reduceIte]
  have hread := readChunks_of_encrypt (e := e) hsize hchunk henc fun c hc => List.mem_range.1 hc
  rw [flatMap_chunks bytes hpos] at hread
  have hne : ¬ defaultChunkSize = 0 := by decide
  simp only [VaultReaderV2.readEntryToWriter, hentry, bind, Except.bind, hchunk, hne, ↓reduceIte, hkey, hnonce, blobId,
    hid, hvalid, hsize, hopen, hread, hblake3]

/-- Reading depends on the reader through its suite, its header and the entry it finds. -/
private theorem readChunks_congr {r' : VaultReaderV2 P} (hsuite : r'.suite = r.suite)
    (hheader : r'.headerBytes = r.headerBytes) (cs : List Nat) :
    r'.readChunks file e key nonce cs = r.readChunks file e key nonce cs := by
  induction cs with
  | nil => rfl
  | cons c cs ih =>
    have hchunk : r'.decryptBlobChunk file e key nonce c = r.decryptBlobChunk file e key nonce c := by
      unfold VaultReaderV2.decryptBlobChunk
      rw [hsuite, hheader]
    simp only [VaultReaderV2.readChunks, hchunk, ih]

/-- A reader that finds the same entry, with the same blob, reads the same. -/
theorem readEntryToWriter_congr {r' : VaultReaderV2 P} {blobs' : Str → Option Bytes} {path : Str}
    (hsuite : r'.suite = r.suite) (hheader : r'.headerBytes = r.headerBytes)
    (hentry : r'.fileEntry path = r.fileEntry path)
    (hblob : ∀ e, r.fileEntry path = .ok e → ∀ id, blobId e = .ok id → blobs' id = blobs id) :
    r'.readEntryToWriter blobs' path = r.readEntryToWriter blobs path := by
  unfold VaultReaderV2.readEntryToWriter
  rw [hentry]
  cases he : r.fileEntry path with
  | error err => rfl
  | ok e =>
    simp only [bind, Except.bind, readChunks_congr hsuite hheader]
    cases hid : blobId e with
    | error err => rfl
    | ok id =>
      have hopen : ∀ size chunkSize, openBlob blobs' id size chunkSize = openBlob blobs id size chunkSize := by
        intro size chunkSize
        unfold openBlob
        rw [hblob e he id hid]
      simp only [hopen]

end Read

end FileSec
