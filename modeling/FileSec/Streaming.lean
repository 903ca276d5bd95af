import FileSec.Build
import FileSec.Legality
import FileSec.Reading
import FileSec.StreamDecrypt

/-!
# Reading a file as a stream

A file of a vault is read chunk by chunk at the places where its chunks start (`read_entry_to_writer`), or as one stream
(`entry_plaintext`).  Both open the same chunks under the same nonces, so they succeed on the same blobs, with the same
bytes: `entryPlaintext_eq_ok_iff`.
-/

namespace FileSec

variable {P : Prims}

/-! ### Streams -/

section Stream

variable {alg : AeadAlg} {key nonce : Bytes} {aad : P.Raw} {encChunk : Nat}

/-- A chunk is opened with its nonce. -/
private theorem decryptChunkWith_eq (aad : P.Raw) (hnonce : nonce.length = alg.streamNonceLen) (key : Bytes) (index : Nat)
    (isLast : Bool) (msg : Bytes) : decryptChunkWith P alg key nonce aad index isLast msg =
      match P.openBytes alg key (chunkNonce nonce index isLast) aad msg with
      | some pt => .ok pt
      | none => .error .auth := by
  unfold decryptChunkWith
  exact if_neg (not_not.2 hnonce)

/-- The two models of the loop of a stream agree where it ends well. -/
theorem decryptChunks_eq_ok_iff (hnonce : nonce.length = alg.streamNonceLen) (fuel index : Nat) (current rest out : Bytes) :
    decryptChunks P alg key nonce aad encChunk fuel index current rest = .ok out ↔
      decryptRounds P.openBytes aad encChunk fuel ⟨alg, key, nonce, index⟩ current rest = (out, .ok ()) := by
  induction fuel generalizing index current rest out with
  | zero => simp [decryptChunks, decryptRounds]
  | succ fuel ih =>
    unfold decryptChunks decryptRounds
    have hopen := fun isLast => decryptChunkWith_eq aad hnonce key index isLast current
    by_cases hend : rest.take encChunk = []
    · rw [if_pos hend, if_pos hend, hopen]
      unfold StreamDecryptor.decryptLast
      cases P.openBytes alg key (chunkNonce nonce index true) aad current with
      | none => simp
      | some pt => simp
    · rw [if_neg hend, if_neg hend]
      unfold StreamDecryptor.decryptNext
      dsimp only
      by_cases hmax : index = u32Max
      · rw [if_pos hmax, if_pos hmax]
        simp
      · rw [if_neg hmax, if_neg hmax, hopen]
        cases P.openBytes alg key (chunkNonce nonce index false) aad current with
        | none => simp [bind, Except.bind]
        | some pt =>
          have hrest := ih (index + 1) (rest.take encChunk) (rest.drop encChunk)
          simp only [bind, Except.bind]
          cases hc : decryptChunks P alg key nonce aad encChunk fuel (index + 1) (rest.take encChunk)
              (rest.drop encChunk) with
          | error err =>
            have hno : ∀ tail, decryptRounds P.openBytes aad encChunk fuel ⟨alg, key, nonce, index + 1⟩
                (rest.take encChunk) (rest.drop encChunk) ≠ (tail, .ok ()) := by
              intro tail htail
              have := (hrest tail).2 htail
              rw [hc] at this
              cases this
            refine iff_of_false (fun h => by cases h) fun h => ?_
            rw [Prod.mk.injEq] at h
            exact hno _ (Prod.ext rfl h.2)
          | ok tail =>
            rw [(hrest tail).1 hc]
            simp

/-- Decrypting a whole stream. -/
theorem streamDecrypt_eq_ok_iff {file out : Bytes} {chunkSize : Nat} (hnonce : nonce.length = alg.streamNonceLen)
    (hsize : 0 < chunkSize ∧ chunkSize ≤ maxChunkSize) :
    streamDecrypt P alg key nonce aad file chunkSize = .ok (.ok out) ↔
      decryptRounds P.openBytes aad (chunkSize + tagLen) (file.length + 1) ⟨alg, key, nonce, 0⟩
        (file.take (chunkSize + tagLen)) (file.drop (chunkSize + tagLen)) = (out, .ok ()) := by
  unfold streamDecrypt
  rw [if_neg (not_not.2 hnonce), if_neg (by omega), Except.ok.injEq]
  exact decryptChunks_eq_ok_iff hnonce _ _ _ _ _

end Stream

/-! ### Chunks -/

section Chunks

variable {r : VaultReaderV2 P} {e : EntryV2} {file nonce : Bytes}

/-- Where the chunks of a ciphertext of the right length start and end. -/
theorem chunk_bounds {len total size : Nat} (hs : 0 < size) (hlen : len = total + numChunks total size * tagLen) :
    (∀ c, c + 1 < numChunks total size → (c + 1) * (size + tagLen) < len) ∧
      ∀ c, c + 1 = numChunks total size → len = c * (size + tagLen) + (total - c * size) + tagLen ∧
        total - c * size ≤ size := by
  obtain ⟨n, hn⟩ : ∃ n, numChunks total size = n := ⟨_, rfl⟩
  rw [hn] at hlen ⊢
  rcases Nat.eq_zero_or_pos total with hzero | hpos
  · have hone : n = 1 := by rw [← hn, hzero]; rfl
    refine ⟨fun c hc => by omega, fun c hc => ?_⟩
    obtain rfl : c = 0 := by omega
    rw [hlen, hone, hzero]
    omega
  · obtain ⟨hle, hlt⟩ := numChunks_bounds hs hpos
    rw [hn] at hle hlt
    constructor
    · intro c hc
      have h1 : (c + 1) * size ≤ (n - 1) * size := Nat.mul_le_mul_right _ (by omega)
      have h2 : (n - 1) * size = n * size - size := Nat.sub_one_mul _ _
      have h3 : (c + 1) * tagLen ≤ n * tagLen := Nat.mul_le_mul_right _ (by omega)
      rw [Nat.mul_add, hlen]
      omega
    · intro c hc
      have h1 : n * size = c * size + size := by rw [← hc, Nat.succ_mul]
      have h2 : n * tagLen = c * tagLen + tagLen := by rw [← hc, Nat.succ_mul]
      rw [Nat.mul_add, hlen]
      omega

/-- The chunks from one on, read at their places or off the rest of the stream. -/
private theorem readChunks_rounds (hs : 0 < e.chunkSize) (hcount : numChunks e.size e.chunkSize ≤ u32Max)
    (hnonce : nonce.length = r.suite.aeadAlg.streamNonceLen)
    (hlen : file.length = e.size + numChunks e.size e.chunkSize * tagLen) (key : Bytes) (k index fuel : Nat) (out : Bytes)
    (hk : index + k + 1 = numChunks e.size e.chunkSize)
    (hf : (file.drop ((index + 1) * (e.chunkSize + tagLen))).length < fuel) :
    r.readChunks file e key nonce (List.range' index (k + 1)) = .ok out ↔
      decryptRounds P.openBytes r.headerBytes (e.chunkSize + tagLen) fuel ⟨r.suite.aeadAlg, key, nonce, index⟩
        ((file.drop (index * (e.chunkSize + tagLen))).take (e.chunkSize + tagLen))
        (file.drop ((index + 1) * (e.chunkSize + tagLen))) = (out, .ok ()) := by
  obtain ⟨hmid, hlast⟩ := chunk_bounds hs hlen
  have hopen := fun index isLast msg => decryptChunkWith_eq r.headerBytes hnonce key index isLast msg
  obtain ⟨fuel, rfl⟩ : ∃ m, fuel = m + 1 := ⟨fuel - 1, by omega⟩
  induction k generalizing index fuel out with
  | zero =>
    obtain ⟨hlength, hle⟩ := hlast index (by omega)
    have hsucc : (index + 1) * (e.chunkSize + tagLen) = index * (e.chunkSize + tagLen) + (e.chunkSize + tagLen) :=
      Nat.succ_mul _ _
    have hrest : file.drop ((index + 1) * (e.chunkSize + tagLen)) = [] := List.drop_eq_nil_of_le (by omega)
    have hindex : index = numChunks e.size e.chunkSize - 1 := by omega
    have htake : ∀ m, e.size - index * e.chunkSize + tagLen ≤ m →
        (file.drop (index * (e.chunkSize + tagLen))).take m = file.drop (index * (e.chunkSize + tagLen)) := by
      intro m hm
      exact List.take_of_length_le (by rw [List.length_drop]; omega)
    have hchunk : r.decryptBlobChunk file e key nonce index = decryptChunkWith P r.suite.aeadAlg key nonce r.headerBytes
        index true (file.drop (index * (e.chunkSize + tagLen))) := by
      unfold VaultReaderV2.decryptBlobChunk
      simp only [← hindex, if_true, htake _ le_rfl, decide_true]
      rw [if_neg (by rw [List.length_drop]; omega)]
    rw [hrest, htake _ (by omega)]
    unfold decryptRounds StreamDecryptor.decryptLast
    rw [if_pos (List.take_nil)]
    rw [Nat.zero_add, List.range'_one]
    simp only [VaultReaderV2.readChunks, hchunk, hopen]
    cases P.openBytes r.suite.aeadAlg key (chunkNonce nonce index true) r.headerBytes
        (file.drop (index * (e.chunkSize + tagLen))) with
    | none => simp [bind, Except.bind]
    | some pt => simp [bind, Except.bind]
  | succ k ih =>
    have hmore := hmid index (by omega)
    have hsucc : (index + 1) * (e.chunkSize + tagLen) = index * (e.chunkSize + tagLen) + (e.chunkSize + tagLen) :=
      Nat.succ_mul _ _
    have hindex : ¬ index = numChunks e.size e.chunkSize - 1 := by omega
    have hfull : ((file.drop (index * (e.chunkSize + tagLen))).take (e.chunkSize + tagLen)).length =
        e.chunkSize + tagLen := by
      rw [List.length_take, List.length_drop]
      omega
    have hchunk : r.decryptBlobChunk file e key nonce index = decryptChunkWith P r.suite.aeadAlg key nonce r.headerBytes
        index false ((file.drop (index * (e.chunkSize + tagLen))).take (e.chunkSize + tagLen)) := by
      unfold VaultReaderV2.decryptBlobChunk
      simp only [hfull, lt_irrefl, if_false, hindex, decide_false]
    have hnext : (file.drop ((index + 1) * (e.chunkSize + tagLen))).take (e.chunkSize + tagLen) ≠ [] := by
      rw [Ne, List.take_eq_nil_iff, List.drop_eq_nil_iff]
      omega
    have hdrop : (file.drop ((index + 1) * (e.chunkSize + tagLen))).drop (e.chunkSize + tagLen) =
        file.drop ((index + 1 + 1) * (e.chunkSize + tagLen)) := by
      rw [List.drop_drop, Nat.succ_mul (index + 1)]
    obtain ⟨fuel, rfl⟩ : ∃ m, fuel = m + 1 := ⟨fuel - 1, by rw [List.length_drop] at hf; omega⟩
    have hrest := fun tail => ih (index + 1) tail (by omega) fuel
      (by rw [List.length_drop] at hf ⊢; rw [Nat.succ_mul (index + 1)]; omega)
    rw [List.range'_succ]
    unfold decryptRounds StreamDecryptor.decryptNext
    rw [if_neg hnext, hdrop]
    have hposition : ¬ index = u32Max := by omega
    simp only [VaultReaderV2.readChunks, hchunk, hopen, if_neg hposition]
    cases P.openBytes r.suite.aeadAlg key (chunkNonce nonce index false) r.headerBytes
        ((file.drop (index * (e.chunkSize + tagLen))).take (e.chunkSize + tagLen)) with
    | none => simp [bind, Except.bind]
    | some pt =>
      simp only [bind, Except.bind]
      cases hread : r.readChunks file e key nonce (List.range' (index + 1) (k + 1)) with
      | error err =>
        refine iff_of_false (fun h => by cases h) fun h => ?_
        rw [Prod.mk.injEq] at h
        have := (hrest _).2 (Prod.ext rfl h.2)
        rw [hread] at this
        cases this
      | ok tail =>
        rw [(hrest tail).1 hread]
        simp

/-- A blob that can be opened has the length of the ciphertext. -/
theorem openBlob_length {blobs : Str → Option Bytes} {fileId : Str} {size chunkSize : Nat}
    (h : openBlob blobs fileId size chunkSize = .ok file) : file.length = size + numChunks size chunkSize * tagLen := by
  unfold openBlob at h
  split at h
  · cases h
  · split at h
    · cases h
    · split at h
      · cases h
      · split at h
        · cases h
        · split at h
          · cases h
          · rename_i hlen
            rw [Except.ok.injEq] at h
            rw [← h]
            exact not_not.1 hlen

/-- Reading a file to a writer and as a stream give the same bytes, if the writer's hash is right. -/
theorem readEntryToWriter_eq_ok_iff {blobs : Str → Option Bytes} {path : Str} {out : Bytes}
    (hfind : r.fileEntry path = .ok e) (hok : e.FileOk r.suite.aeadAlg) :
    r.readEntryToWriter blobs path = .ok out ↔
      r.entryPlaintext blobs e = .ok (.ok out) ∧ P.hashContent out = e.blake3 := by
  obtain ⟨⟨id, hid, hvalid⟩, hsize, hcount, hkey, nonce, hnonce, hlen⟩ := hok
  obtain ⟨key, hkey⟩ := Option.ne_none_iff_exists'.1 hkey
  have hne : ¬ e.chunkSize = 0 := by omega
  have hblob : blobId e = .ok id := by
    unfold blobId
    simp only [hid, hvalid, bind, Except.bind]
  unfold VaultReaderV2.readEntryToWriter VaultReaderV2.entryPlaintext
  simp only [hfind, hkey, hnonce, hblob, if_neg hne, bind, Except.bind]
  cases hopen : openBlob blobs id e.size e.chunkSize with
  | error err => simp
  | ok file =>
    have hfile := openBlob_length hopen
    have hpos := numChunks_pos (n := e.size) hsize.1
    obtain ⟨k, hk⟩ : ∃ k, k + 1 = numChunks e.size e.chunkSize := ⟨numChunks e.size e.chunkSize - 1, by omega⟩
    have hrounds := fun out => readChunks_rounds hsize.1 hcount hlen hfile key k 0 (file.length + 1) out (by omega)
      (by rw [List.length_drop]; omega)
    simp only [Nat.zero_mul, List.drop_zero, Nat.zero_add, Nat.one_mul, hk] at hrounds
    rw [← List.range_eq_range'] at hrounds
    simp only [streamDecrypt_eq_ok_iff hlen hsize, ← hrounds]
    cases r.readChunks file e key nonce (List.range (numChunks e.size e.chunkSize)) with
    | error err => simp
    | ok bytes =>
      by_cases hhash : P.hashContent bytes = e.blake3
      · simp only [if_pos hhash, Except.ok.injEq]
        constructor
        · rintro rfl
          exact ⟨rfl, hhash⟩
        · exact And.left
      · simp only [if_neg hhash, Except.ok.injEq, reduceCtorEq, false_iff, not_and]
        rintro rfl
        exact hhash

end Chunks

end FileSec
