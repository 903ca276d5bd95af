import FileSec.Prims

/-!
# The STREAM construction

Encryption of a byte stream in chunks and random access to one chunk of the result (`aead.rs`).  The ciphertext of a
stream is the concatenation of its sealed chunks, each a tag longer than its plaintext, so the chunk with index `c`
starts at `c * (chunkSize + tagLen)`: `encryptStreamWith_slice`.
-/

namespace FileSec

variable {P : Prims}

/-- `u32::to_be_bytes` -/
def be32 (n : Nat) : Bytes :=
  [UInt8.ofNat (n / 2 ^ 24), UInt8.ofNat (n / 2 ^ 16), UInt8.ofNat (n / 2 ^ 8), UInt8.ofNat n]

/-- The nonce of one chunk: the stream nonce, the counter and the last-chunk flag. -/
def chunkNonce (streamNonce : Bytes) (index : Nat) (isLast : Bool) : Bytes :=
  streamNonce ++ be32 index ++ [if isLast then 1 else 0]

/-- `decrypt_chunk_with` -/
def decryptChunkWith (P : Prims) (alg : AeadAlg) (key streamNonce : Bytes) (aad : P.Raw) (index : Nat) (isLast : Bool)
    (ciphertext : Bytes) : Result Bytes :=
  if streamNonce.length ≠ alg.streamNonceLen then .error (.format "stream nonce length".toList)
  else
    match P.openBytes alg key (chunkNonce streamNonce index isLast) aad ciphertext with
    | some pt => .ok pt
    | none => .error .auth

/-- The loop of `encrypt_stream_with` from the chunk `current` with the counter `index`; `rest` is what the reader has
left.  The first argument bounds the number of rounds. -/
def encryptChunks (P : Prims) (alg : AeadAlg) (key streamNonce : Bytes) (aad : P.Raw) (chunkSize : Nat) :
    Nat → Nat → Bytes → Bytes → Result Bytes
  | 0, _, _, _ => .error (.format "stream state".toList)
  | fuel + 1, index, current, rest =>
    if rest.take chunkSize = [] then
      .ok (P.sealBytes alg key (chunkNonce streamNonce index true) aad current)
    -- `encrypt_next` refuses the last counter value, `encrypt_last` takes it
    else if index = u32Max then .error .auth
    else
      match encryptChunks P alg key streamNonce aad chunkSize fuel (index + 1) (rest.take chunkSize)
          (rest.drop chunkSize) with
      | .error e => .error e
      | .ok out => .ok (P.sealBytes alg key (chunkNonce streamNonce index false) aad current ++ out)

/-- `encrypt_stream_with`: the bytes it writes. -/
def encryptStreamWith (P : Prims) (alg : AeadAlg) (key streamNonce : Bytes) (aad : P.Raw) (source : Bytes)
    (chunkSize : Nat) : Result Bytes :=
  if streamNonce.length ≠ alg.streamNonceLen then .error (.format "stream nonce length".toList)
  else if chunkSize = 0 ∨ chunkSize > maxChunkSize then .error (.format "chunk size".toList)
  else encryptChunks P alg key streamNonce aad chunkSize (source.length + 1) 0 (source.take chunkSize)
    (source.drop chunkSize)

/-! ### Counting chunks -/

theorem numChunks_of_le {n size : Nat} (h : n ≤ size) : numChunks n size = 1 := by
  unfold numChunks
  split
  · rfl
  · exact Nat.div_eq_of_lt_le (by omega) (by omega)

theorem numChunks_of_lt {n size : Nat} (hs : 0 < size) (h : size < n) :
    numChunks n size = numChunks (n - size) size + 1 := by
  unfold numChunks
  rw [if_neg (by omega), if_neg (by omega), ← Nat.add_div_right _ hs]
  congr 1
  omega

theorem numChunks_pos {n size : Nat} (hs : 0 < size) : 0 < numChunks n size := by
  rcases Nat.lt_or_ge size n with h | h
  · rw [numChunks_of_lt hs h]
    omega
  · rw [numChunks_of_le h]
    omega

/-- The plaintext length of the chunk with index `c`. -/
def chunkLen (n size c : Nat) : Nat := min size (n - c * size)

/-! ### The ciphertext, chunk by chunk -/

section Loop

variable {alg : AeadAlg} {key nonce : Bytes} {aad : P.Raw} {size : Nat}

private theorem take_eq_nil_iff {l : Bytes} (hs : 0 < size) : l.take size = [] ↔ l = [] := by
  rw [List.take_eq_nil_iff]
  constructor
  · rintro (h | h)
    · omega
    · exact h
  · exact Or.inr

/-- The loop fails exactly when the counter runs out. -/
private theorem encryptChunks_ok_iff (hs : 0 < size) (fuel index : Nat) (current rest : Bytes)
    (hi : index ≤ u32Max) (hf : rest.length < fuel) :
    (∃ out, encryptChunks P alg key nonce aad size fuel index current rest = .ok out) ↔
      rest = [] ∨ index + numChunks rest.length size ≤ u32Max := by
  induction fuel generalizing index current rest with
  | zero => omega
  | succ fuel ih =>
    unfold encryptChunks
    by_cases hr : rest = []
    · simp [hr]
    · have hlen : 0 < rest.length := List.length_pos_of_ne_nil hr
      have hpos : 0 < numChunks rest.length size := numChunks_pos hs
      rw [if_neg (by rwa [take_eq_nil_iff hs])]
      split
      · rename_i hlast
        simp [hr]
        omega
      · have hstep := ih (index + 1) (rest.take size) (rest.drop size) (by omega) (by simp; omega)
        have hcount : (rest.drop size = [] ∨ index + 1 + numChunks (rest.drop size).length size ≤ u32Max) ↔
            index + numChunks rest.length size ≤ u32Max := by
          rcases Nat.lt_or_ge size rest.length with h | h
          · have hne : rest.drop size ≠ [] := by
              intro e
              have := congrArg List.length e
              simp at this
              omega
            rw [numChunks_of_lt hs h, List.length_drop]
            simp only [hne, false_or]
            omega
          · rw [numChunks_of_le h]
            have hnil : rest.drop size = [] := List.drop_eq_nil_of_le h
            have hle : index + 1 ≤ u32Max := by omega
            simp only [hnil, true_or, hle]
        rw [hcount] at hstep
        rw [or_iff_right hr, ← hstep]
        cases encryptChunks P alg key nonce aad size fuel (index + 1) (rest.take size) (rest.drop size) with
        | error e => simp
        | ok out => simp

/-- The ciphertext of a stream, read at the place of its chunk `c`. -/
private theorem encryptChunks_slice (hs : 0 < size) (fuel index : Nat) (current rest out : Bytes)
    (hcur : current.length ≤ size) (hfull : rest ≠ [] → current.length = size)
    (h : encryptChunks P alg key nonce aad size fuel index current rest = .ok out) :
    out.length = (current ++ rest).length + numChunks (current ++ rest).length size * tagLen ∧
    ∀ c, c < numChunks (current ++ rest).length size →
      (out.drop (c * (size + tagLen))).take (chunkLen (current ++ rest).length size c + tagLen) =
        P.sealBytes alg key
          (chunkNonce nonce (index + c) (decide (c = numChunks (current ++ rest).length size - 1))) aad
          (((current ++ rest).drop (c * size)).take size) := by
  induction fuel generalizing index current rest out with
  | zero => simp [encryptChunks] at h
  | succ fuel ih =>
    unfold encryptChunks at h
    by_cases hr : rest = []
    · subst hr
      simp only [List.take_nil, ↓reduceIte, Except.ok.injEq] at h
      subst h
      rw [List.append_nil, numChunks_of_le hcur]
      refine ⟨by simp, ?_⟩
      intro c hc
      have hc0 : c = 0 := by omega
      subst hc0
      have hmin : chunkLen current.length size 0 = current.length := by
        unfold chunkLen
        omega
      rw [hmin, List.take_of_length_le (by simp)]
      simp [List.take_of_length_le hcur]
    · rw [if_neg (by rwa [take_eq_nil_iff hs])] at h
      split at h
      · simp at h
      · cases hrec : encryptChunks P alg key nonce aad size fuel (index + 1) (rest.take size) (rest.drop size) with
        | error e => simp [hrec] at h
        | ok out' =>
          simp only [hrec, Except.ok.injEq] at h
          subst h
          have hlen := hfull hr
          have hpos : 0 < rest.length := List.length_pos_of_ne_nil hr
          obtain ⟨hl, hslice⟩ := ih (index + 1) (rest.take size) (rest.drop size) out' (by simp)
            (by
              intro hne
              have := List.length_pos_of_ne_nil hne
              simp at this ⊢
              omega) hrec
          rw [List.take_append_drop] at hl hslice
          have hcount : numChunks (current ++ rest).length size = numChunks rest.length size + 1 := by
            rw [numChunks_of_lt hs (by simp; omega)]
            simp [hlen]
          have hcpos : 0 < numChunks rest.length size := numChunks_pos hs
          rw [hcount]
          refine ⟨by simp [hl, Nat.add_mul]; omega, ?_⟩
          intro c hc
          cases c with
          | zero =>
            have hmin : chunkLen (current ++ rest).length size 0 = size := by
              unfold chunkLen
              simp
              omega
            have hne : ¬ 0 = numChunks rest.length size + 1 - 1 := by omega
            rw [hmin, Nat.zero_mul, List.drop_zero, List.take_append_of_le_length (by simp; omega),
              List.take_of_length_le (by simp; omega), Nat.zero_mul, List.drop_zero,
              List.take_append_of_le_length (by omega), List.take_of_length_le hcur]
            rw [decide_eq_false hne]
            rfl
          | succ c =>
            have hdrop : (P.sealBytes alg key (chunkNonce nonce index false) aad current ++ out').drop
                ((c + 1) * (size + tagLen)) = out'.drop (c * (size + tagLen)) := by
              have : (c + 1) * (size + tagLen) =
                  (P.sealBytes alg key (chunkNonce nonce index false) aad current).length +
                    c * (size + tagLen) := by
                rw [Prims.length_sealBytes, hlen, Nat.add_mul]
                omega
              rw [this, List.drop_length_add_append]
            have hdrop' : (current ++ rest).drop ((c + 1) * size) = rest.drop (c * size) := by
              have : (c + 1) * size = current.length + c * size := by
                rw [hlen, Nat.add_mul]
                omega
              rw [this, List.drop_length_add_append]
            have hmin : chunkLen (current ++ rest).length size (c + 1) = chunkLen rest.length size c := by
              unfold chunkLen
              rw [List.length_append, hlen, Nat.add_mul]
              omega
            have hlast : (decide (c + 1 = numChunks rest.length size + 1 - 1)) =
                decide (c = numChunks rest.length size - 1) := by
              rw [decide_eq_decide]
              omega
            rw [hdrop, hdrop', hmin, hlast, hslice c (by omega)]
            congr 2
            omega

end Loop

section Stream

variable {alg : AeadAlg} {key nonce : Bytes} {aad : P.Raw} {source : Bytes} {size : Nat}

/-- Encryption succeeds exactly up to `2 ^ 32` chunks. -/
theorem encryptStreamWith_ok_iff (hn : nonce.length = alg.streamNonceLen) (hs : 0 < size) (hmax : size ≤ maxChunkSize) :
    (∃ out, encryptStreamWith P alg key nonce aad source size = .ok out) ↔
      numChunks source.length size ≤ u32Max + 1 := by
  have hrest : (source.drop size).length < source.length + 1 := by
    rw [List.length_drop]
    omega
  unfold encryptStreamWith
  rw [if_neg (by simpa using hn), if_neg (by omega), encryptChunks_ok_iff hs _ _ _ _ (Nat.zero_le _) hrest]
  rcases Nat.lt_or_ge size source.length with h | h
  · have hne : source.drop size ≠ [] := by
      intro e
      have := congrArg List.length e
      simp at this
      omega
    rw [numChunks_of_lt hs h, List.length_drop]
    simp only [hne, false_or]
    omega
  · rw [numChunks_of_le h]
    simp [h]

/-- The length of a ciphertext, and what stands at the place of each of its chunks. -/
theorem encryptStreamWith_slice {out : Bytes} (h : encryptStreamWith P alg key nonce aad source size = .ok out) :
    out.length = source.length + numChunks source.length size * tagLen ∧
    ∀ c, c < numChunks source.length size →
      (out.drop (c * (size + tagLen))).take (chunkLen source.length size c + tagLen) =
        P.sealBytes alg key (chunkNonce nonce c (decide (c = numChunks source.length size - 1))) aad
          ((source.drop (c * size)).take size) := by
  unfold encryptStreamWith at h
  split at h
  · simp at h
  · split at h
    · simp at h
    · rename_i hsize
      rw [not_or] at hsize
      have := encryptChunks_slice (by omega) _ _ _ _ _ (by simp)
        (by
          intro hne
          have := List.length_pos_of_ne_nil hne
          simp at this ⊢
          omega) h
      rw [List.take_append_drop] at this
      simpa using this

/-- Opening the sealed chunk `c` under its own nonce gives the plaintext of the chunk. -/
theorem decryptChunkWith_sealBytes (hn : nonce.length = alg.streamNonceLen) (c : Nat) (isLast : Bool) (pt : Bytes) :
    decryptChunkWith P alg key nonce aad c isLast
      (P.sealBytes alg key (chunkNonce nonce c isLast) aad pt) = .ok pt := by
  unfold decryptChunkWith
  rw [if_neg (by simpa using hn)]
  simp

/-- The chunks of a stream, put together again. -/
theorem flatMap_chunks (source : Bytes) (hs : 0 < size) :
    (List.range (numChunks source.length size)).flatMap (fun c => (source.drop (c * size)).take size) = source := by
  obtain ⟨n, hn⟩ : ∃ n, numChunks source.length size = n := ⟨_, rfl⟩
  induction n generalizing source with
  | zero => have := numChunks_pos (n := source.length) hs; omega
  | succ n ih =>
    rw [hn, List.range_succ_eq_map, List.flatMap_cons, List.flatMap_map]
    rcases Nat.lt_or_ge size source.length with h | h
    · rw [numChunks_of_lt hs h] at hn
      have hd : (source.drop size).length = source.length - size := by simp
      have hstep := ih (source.drop size) (by rw [hd]; omega)
      rw [show numChunks (source.drop size).length size = n by rw [hd]; omega] at hstep
      conv => rhs; rw [← List.take_append_drop size source, ← hstep]
      congr 1
      · simp
      · congr 1
        funext c
        rw [List.drop_drop]
        congr 2
        rw [Nat.succ_mul]
        omega
    · rw [numChunks_of_le h] at hn
      have hn0 : n = 0 := by omega
      subst hn0
      simp [List.take_of_length_le h]

end Stream

end FileSec
