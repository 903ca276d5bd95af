import FileSec.Streaming
import FileSec.Fsec.Written

/-!
# Reading one file of a container

`decrypt_entry_to_writer` seeks to the chunks that a file touches and decrypts no others (`format.rs`).  A container
*holds* data when each chunk decrypts, at its place, to its part of the data (`VaultReader.Holds`); then a file reads as
its slice of the data, if the hash is right (`decryptEntryToWriter_eq`).  A written container holds what has been
streamed into it (`Wrote.holds`), and any container holds what its stream gives, if that is all (`holds_of_stream`).
-/

namespace FileSec.Fsec

variable {P : Prims} (C : FsecPrims P)

/-- `VaultReader::file_entry` -/
def VaultReader.fileEntry (r : VaultReader) (path : Str) : Result Entry := do
  let norm ← normalizePath path
  match r.manifest.entries.find? fun e => e.path = norm with
  | none => .error (.vault "entry not found".toList)
  | some entry => if entry.kind ≠ .file then .error (.vault "not a file".toList) else .ok entry

/-- The length of the plaintext of a chunk. -/
def VaultReader.ptLen (r : VaultReader) (c : Nat) : Nat :=
  if c = r.numChunks - 1 then r.totalPlaintext - (r.numChunks - 1) * r.dataChunkSize else r.dataChunkSize

/-- The chunk at its place in the file, decrypted. -/
def VaultReader.decryptChunkAt (r : VaultReader) (file : Bytes) (c : Nat) : Result Bytes := do
  let (ct, _) ← readFile (r.ptLen c + tagLen) (file.drop (r.dataSectionOffset + c * (r.dataChunkSize + tagLen)))
  decryptChunkWith P r.suite.aeadAlg r.cek r.dataStreamNonce (C.aad r.headerBytes) c (c = r.numChunks - 1) ct

/-- The part of a chunk that overlaps the wanted file. -/
def VaultReader.overlap (r : VaultReader) (file : Bytes) (fileStart fileEnd c : Nat) : Result Bytes := do
  let pt ← r.decryptChunkAt C file c
  let lo := fileStart - c * r.dataChunkSize
  let hi := min fileEnd (c * r.dataChunkSize + r.ptLen c) - c * r.dataChunkSize
  refuseIf (hi > pt.length ∨ lo > hi) (.format "chunk range mismatch".toList)
  .ok ((pt.take hi).drop lo)

/-- The loop of `decrypt_entry_to_writer` over the chunks: what it writes. -/
def VaultReader.overlaps (r : VaultReader) (file : Bytes) (fileStart fileEnd : Nat) : List Nat → Result Bytes
  | [] => .ok []
  | c :: cs => do
    let part ← r.overlap C file fileStart fileEnd c
    let rest ← overlaps r file fileStart fileEnd cs
    .ok (part ++ rest)

/-- `decrypt_entry_to_writer` into a buffer. -/
def VaultReader.decryptEntryToWriter (r : VaultReader) (file : Bytes) (entry : Entry) : Result Bytes :=
  if entry.size = 0 then if P.hashContent [] ≠ entry.blake3 then .error .auth else .ok []
  else do
    let fileStart := entry.dataOffset
    refuseIf (fileStart + entry.size > u64Max) (.format "entry range overflow".toList)
    let fileEnd := fileStart + entry.size
    let first := fileStart / r.dataChunkSize
    let last := (fileEnd - 1) / r.dataChunkSize
    refuseIf (last > r.numChunks - 1) (.format "entry range out of bounds".toList)
    let bytes ← r.overlaps C file fileStart fileEnd (List.range' first (last + 1 - first))
    refuseIf (P.hashContent bytes ≠ entry.blake3) .auth
    .ok bytes

/-- `read_entry_to_writer` into a buffer. -/
def VaultReader.readEntryToWriter (r : VaultReader) (file : Bytes) (path : Str) : Result Bytes := do
  let entry ← r.fileEntry path
  r.decryptEntryToWriter C file entry

/-! ### Files as slices of the data -/

/-- Each chunk decrypts, at its place, to its part of the data.  The one chunk of an empty stream is never read. -/
structure VaultReader.Holds (r : VaultReader) (file data : Bytes) : Prop where
  length : data.length = r.totalPlaintext
  chunkSize : 0 < r.dataChunkSize
  count : r.numChunks = FileSec.numChunks r.totalPlaintext r.dataChunkSize
  chunk : 0 < data.length → ∀ c < r.numChunks,
    r.decryptChunkAt C file c = .ok ((data.drop (c * r.dataChunkSize)).take r.dataChunkSize)

variable {C} {r : VaultReader} {file data : Bytes}

/-- The length that the code computes is that of the chunk. -/
theorem ptLen_eq (hs : 0 < r.dataChunkSize) (hcount : r.numChunks = numChunks r.totalPlaintext r.dataChunkSize) {c : Nat}
    (hc : c < r.numChunks) : r.ptLen c = chunkLen r.totalPlaintext r.dataChunkSize c := by
  unfold VaultReader.ptLen
  rw [hcount] at hc ⊢
  split
  · rename_i hlast
    rw [hlast]
    exact chunkLen_last hs
  · exact chunkLen_of_lt hs (by omega)

/-- What is written of a chunk, by where it begins and ends in the data. -/
private theorem overlap_eq (h : r.Holds C file data) {fileStart fileEnd c : Nat} (hc : c < r.numChunks)
    (hstart : fileStart < (c + 1) * r.dataChunkSize) (hend : c * r.dataChunkSize < fileEnd) (hlt : fileStart < fileEnd)
    (hin : fileEnd ≤ data.length) :
    r.overlap C file fileStart fileEnd c =
      .ok ((data.take (min fileEnd ((c + 1) * r.dataChunkSize))).drop (max fileStart (c * r.dataChunkSize))) := by
  have hlen := h.length
  have hpt := ptLen_eq h.chunkSize h.count hc
  unfold chunkLen at hpt
  have hsucc : (c + 1) * r.dataChunkSize = c * r.dataChunkSize + r.dataChunkSize := Nat.succ_mul _ _
  have hpart : ((data.drop (c * r.dataChunkSize)).take r.dataChunkSize).length = r.ptLen c := by
    rw [List.length_take, List.length_drop, hpt, hlen]
  unfold VaultReader.overlap
  rw [h.chunk (by omega) c hc]
  simp only [bind_eq_ok, refuseIf_eq_ok, exists_const, Except.ok.injEq, exists_eq_left', hpart]
  refine ⟨by omega, ?_⟩
  rw [List.take_take, List.drop_take, List.drop_take, List.drop_drop]
  have hfrom : c * r.dataChunkSize + (fileStart - c * r.dataChunkSize) = max fileStart (c * r.dataChunkSize) := by omega
  rw [hfrom]
  congr 1
  omega

private theorem overlaps_eq {fileStart fileEnd : Nat} {f : Nat → Bytes} {cs : List Nat}
    (h : ∀ c ∈ cs, r.overlap C file fileStart fileEnd c = .ok (f c)) :
    r.overlaps C file fileStart fileEnd cs = .ok (cs.flatMap f) := by
  induction cs with
  | nil => rfl
  | cons c cs ih =>
    have hhead := h c List.mem_cons_self
    have htail := ih fun c' hc' => h c' (List.mem_cons_of_mem _ hc')
    simp only [VaultReader.overlaps, hhead, htail, bind, Except.bind, List.flatMap_cons]

/-- A slice, cut at any place in it. -/
private theorem drop_take_append {l : Bytes} {a x y : Nat} (hax : a ≤ x) (hxy : x ≤ y) (hx : x ≤ l.length) :
    (l.take x).drop a ++ (l.take y).drop x = (l.take y).drop a := by
  have hcut : l.take y = l.take x ++ (l.take y).drop x := by
    have := List.take_append_drop x (l.take y)
    rwa [List.take_take, Nat.min_eq_left hxy, eq_comm] at this
  have hlen : a ≤ (l.take x).length := by
    rw [List.length_take]
    omega
  rw [hcut, List.drop_append_of_le_length hlen, ← hcut]

/-- The overlaps of consecutive chunks with a file, together. -/
private theorem flatMap_overlaps (data : Bytes) {s fileStart fileEnd first : Nat} (hfirst : first * s ≤ fileStart)
    (hstart : fileStart < (first + 1) * s) (hin : fileEnd ≤ data.length) (hlt : fileStart < fileEnd) (k : Nat)
    (hk : (first + k) * s < fileEnd + s) :
    (List.range' first k).flatMap (fun c => (data.take (min fileEnd ((c + 1) * s))).drop (max fileStart (c * s))) =
      (data.take (min fileEnd ((first + k) * s))).drop fileStart := by
  induction k with
  | zero =>
    rw [Nat.add_zero, List.range'_zero, List.flatMap_nil, eq_comm, List.drop_eq_nil_iff, List.length_take]
    omega
  | succ k ih =>
    have hsucc : (first + (k + 1)) * s = (first + k) * s + s := by rw [← Nat.add_assoc, Nat.succ_mul]
    rw [List.range'_concat, List.flatMap_append, ih (by omega), List.flatMap_singleton, Nat.one_mul]
    rcases Nat.eq_zero_or_pos k with rfl | hk0
    · -- nothing comes before the first chunk
      have hnil : (data.take (min fileEnd ((first + 0) * s))).drop fileStart = [] := by
        rw [List.drop_eq_nil_iff, List.length_take]
        simp only [Nat.add_zero]
        omega
      rw [hnil, List.nil_append, Nat.add_zero, Nat.max_eq_left hfirst]
    · have hle : (first + 1) * s ≤ (first + k) * s := Nat.mul_le_mul_right _ (by omega)
      have hmid : min fileEnd ((first + k) * s) = (first + k) * s := by omega
      rw [hmid, Nat.max_eq_right (by omega), ← Nat.add_assoc, Nat.succ_mul]
      exact drop_take_append (by omega) (by omega) (by omega)

/-- A file reads as its slice of the data, if the hash is right. -/
theorem decryptEntryToWriter_eq (h : r.Holds C file data) {e : Entry} (hin : e.dataOffset + e.size ≤ data.length)
    (hmax : data.length ≤ u64Max) :
    r.decryptEntryToWriter C file e =
      if P.hashContent ((data.drop e.dataOffset).take e.size) = e.blake3 then .ok ((data.drop e.dataOffset).take e.size)
      else .error .auth := by
  have hs := h.chunkSize
  unfold VaultReader.decryptEntryToWriter
  by_cases hsize : e.size = 0
  · rw [if_pos hsize, hsize, List.take_zero, ite_not]
  · rw [if_neg hsize]
    have hlast : (e.dataOffset + e.size - 1) / r.dataChunkSize < r.numChunks := by
      have hle := le_numChunks_mul r.totalPlaintext hs
      rw [h.count, Nat.div_lt_iff_lt_mul hs, ← h.length]
      rw [← h.length] at hle
      omega
    have hfirst := Nat.div_mul_le_self e.dataOffset r.dataChunkSize
    have hfirst' := Nat.lt_div_mul_add (a := e.dataOffset) hs
    have hlow := Nat.div_mul_le_self (e.dataOffset + e.size - 1) r.dataChunkSize
    have hhigh := Nat.lt_div_mul_add (a := e.dataOffset + e.size - 1) hs
    have hmono : e.dataOffset / r.dataChunkSize ≤ (e.dataOffset + e.size - 1) / r.dataChunkSize :=
      Nat.div_le_div_right (by omega)
    dsimp only
    generalize e.dataOffset / r.dataChunkSize = first at hfirst hfirst' hmono ⊢
    generalize (e.dataOffset + e.size - 1) / r.dataChunkSize = last at hlast hlow hhigh hmono ⊢
    have hread : r.overlaps C file e.dataOffset (e.dataOffset + e.size) (List.range' first (last + 1 - first)) =
        .ok ((data.drop e.dataOffset).take e.size) := by
      rw [overlaps_eq fun c hc => overlap_eq h (c := c) ?_ ?_ ?_ (by omega) hin]
      · rw [flatMap_overlaps data hfirst (by rw [Nat.succ_mul]; omega) hin (by omega)]
        · have hsum : first + (last + 1 - first) = last + 1 := by omega
          rw [hsum, Nat.succ_mul, Nat.min_eq_left (by omega), List.drop_take, Nat.add_sub_cancel_left]
        · have hsum : first + (last + 1 - first) = last + 1 := by omega
          rw [hsum, Nat.succ_mul]
          omega
      all_goals
        obtain ⟨i, hi, rfl⟩ := List.mem_range'.1 hc
        rw [Nat.one_mul] at *
      · omega
      · have hle : first * r.dataChunkSize ≤ (first + i) * r.dataChunkSize := Nat.mul_le_mul_right _ (by omega)
        rw [Nat.succ_mul]
        omega
      · have hle : (first + i) * r.dataChunkSize ≤ last * r.dataChunkSize := Nat.mul_le_mul_right _ (by omega)
        omega
    have hlast' : ¬ last > r.numChunks - 1 := by omega
    have hmax' : ¬ e.dataOffset + e.size > u64Max := by omega
    by_cases hhash : P.hashContent ((data.drop e.dataOffset).take e.size) = e.blake3
    · rw [if_pos hhash]
      simp only [bind_eq_ok, refuseIf_eq_ok, exists_const, Except.ok.injEq]
      exact ⟨hmax', hlast', _, hread, not_not.2 hhash, rfl⟩
    · rw [if_neg hhash]
      simp only [refuseIf, if_neg hmax', if_neg hlast', hread, if_pos hhash, ne_eq, bind, Except.bind]

/-! ### What a container holds -/

/-- The data section of the file. -/
def VaultReader.dataSection (r : VaultReader) (file : Bytes) : Bytes := (file.drop r.dataSectionOffset).take r.dataLen

/-- The data section is in the file, and its length that of the ciphertext. -/
structure VaultReader.Fits (r : VaultReader) (file : Bytes) : Prop where
  chunkSize : 0 < r.dataChunkSize
  count : r.numChunks = FileSec.numChunks r.totalPlaintext r.dataChunkSize
  inside : r.dataSectionOffset + r.dataLen ≤ file.length

theorem VaultReader.Fits.length_eq (h : r.Fits file) :
    (r.dataSection file).length = r.totalPlaintext + FileSec.numChunks r.totalPlaintext r.dataChunkSize * tagLen := by
  have hin := h.inside
  unfold VaultReader.dataSection
  rw [List.length_take, List.length_drop, Nat.min_eq_left (by omega)]
  unfold VaultReader.dataLen
  rw [h.count]

/-- A chunk at its place in the file is a chunk at its place in the data section. -/
theorem decryptChunkAt_eq (h : r.Fits file) {c : Nat} (hc : c < r.numChunks) :
    r.decryptChunkAt C file c =
      decryptChunkWith P r.suite.aeadAlg r.cek r.dataStreamNonce (C.aad r.headerBytes) c (c = r.numChunks - 1)
        (((r.dataSection file).drop (c * (r.dataChunkSize + tagLen))).take (r.dataChunkSize + tagLen)) := by
  have hin := h.inside
  have hpt := ptLen_eq h.chunkSize h.count hc
  have hlen : r.dataLen = r.totalPlaintext + numChunks r.totalPlaintext r.dataChunkSize * tagLen := by
    rw [VaultReader.dataLen, h.count]
  obtain ⟨hmid, hlast⟩ := chunk_bounds h.chunkSize hlen
  unfold chunkLen at hpt
  -- the chunk ends where the next begins, or where the section does
  have hread : min (r.dataChunkSize + tagLen) (r.dataLen - c * (r.dataChunkSize + tagLen)) = r.ptLen c + tagLen ∧
      c * (r.dataChunkSize + tagLen) + (r.ptLen c + tagLen) ≤ r.dataLen := by
    rcases Nat.lt_or_ge (c + 1) r.numChunks with hlt | hge
    · have hfull := chunkLen_of_lt (n := r.totalPlaintext) (c := c) h.chunkSize (by rw [← h.count]; omega)
      unfold chunkLen at hfull
      have hnext := hmid c (by rw [← h.count]; exact hlt)
      rw [Nat.succ_mul] at hnext
      omega
    · obtain ⟨hend, hle⟩ := hlast c (by rw [← h.count]; omega)
      omega
  unfold VaultReader.decryptChunkAt readFile
  rw [if_neg (by rw [List.length_drop]; omega)]
  dsimp only [bind, Except.bind]
  congr 1
  unfold VaultReader.dataSection
  rw [List.drop_take, List.take_take, hread.1, List.drop_drop]

/-- A stream that gives as much as the lengths promise has opened every chunk. -/
private theorem rounds_chunks (hopen : TagOnly P) {alg : AeadAlg} {key nonce ciphertext : Bytes} {aad : P.Raw}
    {total size : Nat} (hs : 0 < size) (hnonce : nonce.length = alg.streamNonceLen)
    (hlen : ciphertext.length = total + numChunks total size * tagLen) (k index : Nat) {fuel : Nat} {out : Bytes}
    {res : Result Unit} (hk : index + k + 1 = numChunks total size)
    (h : decryptRounds P.openBytes aad (size + tagLen) (fuel + 1) ⟨alg, key, nonce, index⟩
      ((ciphertext.drop (index * (size + tagLen))).take (size + tagLen))
      (ciphertext.drop ((index + 1) * (size + tagLen))) = (out, res))
    (hf : (ciphertext.drop ((index + 1) * (size + tagLen))).length < fuel + 1) (hout : total - index * size ≤ out.length) :
    out.length = total - index * size ∧ (0 < total → ∀ c, index ≤ c → c < numChunks total size →
      decryptChunkWith P alg key nonce aad c (c = numChunks total size - 1)
        ((ciphertext.drop (c * (size + tagLen))).take (size + tagLen)) = .ok ((out.drop ((c - index) * size)).take size)) := by
  obtain ⟨hmid, hlast⟩ := chunk_bounds hs hlen
  have hchunk : ∀ c isLast msg pt, P.openBytes alg key (chunkNonce nonce c isLast) aad msg = some pt →
      decryptChunkWith P alg key nonce aad c isLast msg = .ok pt := by
    intro c isLast msg pt hpt
    unfold decryptChunkWith
    rw [if_neg (not_not.2 hnonce), hpt]
  have hsucc : (index + 1) * (size + tagLen) = index * (size + tagLen) + (size + tagLen) := Nat.succ_mul _ _
  have hpos : 0 < total → ∀ c < numChunks total size, c * size < total := by
    intro ht c hc
    obtain ⟨-, hlt⟩ := numChunks_bounds hs ht
    have hle : (c + 1) * size ≤ numChunks total size * size := Nat.mul_le_mul_right _ hc
    rw [Nat.succ_mul] at hle
    omega
  have hcur : ((ciphertext.drop (index * (size + tagLen))).take (size + tagLen)).length =
      min (size + tagLen) (ciphertext.length - index * (size + tagLen)) := by
    rw [List.length_take, List.length_drop]
  unfold decryptRounds at h
  induction k generalizing index fuel out res with
  | zero =>
    obtain ⟨hend, hle⟩ := hlast index (by omega)
    have hindex : index = numChunks total size - 1 := by omega
    have hrest : ciphertext.drop ((index + 1) * (size + tagLen)) = [] := List.drop_eq_nil_of_le (by omega)
    rw [hrest, List.take_nil, if_pos rfl] at h
    unfold StreamDecryptor.decryptLast at h
    cases hpt : P.openBytes alg key (chunkNonce nonce index true) aad
        ((ciphertext.drop (index * (size + tagLen))).take (size + tagLen)) with
    | none =>
      simp only [hpt, Prod.mk.injEq] at h
      rw [← h.1, List.length_nil] at hout ⊢
      refine ⟨by omega, fun ht => ?_⟩
      have := hpos ht index (by omega)
      omega
    | some pt =>
      simp only [hpt, Prod.mk.injEq] at h
      have hlength := hopen _ _ _ _ _ _ hpt
      rw [← h.1]
      refine ⟨by omega, fun _ c hc hcn => ?_⟩
      obtain rfl : c = index := by omega
      have hall : pt.take size = pt := List.take_of_length_le (by omega)
      rw [Nat.sub_self, Nat.zero_mul, List.drop_zero, hall]
      exact hchunk _ _ _ _ (by rw [decide_eq_true hindex]; exact hpt)
  | succ k ih =>
    have hmore := hmid index (by omega)
    have hindex : ¬ index = numChunks total size - 1 := by omega
    have hnext : (ciphertext.drop ((index + 1) * (size + tagLen))).take (size + tagLen) ≠ [] := by
      rw [Ne, List.take_eq_nil_iff, List.drop_eq_nil_iff]
      omega
    have hdrop : (ciphertext.drop ((index + 1) * (size + tagLen))).drop (size + tagLen) =
        ciphertext.drop ((index + 1 + 1) * (size + tagLen)) := by
      rw [List.drop_drop, Nat.succ_mul (index + 1)]
    have ht : 0 < total := by
      by_contra hz
      obtain rfl : total = 0 := by omega
      simp [numChunks] at hk
    have hplace := hpos ht (index + 1) (by omega)
    rw [Nat.succ_mul] at hplace
    rw [if_neg hnext] at h
    unfold StreamDecryptor.decryptNext at h
    by_cases hposition : index = u32Max
    · simp only [if_pos hposition, Prod.mk.injEq] at h
      rw [← h.1, List.length_nil] at hout
      omega
    · simp only [if_neg hposition] at h
      cases hpt : P.openBytes alg key (chunkNonce nonce index false) aad
          ((ciphertext.drop (index * (size + tagLen))).take (size + tagLen)) with
      | none =>
        simp only [hpt, Prod.mk.injEq] at h
        rw [← h.1, List.length_nil] at hout
        omega
      | some pt =>
        simp only [hpt, hdrop] at h
        have hlength := hopen _ _ _ _ _ _ hpt
        obtain ⟨fuel, rfl⟩ : ∃ m, fuel = m + 1 := ⟨fuel - 1, by rw [List.length_drop] at hf; omega⟩
        generalize htail : decryptRounds P.openBytes aad (size + tagLen) (fuel + 1) _ _ _ = tail at h
        obtain ⟨tail, res'⟩ := tail
        simp only [Prod.mk.injEq] at h
        obtain ⟨rfl, -⟩ := h
        have hptlen : pt.length = size := by omega
        rw [List.length_append, hptlen] at hout ⊢
        have hstep : (index + 1) * size = index * size + size := Nat.succ_mul _ _
        unfold decryptRounds at htail
        obtain ⟨hlen', hall⟩ := ih (index + 1) (by omega)
          (by rw [List.length_drop] at hf ⊢; rw [Nat.succ_mul (index + 1)]; omega) (by omega) (Nat.succ_mul _ _)
          (by rw [List.length_take, List.length_drop]) htail
        refine ⟨by omega, fun _ c hc hcn => ?_⟩
        rcases Nat.eq_or_lt_of_le hc with rfl | hlt
        · rw [Nat.sub_self, Nat.zero_mul, List.drop_zero, List.take_left' hptlen]
          exact hchunk _ _ _ _ (by rw [decide_eq_false hindex]; exact hpt)
        · have hdiff : (c - index) * size = pt.length + (c - (index + 1)) * size := by
            have : c - index = c - (index + 1) + 1 := by omega
            rw [this, Nat.succ_mul, hptlen, Nat.add_comm]
          rw [hall ht c hlt hcn, hdiff, ← List.drop_drop, List.drop_left]

/-- A container holds what its stream gives, if that is as much as the manifest says. -/
theorem holds_of_stream (hopen : TagOnly P) (h : r.Fits file) {stream : StreamDecryptReader P}
    (hstream : r.plaintextReader C file = .ok stream)
    (hall : r.totalPlaintext ≤ (stream.left P.openBytes).1.length) :
    r.Holds C file (stream.left P.openBytes).1 := by
  have hs := h.chunkSize
  have hpos := numChunks_pos (n := r.totalPlaintext) hs
  obtain ⟨-, hbytes, -⟩ := StreamDecryptReader.newWith_left P.openBytes hstream
  have hlen := h.length_eq
  have hstream : StreamDecryptReader.newWith r.suite.aeadAlg r.cek r.dataStreamNonce (C.aad r.headerBytes)
    (r.dataSection file) r.dataChunkSize = .ok stream := hstream
  change _ = (decryptStreamWith P.openBytes r.suite.aeadAlg r.cek r.dataStreamNonce (C.aad r.headerBytes)
    (r.dataSection file) r.dataChunkSize).1 at hbytes
  unfold StreamDecryptReader.newWith at hstream
  unfold decryptStreamWith at hbytes
  split at hstream
  · cases hstream
  · rename_i hnonce
    split at hstream
    · cases hstream
    · rename_i hsize
      rw [if_neg hnonce, if_neg hsize] at hbytes
      dsimp only at hbytes
      obtain ⟨out, hout⟩ : ∃ out, (stream.left P.openBytes).1 = out := ⟨_, rfl⟩
      rw [hout] at hall hbytes ⊢
      generalize hrounds : decryptRounds P.openBytes (C.aad r.headerBytes) (r.dataChunkSize + tagLen) _ _ _ _ = rounds
        at hbytes
      obtain ⟨out', res⟩ := rounds
      obtain rfl : out = out' := hbytes
      obtain ⟨hlength, hchunks⟩ := rounds_chunks hopen hs (not_not.1 hnonce) hlen
        (numChunks r.totalPlaintext r.dataChunkSize - 1) 0 (by omega)
        (by simpa only [Nat.zero_mul, List.drop_zero, Nat.zero_add, Nat.one_mul] using hrounds)
        (by rw [List.length_drop]; omega) (by omega)
      rw [Nat.zero_mul, Nat.sub_zero] at hlength
      refine ⟨hlength, hs, h.count, fun hne c hc => ?_⟩
      rw [decryptChunkAt_eq h hc, h.count]
      exact hchunks (by omega) c (Nat.zero_le c) (h.count ▸ hc)

section Parsed

variable {bytes : Bytes} {identity : Identity C} {header : Header} {suite : SuiteId} {cek : Bytes} {manifest : Manifest}
  {layout : Nat × Nat}

theorem Parses.fits (h : Parses C bytes identity header suite cek manifest layout) :
    (readerOf bytes header suite cek manifest layout).Fits bytes := by
  obtain ⟨hne, -, shape, -, hcount, -⟩ := validateManifestLayout_eq_ok.1 h.layout
  refine ⟨Nat.pos_of_ne_zero hne, hcount, ?_⟩
  rw [h.dataLen_eq]
  have hlen := h.length_eq
  show dataStart bytes header + header.dataLen ≤ bytes.length
  omega

theorem Parses.plaintextReader_eq (h : Parses C bytes identity header suite cek manifest layout) :
    (readerOf bytes header suite cek manifest layout).plaintextReader C bytes = dataReader C bytes header suite cek := by
  unfold VaultReader.plaintextReader
  rw [h.dataLen_eq]
  rfl

end Parsed

/-- A written container holds the data that have been streamed into it. -/
theorem ContainerPlan.Wrote.holds (hopen : TagOnly P) {plan : ContainerPlan C} {data : ByteStream}
    {out encData trailer : Bytes} (h : plan.Wrote data out encData trailer) {manifest : Manifest} {dataPlaintextLen : Nat}
    {sender : Identity C} {recipients : List Peer.PublicIdentity} {options : ExportOptions} {header : Header}
    (hm : plan.Made manifest dataPlaintextLen sender recipients options header) (hmax : plan.manifestLen ≤ maxManifestLen)
    {identity : Identity C} {layout : Nat × Nat}
    (hp : Parses C out identity header options.suite plan.cek manifest layout) (hlen : data.bytes.length = layout.1) :
    (readerOf out header options.suite plan.cek manifest layout).Holds C out data.bytes := by
  obtain ⟨stream, hstream, -, hleft⟩ := h.dataReader_eq hm hmax
  rw [← hp.plaintextReader_eq] at hstream
  have hheld := holds_of_stream hopen hp.fits hstream (by rw [hleft]; exact hlen.ge)
  rwa [hleft] at hheld

end FileSec.Fsec
