import FileSec.Fsec.Rewrite

/-!
# The arithmetic of random access

`decrypt_entry_to_writer` computes with numbers that come from different parts of the file, in 64 bits and without
looking (`format.rs`).  `decryptEntryChecked` is the same function with operations that fail instead of wrapping around.
For whatever `open_reader_inner` has accepted it never fails (`randomAccess_safe`).
-/

namespace FileSec.Fsec

variable {P : Prims} (C : FsecPrims P)

/-! ### Operations that fail -/

/-- `a + b` in 64 bits. -/
def addU64 (a b : Nat) : Option Nat := if a + b ≤ u64Max then some (a + b) else none

/-- `a - b` in 64 bits. -/
def subU64 (a b : Nat) : Option Nat := if b ≤ a then some (a - b) else none

/-- `a * b` in 64 bits. -/
def mulU64 (a b : Nat) : Option Nat := if a * b ≤ u64Max then some (a * b) else none

/-- `a / b` in 64 bits. -/
def divU64 (a b : Nat) : Option Nat := if b ≠ 0 then some (a / b) else none

/-- `a as u32`. -/
def asU32 (a : Nat) : Option Nat := if a ≤ u32Max then some a else none

/-- `a as usize`, which has 64 bits. -/
def asUsize (a : Nat) : Option Nat := if a ≤ u64Max then some a else none

section Defined

variable {a b : Nat}

private theorem addU64_eq (h : a + b ≤ u64Max) : addU64 a b = some (a + b) := if_pos h

private theorem subU64_eq (h : b ≤ a) : subU64 a b = some (a - b) := if_pos h

private theorem mulU64_eq (h : a * b ≤ u64Max) : mulU64 a b = some (a * b) := if_pos h

private theorem divU64_eq (h : b ≠ 0) : divU64 a b = some (a / b) := if_pos h

private theorem asU32_eq (h : a ≤ u32Max) : asU32 a = some a := if_pos h

private theorem asUsize_eq (h : a ≤ u64Max) : asUsize a = some a := if_pos h

end Defined

/-- `VaultReader::data_len` -/
def VaultReader.dataLenChecked (r : VaultReader) : Option Nat := do
  let tags ← mulU64 r.numChunks tagLen
  addU64 r.totalPlaintext tags

/-- What one round of the loop of `decrypt_entry_to_writer` computes about a chunk: the chunk's length and place, its
index in the stream, and the part of it that belongs to the file. -/
structure ChunkRead where
  ctLen : Nat
  ctOff : Nat
  index : Nat
  lo : Nat
  hi : Nat
  deriving DecidableEq

/-- The length of the plaintext of a chunk. -/
def VaultReader.ptLenChecked (r : VaultReader) (lastIndex c : Nat) : Option Nat :=
  if c = lastIndex then (mulU64 lastIndex r.dataChunkSize).bind (subU64 r.totalPlaintext) else some r.dataChunkSize

/-- The computations of one round. -/
def VaultReader.chunkRead (r : VaultReader) (fileStart fileEnd c : Nat) : Option ChunkRead := do
  let chunk := r.dataChunkSize
  let lastIndex ← subU64 r.numChunks 1
  let ptLen ← r.ptLenChecked lastIndex c
  let ctLen ← (addU64 ptLen tagLen).bind asUsize
  let stride ← addU64 chunk tagLen
  let before ← mulU64 c stride
  let ctOff ← addU64 r.dataSectionOffset before
  let index ← asU32 c
  let chunkStart ← mulU64 c chunk
  let lo ← asUsize (fileStart - chunkStart)
  let stop ← addU64 chunkStart ptLen
  let hi ← (subU64 (min fileEnd stop) chunkStart).bind asUsize
  some ⟨ctLen, ctOff, index, lo, hi⟩

/-- The rest of the round: the chunk is read and decrypted, and its part of the file is written. -/
def VaultReader.overlapAt (r : VaultReader) (file : Bytes) (isLast : Bool) (k : ChunkRead) : Result Bytes := do
  let (ct, _) ← readFile k.ctLen (file.drop k.ctOff)
  let pt ← decryptChunkWith P r.suite.aeadAlg r.cek r.dataStreamNonce (C.aad r.headerBytes) k.index isLast ct
  refuseIf (k.hi > pt.length ∨ k.lo > k.hi) (.format "chunk range mismatch".toList)
  .ok ((pt.take k.hi).drop k.lo)

/-- The loop over the chunks. -/
def VaultReader.overlapsChecked (r : VaultReader) (file : Bytes) (fileStart fileEnd : Nat) :
    List Nat → Option (Result Bytes)
  | [] => some (.ok [])
  | c :: cs => do
    let k ← r.chunkRead fileStart fileEnd c
    match r.overlapAt C file (c = r.numChunks - 1) k with
    | .error e => some (.error e)
    | .ok part =>
      let rest ← overlapsChecked r file fileStart fileEnd cs
      some (rest.map (part ++ ·))

/-- `decrypt_entry_to_writer` with operations that fail instead of wrapping around. -/
def VaultReader.decryptEntryChecked (r : VaultReader) (file : Bytes) (entry : Entry) : Option (Result Bytes) :=
  if entry.size = 0 then some (if P.hashContent [] ≠ entry.blake3 then .error .auth else .ok [])
  else do
    let lastIndex ← subU64 r.numChunks 1
    match addU64 entry.dataOffset entry.size with
    | none => some (.error (.format "entry range overflow".toList))
    | some fileEnd =>
      let first ← divU64 entry.dataOffset r.dataChunkSize
      let last ← (subU64 fileEnd 1).bind (divU64 · r.dataChunkSize)
      if last > lastIndex then some (.error (.format "entry range out of bounds".toList))
      else
        let bytes ← r.overlapsChecked C file entry.dataOffset fileEnd (List.range' first (last + 1 - first))
        some (do
          let bytes ← bytes
          refuseIf (P.hashContent bytes ≠ entry.blake3) .auth
          .ok bytes)

/-! ### What opening has established -/

/-- The numbers of a reader that has been opened. -/
structure VaultReader.Bounded (r : VaultReader) : Prop where
  chunk_pos : 0 < r.dataChunkSize
  chunk_le : r.dataChunkSize ≤ maxChunkSize
  count : r.numChunks = FileSec.numChunks r.totalPlaintext r.dataChunkSize
  count_le : r.numChunks ≤ u32Max
  section_le : r.dataSectionOffset + r.dataLen ≤ u64Max
  laid : Laid 0 r.manifest.entries r.totalPlaintext

/-- A header that passes its check has chunks that are not too large. -/
private theorem check_chunkSize_le {header : Header} {suite : SuiteId} (h : header.check = .ok suite) :
    header.dataChunkSize ≤ maxChunkSize := by
  unfold Header.check at h
  simp only [bind_eq_ok, refuseIf_eq_ok, exists_const] at h
  omega

theorem bounded_of_open {file : Bytes} {identity : Identity C} {opened : Opened}
    (h : openReaderInner C file file.length identity = .ok opened) : opened.reader.Bounded := by
  obtain ⟨header, suite, cek, manifest, layout, hp, rfl⟩ := openReaderInner_eq_ok.1 h
  obtain ⟨hne, -, -, hl, hnum, hmax, -⟩ := validateManifestLayout_iff.1 hp.layout
  have hdata := hp.dataLen_eq
  have hlen := hp.length_eq
  have hle := hp.length_le
  refine ⟨Nat.pos_of_ne_zero hne, check_chunkSize_le hp.check, hnum, hmax, ?_, hl⟩
  rw [hdata]
  show dataStart file header + header.dataLen ≤ u64Max
  omega

variable {C} {r : VaultReader} {file : Bytes} {fileStart fileEnd c : Nat}

/-- Everything a round computes about a chunk of the stream, of a file that lies in the data. -/
private theorem chunkRead_eq (h : r.Bounded) (hc : c < r.numChunks) (hstart : c * r.dataChunkSize < fileEnd)
    (hle : fileStart ≤ fileEnd) (hin : fileEnd ≤ r.totalPlaintext) :
    r.chunkRead fileStart fileEnd c = some ⟨r.ptLen c + tagLen, r.dataSectionOffset + c * (r.dataChunkSize + tagLen), c,
      fileStart - c * r.dataChunkSize, min fileEnd (c * r.dataChunkSize + r.ptLen c) - c * r.dataChunkSize⟩ ∧
    c * (r.dataChunkSize + tagLen) + (r.ptLen c + tagLen) ≤ r.dataLen := by
  have hs := h.chunk_pos
  have hsize := h.chunk_le
  have hcount := h.count_le
  have hsection := h.section_le
  have hpt := ptLen_eq hs h.count hc
  have hdata : r.dataLen = r.totalPlaintext + numChunks r.totalPlaintext r.dataChunkSize * tagLen := by
    rw [VaultReader.dataLen, h.count]
  obtain ⟨hmid, hlast⟩ := chunk_bounds hs hdata
  have hfit : c * (r.dataChunkSize + tagLen) + (r.ptLen c + tagLen) ≤ r.dataLen := by
    rw [hpt]
    unfold chunkLen
    rcases Nat.lt_or_ge (c + 1) r.numChunks with hlt | hge
    · have hnext := hmid c (by rw [← h.count]; exact hlt)
      rw [Nat.succ_mul] at hnext
      omega
    · obtain ⟨hend, hle⟩ := hlast c (by rw [← h.count]; omega)
      omega
  refine ⟨?_, hfit⟩
  have htag : tagLen = 16 := rfl
  have hmax : maxChunkSize = 16 * 1024 * 1024 := rfl
  have hu64 : u64Max = 2 ^ 64 - 1 := rfl
  have hu32 : u32Max = 2 ^ 32 - 1 := rfl
  have hptle : r.ptLen c ≤ r.dataChunkSize := by
    rw [hpt]
    exact Nat.min_le_left _ _
  have hmul : c * r.dataChunkSize ≤ c * (r.dataChunkSize + tagLen) := Nat.mul_le_mul_left _ (by omega)
  -- the length of the last chunk is a difference that the code computes
  have hptlen : r.ptLenChecked (r.numChunks - 1) c = some (r.ptLen c) := by
    unfold VaultReader.ptLenChecked VaultReader.ptLen
    split
    · rename_i hlastc
      rw [← hlastc, mulU64_eq (by omega), Option.bind_some, subU64_eq (by omega)]
    · rfl
  unfold VaultReader.chunkRead
  rw [subU64_eq (by omega : 1 ≤ r.numChunks)]
  simp only [Option.bind_eq_bind, Option.bind_some, hptlen]
  rw [addU64_eq (by omega), Option.bind_some, asUsize_eq (by omega), addU64_eq (by omega)]
  simp only [Option.bind_some]
  rw [mulU64_eq (by omega), Option.bind_some, addU64_eq (by omega), Option.bind_some, asU32_eq (by omega),
    Option.bind_some, mulU64_eq (by omega), Option.bind_some, asUsize_eq (by omega), Option.bind_some,
    addU64_eq (by omega), Option.bind_some, subU64_eq (by omega), Option.bind_some, asUsize_eq (by omega),
    Option.bind_some]

/-- With these numbers, the rest of the round is that of the unchecked function. -/
private theorem overlapAt_eq {ctLen ctOff lo hi : Nat} (hlen : ctLen = r.ptLen c + tagLen)
    (hoff : ctOff = r.dataSectionOffset + c * (r.dataChunkSize + tagLen)) (hlo : lo = fileStart - c * r.dataChunkSize)
    (hhi : hi = min fileEnd (c * r.dataChunkSize + r.ptLen c) - c * r.dataChunkSize) :
    r.overlapAt C file (c = r.numChunks - 1) ⟨ctLen, ctOff, c, lo, hi⟩ = r.overlap C file fileStart fileEnd c := by
  subst hlen hoff hlo hhi
  unfold VaultReader.overlapAt VaultReader.overlap VaultReader.decryptChunkAt
  cases readFile (r.ptLen c + tagLen) (file.drop (r.dataSectionOffset + c * (r.dataChunkSize + tagLen))) with
  | error e => rfl
  | ok read => rfl

private theorem overlapsChecked_eq (h : r.Bounded) (hle : fileStart ≤ fileEnd) (hin : fileEnd ≤ r.totalPlaintext)
    {cs : List Nat} (hcs : ∀ c ∈ cs, c < r.numChunks ∧ c * r.dataChunkSize < fileEnd) :
    r.overlapsChecked C file fileStart fileEnd cs = some (r.overlaps C file fileStart fileEnd cs) := by
  induction cs with
  | nil => rfl
  | cons c cs ih =>
    obtain ⟨hc, hstart⟩ := hcs c (by simp)
    have hrest := ih fun c' hc' => hcs c' (by simp [hc'])
    obtain ⟨hread, -⟩ := chunkRead_eq h hc hstart hle hin
    unfold VaultReader.overlapsChecked VaultReader.overlaps
    rw [hread, Option.bind_eq_bind, Option.bind_some, overlapAt_eq rfl rfl rfl rfl]
    cases r.overlap C file fileStart fileEnd c with
    | error e => rfl
    | ok part =>
      dsimp only
      rw [hrest, Option.bind_eq_bind, Option.bind_some]
      cases r.overlaps C file fileStart fileEnd cs with
      | error e => rfl
      | ok rest => rfl

/-! ### What is read of one file -/

/-- The chunks that `decrypt_entry_to_writer` reads for an entry. -/
def VaultReader.chunksOf (r : VaultReader) (e : Entry) : List Nat :=
  if e.size = 0 then []
  else
    let first := e.dataOffset / r.dataChunkSize
    List.range' first ((e.dataOffset + e.size - 1) / r.dataChunkSize + 1 - first)

/-- The chunks of a file that lies in the data are chunks of the stream, and they begin before the file ends. -/
private theorem mem_chunksOf (h : r.Bounded) {e : Entry} (hin : e.dataOffset + e.size ≤ r.totalPlaintext)
    (hc : c ∈ r.chunksOf e) : c < r.numChunks ∧ c * r.dataChunkSize < e.dataOffset + e.size := by
  have hs := h.chunk_pos
  unfold VaultReader.chunksOf at hc
  split at hc
  · cases hc
  · obtain ⟨i, hi, rfl⟩ := List.mem_range'.1 hc
    have hlow := Nat.div_mul_le_self (e.dataOffset + e.size - 1) r.dataChunkSize
    have hmul : (e.dataOffset / r.dataChunkSize + 1 * i) * r.dataChunkSize ≤
        (e.dataOffset + e.size - 1) / r.dataChunkSize * r.dataChunkSize := Nat.mul_le_mul_right _ (by omega)
    have hend : (e.dataOffset / r.dataChunkSize + 1 * i) * r.dataChunkSize < e.dataOffset + e.size := by omega
    refine ⟨?_, hend⟩
    have htotal := numChunks_le_of_size (n := r.totalPlaintext) hs
    rw [← h.count] at htotal
    exact Nat.lt_of_mul_lt_mul_right (show _ * r.dataChunkSize < r.numChunks * r.dataChunkSize by omega)

theorem decryptEntryChecked_eq (h : r.Bounded) {e : Entry} (hin : e.dataOffset + e.size ≤ r.totalPlaintext) :
    r.decryptEntryChecked C file e = some (r.decryptEntryToWriter C file e) := by
  have hs := h.chunk_pos
  have hsection := h.section_le
  unfold VaultReader.decryptEntryChecked VaultReader.decryptEntryToWriter
  split
  · rfl
  · rename_i hsize
    have hle : e.dataOffset + e.size ≤ u64Max := by
      unfold VaultReader.dataLen at hsection
      omega
    have hone : 1 ≤ r.numChunks := by
      rw [h.count]
      unfold numChunks
      split
      · omega
      · exact (Nat.one_le_div_iff hs).2 (by omega)
    have hchunks : r.overlapsChecked C file e.dataOffset (e.dataOffset + e.size) (r.chunksOf e) = some _ :=
      overlapsChecked_eq h (Nat.le_add_right _ _) hin fun c hc => mem_chunksOf h hin hc
    rw [VaultReader.chunksOf, if_neg hsize] at hchunks
    rw [subU64_eq hone, addU64_eq hle, Option.bind_eq_bind, Option.bind_some, divU64_eq hs.ne']
    simp only [Option.bind_eq_bind, Option.bind_some]
    rw [subU64_eq (by omega), Option.bind_some, divU64_eq hs.ne', Option.bind_some]
    have hfew : ¬ e.dataOffset + e.size > u64Max := by omega
    simp only [refuseIf, if_neg hfew]
    split
    · rfl
    · rw [hchunks]
      rfl

/-- The length of what is written of a chunk. -/
private theorem length_overlap (h : r.Bounded) (hc : c < r.numChunks) (hin : fileEnd ≤ r.totalPlaintext) {part : Bytes}
    (hpart : r.overlap C file fileStart fileEnd c = .ok part) :
    part.length = min fileEnd ((c + 1) * r.dataChunkSize) - max fileStart (c * r.dataChunkSize) := by
  have hs := h.chunk_pos
  have hpt := ptLen_eq hs h.count hc
  have hsucc : (c + 1) * r.dataChunkSize = c * r.dataChunkSize + r.dataChunkSize := Nat.succ_mul _ _
  unfold VaultReader.overlap at hpart
  simp only [bind_eq_ok, refuseIf_eq_ok, exists_const, Except.ok.injEq] at hpart
  obtain ⟨pt, -, hrange, rfl⟩ := hpart
  rw [List.length_drop, List.length_take]
  unfold chunkLen at hpt
  omega

/-- The parts of consecutive chunks, together. -/
private theorem length_overlaps (h : r.Bounded) (hin : fileEnd ≤ r.totalPlaintext) (k : Nat) {first : Nat}
    (hfirst : fileStart < (first + 1) * r.dataChunkSize) (hk : first + k ≤ r.numChunks) {bytes : Bytes}
    (hbytes : r.overlaps C file fileStart fileEnd (List.range' first k) = .ok bytes) :
    bytes.length = min fileEnd ((first + k) * r.dataChunkSize) - max fileStart (first * r.dataChunkSize) := by
  induction k generalizing first bytes with
  | zero =>
    rw [List.range'_zero, VaultReader.overlaps, Except.ok.injEq] at hbytes
    rw [← hbytes, List.length_nil, Nat.add_zero]
    omega
  | succ k ih =>
    rw [List.range'_succ, VaultReader.overlaps] at hbytes
    simp only [bind_eq_ok, Except.ok.injEq] at hbytes
    obtain ⟨part, hpart, rest, hrest, rfl⟩ := hbytes
    have hnext : (first + 1) * r.dataChunkSize ≤ (first + 1 + 1) * r.dataChunkSize := Nat.mul_le_mul_right _ (by omega)
    have hend : (first + 1) * r.dataChunkSize ≤ (first + 1 + k) * r.dataChunkSize := Nat.mul_le_mul_right _ (by omega)
    have hhead := length_overlap h (by omega) hin hpart
    have htail := ih (by omega) (by omega) hrest
    rw [List.length_append, hhead, htail, Nat.add_right_comm first 1 k, ← Nat.add_assoc]
    rw [Nat.add_right_comm first 1 k] at hend
    have hmono : first * r.dataChunkSize ≤ (first + 1) * r.dataChunkSize := Nat.mul_le_mul_right _ (by omega)
    omega

/-- What is written for a file has its size. -/
theorem length_decryptEntryToWriter (h : r.Bounded) {e : Entry} (hin : e.dataOffset + e.size ≤ r.totalPlaintext)
    {bytes : Bytes} (hbytes : r.decryptEntryToWriter C file e = .ok bytes) : bytes.length = e.size := by
  have hs := h.chunk_pos
  have hchunks := fun c => mem_chunksOf (c := c) h hin
  unfold VaultReader.decryptEntryToWriter at hbytes
  split at hbytes
  · rename_i hsize
    split at hbytes
    · cases hbytes
    · rw [Except.ok.injEq] at hbytes
      rw [← hbytes, hsize]
      rfl
  · rename_i hsize
    simp only [bind_eq_ok, refuseIf_eq_ok, exists_const, Except.ok.injEq] at hbytes
    obtain ⟨-, hfew, bytes', hoverlaps, -, rfl⟩ := hbytes
    have hfirst := Nat.lt_div_mul_add (a := e.dataOffset) hs
    have hfirst' := Nat.div_mul_le_self e.dataOffset r.dataChunkSize
    have hlast := Nat.lt_div_mul_add (a := e.dataOffset + e.size - 1) hs
    have hle : e.dataOffset / r.dataChunkSize ≤ (e.dataOffset + e.size - 1) / r.dataChunkSize :=
      Nat.div_le_div_right (by omega)
    have hcount := (hchunks ((e.dataOffset + e.size - 1) / r.dataChunkSize) (by
      rw [VaultReader.chunksOf, if_neg hsize]
      exact List.mem_range'_1.2 (by omega))).1
    have hlen := length_overlaps h hin _ (by rw [Nat.succ_mul]; omega) (by omega) hoverlaps
    have hsum : e.dataOffset / r.dataChunkSize +
        ((e.dataOffset + e.size - 1) / r.dataChunkSize + 1 - e.dataOffset / r.dataChunkSize) =
          (e.dataOffset + e.size - 1) / r.dataChunkSize + 1 := by omega
    rw [hsum, Nat.succ_mul] at hlen
    omega

/-- In whatever has been opened, nothing that random access computes about a file overflows, the chunks it reads are
chunks of the stream that lie in the data section, and it produces as many bytes as the file has or fails. -/
theorem randomAccess_safe {identity : Identity C} {opened : Opened}
    (h : openReaderInner C file file.length identity = .ok opened) {e : Entry} (he : e ∈ opened.reader.manifest.entries)
    (hk : e.kind = .file) (data : Bytes) :
    opened.reader.dataLenChecked = some opened.reader.dataLen ∧
      opened.reader.dataSectionOffset + opened.reader.dataLen ≤ file.length ∧
      opened.reader.decryptEntryChecked C data e = some (opened.reader.decryptEntryToWriter C data e) ∧
      (∀ c ∈ opened.reader.chunksOf e, c < opened.reader.numChunks ∧
        ∃ k, opened.reader.chunkRead e.dataOffset (e.dataOffset + e.size) c = some k ∧ k.index = c ∧ c ≤ u32Max ∧
          opened.reader.dataSectionOffset ≤ k.ctOff ∧
          k.ctOff + k.ctLen ≤ opened.reader.dataSectionOffset + opened.reader.dataLen) ∧
      ∀ bytes, opened.reader.decryptEntryToWriter C data e = .ok bytes → bytes.length = e.size := by
  have hb := bounded_of_open C h
  have hin := (hb.laid.bounds he hk).2
  have hsection := hb.section_le
  have hcount := hb.count_le
  refine ⟨?_, ?_, decryptEntryChecked_eq hb hin, fun c hc => ?_, fun bytes => length_decryptEntryToWriter hb hin⟩
  · have hlen : opened.reader.dataLen = opened.reader.totalPlaintext + opened.reader.numChunks * tagLen := rfl
    unfold VaultReader.dataLenChecked
    rw [mulU64_eq (by omega), Option.bind_eq_bind, Option.bind_some, addU64_eq (by omega), hlen]
  · obtain ⟨header, suite, cek, manifest, layout, hp, rfl⟩ := openReaderInner_eq_ok.1 h
    exact hp.fits.inside
  · obtain ⟨hlt, hstart⟩ := mem_chunksOf hb hin hc
    obtain ⟨hread, hfit⟩ := chunkRead_eq hb hlt hstart (Nat.le_add_right _ _) hin
    refine ⟨hlt, _, hread, rfl, by omega, Nat.le_add_right _ _, ?_⟩
    dsimp only
    omega

/-! ### A file over two chunks -/

namespace Sym

private theorem openNoted_ok : (openReaderInner container noted noted.length alice).toOption.isSome = true := by
  decide +kernel

/-- The opened container. -/
@[irreducible]
private def openedNoted : Opened := (openReaderInner container noted noted.length alice).toOption.get openNoted_ok

private theorem open_openedNoted : openReaderInner container noted noted.length alice = .ok openedNoted := by
  unfold openedNoted
  exact eq_ok_get openNoted_ok

private theorem notedFile_ok : (openedNoted.reader.manifest.entries.find? fun e => e.kind = .file).isSome = true := by
  decide +kernel

/-- The file in it. -/
private def notedFile : Entry := (openedNoted.reader.manifest.entries.find? fun e => e.kind = .file).get notedFile_ok

end Sym

theorem randomAccess_safe_noted :
    Sym.openedNoted.reader.dataLenChecked = some Sym.openedNoted.reader.dataLen ∧
      Sym.openedNoted.reader.dataSectionOffset + Sym.openedNoted.reader.dataLen ≤ Sym.noted.length ∧
      Sym.openedNoted.reader.decryptEntryChecked Sym.container Sym.noted Sym.notedFile =
        some (Sym.openedNoted.reader.decryptEntryToWriter Sym.container Sym.noted Sym.notedFile) ∧
      (∀ c ∈ Sym.openedNoted.reader.chunksOf Sym.notedFile, c < Sym.openedNoted.reader.numChunks ∧
        ∃ k, Sym.openedNoted.reader.chunkRead Sym.notedFile.dataOffset
            (Sym.notedFile.dataOffset + Sym.notedFile.size) c = some k ∧ k.index = c ∧ c ≤ u32Max ∧
          Sym.openedNoted.reader.dataSectionOffset ≤ k.ctOff ∧
          k.ctOff + k.ctLen ≤ Sym.openedNoted.reader.dataSectionOffset + Sym.openedNoted.reader.dataLen) ∧
      ∀ bytes, Sym.openedNoted.reader.decryptEntryToWriter Sym.container Sym.noted Sym.notedFile = .ok bytes →
        bytes.length = Sym.notedFile.size :=
  randomAccess_safe Sym.open_openedNoted (List.mem_of_find?_eq_some (Option.some_get Sym.notedFile_ok).symm)
    (by simpa using List.find?_some (Option.some_get Sym.notedFile_ok).symm) Sym.noted

/-- It is read from two chunks. -/
example : Sym.openedNoted.reader.chunksOf Sym.notedFile = [0, 1] := by decide +kernel

end FileSec.Fsec
