import FileSec.Lib.PieceReader
import FileSec.StreamDecrypt
import FileSec.Reading
import FileSec.Fsec.Writer
import FileSec.Symbolic

/-!
# Fragmented reads

The routines of `aead.rs` read their input through `read_chunk`, which asks again until a chunk is full or the input
ends.  Here they run on readers that give their bytes in whatever pieces, and do what they do on the bytes themselves;
so every way to decrypt what `encrypt_stream_with` has written gives the plaintext back
(`encryptStreamFrom_inverted`).
-/

universe u

namespace FileSec

variable {P : Prims}

/-- An `impl Read`. -/
abbrev ByteReader := PieceReader.{u} Error UInt8

/-- `read_chunk` -/
abbrev readChunk (R : ByteReader.{u}) (s : R.State) (size : Nat) : Result Bytes × R.State := R.readFull s size

/-! ### The routines on readers -/

/-- The loop of `encrypt_stream_with`. -/
def encryptChunksFrom (P : Prims) (R : ByteReader.{u}) (alg : AeadAlg) (key streamNonce : Bytes) (aad : P.Raw)
    (chunkSize : Nat) : Nat → Nat → Bytes → R.State → Result Bytes
  | 0, _, _, _ => .error (.format "stream state".toList)
  | fuel + 1, index, current, s =>
    match readChunk R s chunkSize with
    | (.error e, _) => .error e
    | (.ok next, s) =>
      if next = [] then .ok (P.sealBytes alg key (chunkNonce streamNonce index true) aad current)
      else if index = u32Max then .error .auth
      else
        match encryptChunksFrom P R alg key streamNonce aad chunkSize fuel (index + 1) next s with
        | .error e => .error e
        | .ok out => .ok (P.sealBytes alg key (chunkNonce streamNonce index false) aad current ++ out)

/-- `encrypt_stream_with`: the bytes it writes. -/
def encryptStreamFrom (P : Prims) (R : ByteReader.{u}) (alg : AeadAlg) (key streamNonce : Bytes) (aad : P.Raw)
    (s : R.State) (chunkSize : Nat) : Result Bytes :=
  if streamNonce.length ≠ alg.streamNonceLen then .error (.format "stream nonce length".toList)
  else if chunkSize = 0 ∨ chunkSize > maxChunkSize then .error (.format "chunk size".toList)
  else
    match readChunk R s chunkSize with
    | (.error e, _) => .error e
    | (.ok current, s') =>
      encryptChunksFrom P R alg key streamNonce aad chunkSize ((R.left s).1.length + 1) 0 current s'

/-- The loop of `decrypt_stream_with`. -/
def decryptRoundsFrom (openWith : OpenWith P) (R : ByteReader.{u}) (aad : P.Raw) (encChunk : Nat) :
    Nat → StreamDecryptor → Bytes → R.State → Bytes × Result Unit
  | 0, _, _, _ => ([], .error (.format "stream state".toList))
  | fuel + 1, d, current, s =>
    match readChunk R s encChunk with
    | (.error e, _) => ([], .error e)
    | (.ok next, s) =>
      if next = [] then
        match d.decryptLast openWith aad current with
        | .error e => ([], .error e)
        | .ok pt => (pt, .ok ())
      else
        match d.decryptNext openWith aad current with
        | .error e => ([], .error e)
        | .ok (pt, d) =>
          let out := decryptRoundsFrom openWith R aad encChunk fuel d next s
          (pt ++ out.1, out.2)

/-- `decrypt_stream_with`: what it writes, and the number of bytes it returns. -/
def decryptStreamFrom (openWith : OpenWith P) (R : ByteReader.{u}) (alg : AeadAlg) (key streamNonce : Bytes) (aad : P.Raw)
    (s : R.State) (chunkSize : Nat) : Bytes × Result Nat :=
  if streamNonce.length ≠ alg.streamNonceLen then ([], .error (.format "stream nonce length".toList))
  else if chunkSize = 0 ∨ chunkSize > maxChunkSize then ([], .error (.format "chunk size".toList))
  else
    let encChunk := chunkSize + tagLen
    match readChunk R s encChunk with
    | (.error e, _) => ([], .error e)
    | (.ok current, s') =>
      let out := decryptRoundsFrom openWith R aad encChunk ((R.left s).1.length + 1) ⟨alg, key, streamNonce, 0⟩ current s'
      (out.1, out.2.map fun _ => out.1.length)

/-- `StreamDecryptReader` over a reader. -/
structure StreamDecryptReaderOn (P : Prims) (R : ByteReader.{0}) where
  dec : Option StreamDecryptor
  reader : R.State
  aad : P.Raw
  encChunk : Nat
  current : Bytes
  plain : Bytes
  pos : Nat
  finished : Bool

/-- `StreamDecryptReader::new_with` -/
def StreamDecryptReaderOn.newWith (R : ByteReader.{0}) (alg : AeadAlg) (key streamNonce : Bytes) (aad : P.Raw)
    (s : R.State) (chunkSize : Nat) : Result (StreamDecryptReaderOn P R) :=
  if streamNonce.length ≠ alg.streamNonceLen then .error (.format "stream nonce length".toList)
  else if chunkSize = 0 ∨ chunkSize > maxChunkSize then .error (.format "chunk size".toList)
  else
    let encChunk := chunkSize + tagLen
    match readChunk R s encChunk with
    | (.error e, _) => .error e
    | (.ok current, reader) =>
      .ok {
        dec := some ⟨alg, key, streamNonce, 0⟩
        reader
        aad
        encChunk
        current
        plain := []
        pos := 0
        finished := false }

section Reader

variable {R : ByteReader.{0}}

/-- `StreamDecryptReader::refill` -/
def StreamDecryptReaderOn.refill (openWith : OpenWith P) (r : StreamDecryptReaderOn P R) :
    Result Bool × StreamDecryptReaderOn P R :=
  if r.finished then (.ok false, r)
  else
    match readChunk R r.reader r.encChunk with
    -- what the failing `read_chunk` has taken from the input is lost
    | (.error e, reader) => (.error e, { r with reader })
    | (.ok next, reader) =>
      let r := { r with reader }
      if next = [] then
        match r.dec with
        | none => (.error (.format "stream state".toList), r)
        | some d =>
          match d.decryptLast openWith r.aad r.current with
          | .error e => (.error e, { r with dec := none })
          | .ok pt => (.ok true, { r with dec := none, finished := true, plain := pt, pos := 0 })
      else
        match r.dec with
        | none => (.error (.format "stream state".toList), r)
        | some d =>
          match d.decryptNext openWith r.aad r.current with
          | .error e => (.error e, r)
          | .ok (pt, d) => (.ok true, { r with dec := some d, current := next, plain := pt, pos := 0 })

/-- The loop of `read` into a buffer of `n` bytes; the first argument bounds the number of rounds. -/
def StreamDecryptReaderOn.readLoop (openWith : OpenWith P) (n : Nat) :
    Nat → StreamDecryptReaderOn P R → Result Bytes × StreamDecryptReaderOn P R
  | 0, r => (.error (.format "stream state".toList), r)
  | fuel + 1, r =>
    if r.pos < r.plain.length then
      let k := min (r.plain.length - r.pos) n
      (.ok ((r.plain.drop r.pos).take k), { r with pos := r.pos + k })
    else
      match r.refill openWith with
      | (.ok true, r) => readLoop openWith n fuel r
      | (.ok false, r) => (.ok [], r)
      | (.error e, r) => (.error e, r)

/-- `StreamDecryptReader::read` into a buffer of `n` bytes. -/
def StreamDecryptReaderOn.read (openWith : OpenWith P) (n : Nat) (r : StreamDecryptReaderOn P R) :
    Result Bytes × StreamDecryptReaderOn P R :=
  readLoop openWith n ((R.left r.reader).1.length + 3) r

/-- Reading into buffers of the given sizes, one after the other, until the first error or the end: what has been read,
and how it ended, if it did. -/
def StreamDecryptReaderOn.readAll (openWith : OpenWith P) :
    List Nat → StreamDecryptReaderOn P R → Bytes × Option (Result Unit)
  | [], _ => ([], none)
  | n :: sizes, r =>
    match r.read openWith n with
    | (.error e, _) => ([], some (.error e))
    | (.ok bytes, r) =>
      if bytes = [] ∧ n ≠ 0 then ([], some (.ok ()))
      else
        let out := readAll openWith sizes r
        (bytes ++ out.1, out.2)

end Reader

/-! ### The pieces make no difference -/

section Pieces

variable {R : ByteReader.{u}} {alg : AeadAlg} {key streamNonce : Bytes} {aad : P.Raw} {openWith : OpenWith P} {n : Nat}

/-- A chunk of a reader, or what the reader fails with. -/
theorem readChunk_spec (s : R.State) (size : Nat) :
    (∃ s', readChunk R s size = (.ok ((R.left s).1.take size), s') ∧ R.left s' = ((R.left s).1.drop size, (R.left s).2) ∧
      ((R.left s).1.length < size → (R.left s).2 = .ok ())) ∨
    ∃ e s', readChunk R s size = (.error e, s') ∧ (R.left s).1.length < size ∧ (R.left s).2 = .error e :=
  PieceReader.readFull_spec s size

/-- A chunk of a reader that does not fail. -/
private theorem readChunk_ok {s : R.State} (hs : (R.left s).2 = .ok ()) (size : Nat) :
    ∃ s', readChunk R s size = (.ok ((R.left s).1.take size), s') ∧ R.left s' = ((R.left s).1.drop size, .ok ()) := by
  rcases readChunk_spec s size with ⟨s', heq, hleft, -⟩ | ⟨e, -, -, -, herr⟩
  · exact ⟨s', heq, hs ▸ hleft⟩
  · rw [hs] at herr
    cases herr

private theorem encryptChunksFrom_ok_iff {chunkSize : Nat} (hsize : 0 < chunkSize) (fuel index : Nat) (current : Bytes)
    (s : R.State) (out : Bytes) :
    encryptChunksFrom P R alg key streamNonce aad chunkSize fuel index current s = .ok out ↔
      (R.left s).2 = .ok () ∧
        encryptChunks P alg key streamNonce aad chunkSize fuel index current (R.left s).1 = .ok out := by
  induction fuel generalizing index current s out with
  | zero => simp [encryptChunksFrom, encryptChunks]
  | succ fuel ih =>
    rw [encryptChunksFrom, encryptChunks]
    rcases readChunk_spec s chunkSize with ⟨s', heq, hleft, hend⟩ | ⟨e, _, heq, -, herr⟩
    · rw [heq]
      dsimp only
      by_cases hnil : (R.left s).1.take chunkSize = []
      · rw [if_pos hnil, if_pos hnil]
        have hlen : (R.left s).1.length < chunkSize := by
          rcases List.take_eq_nil_iff.1 hnil with h | h
          · omega
          · rw [h]
            exact hsize
        rw [hend hlen, eq_self_iff_true, true_and]
      · rw [if_neg hnil, if_neg hnil]
        by_cases hmax : index = u32Max
        · simp [hmax]
        · rw [if_neg hmax, if_neg hmax]
          have hrec := ih (index + 1) ((R.left s).1.take chunkSize) s'
          rw [hleft] at hrec
          dsimp only at hrec
          constructor
          · intro h
            cases hrun : encryptChunksFrom P R alg key streamNonce aad chunkSize fuel (index + 1)
                ((R.left s).1.take chunkSize) s' with
            | error e =>
              rw [hrun] at h
              cases h
            | ok rest =>
              rw [hrun] at h
              obtain ⟨hok, hrest⟩ := (hrec rest).1 hrun
              rw [hrest]
              exact ⟨hok, h⟩
          · rintro ⟨hok, h⟩
            cases hrun : encryptChunks P alg key streamNonce aad chunkSize fuel (index + 1)
                ((R.left s).1.take chunkSize) ((R.left s).1.drop chunkSize) with
            | error e =>
              rw [hrun] at h
              cases h
            | ok rest =>
              rw [hrun] at h
              rw [(hrec rest).2 ⟨hok, hrun⟩]
              exact h
    · rw [heq, herr]
      simp

/-- Encryption from a reader is encryption of what the reader gives, where the reader does not fail. -/
theorem encryptStreamFrom_ok_iff (s : R.State) (chunkSize : Nat) (out : Bytes) :
    encryptStreamFrom P R alg key streamNonce aad s chunkSize = .ok out ↔
      (R.left s).2 = .ok () ∧ encryptStreamWith P alg key streamNonce aad (R.left s).1 chunkSize = .ok out := by
  unfold encryptStreamFrom encryptStreamWith
  by_cases hnonce : streamNonce.length ≠ alg.streamNonceLen
  · simp [hnonce]
  · rw [if_neg hnonce, if_neg hnonce]
    by_cases hsize : chunkSize = 0 ∨ chunkSize > maxChunkSize
    · simp [hsize]
    · rw [if_neg hsize, if_neg hsize]
      rw [not_or] at hsize
      rcases readChunk_spec s chunkSize with ⟨s', heq, hleft, -⟩ | ⟨e, _, heq, -, herr⟩
      · rw [heq]
        dsimp only
        rw [encryptChunksFrom_ok_iff (Nat.pos_of_ne_zero hsize.1), hleft]
      · rw [heq, herr]
        simp

private theorem decryptRoundsFrom_eq {encChunk : Nat} (fuel : Nat) (d : StreamDecryptor) (current : Bytes) {s : R.State}
    (hs : (R.left s).2 = .ok ()) :
    decryptRoundsFrom openWith R aad encChunk fuel d current s =
      decryptRounds openWith aad encChunk fuel d current (R.left s).1 := by
  induction fuel generalizing d current s with
  | zero => rfl
  | succ fuel ih =>
    obtain ⟨s', heq, hleft⟩ := readChunk_ok hs encChunk
    have hs' : (R.left s').2 = .ok () := by rw [hleft]
    rw [decryptRoundsFrom, decryptRounds, heq]
    dsimp only
    split
    · rfl
    · cases d.decryptNext openWith aad current with
      | error e => rfl
      | ok out =>
        dsimp only
        rw [ih out.2 _ hs', hleft]

/-- Decryption from a reader that does not fail is decryption of what the reader gives. -/
theorem decryptStreamFrom_eq {s : R.State} (hs : (R.left s).2 = .ok ()) (chunkSize : Nat) :
    decryptStreamFrom openWith R alg key streamNonce aad s chunkSize =
      decryptStreamWith openWith alg key streamNonce aad (R.left s).1 chunkSize := by
  obtain ⟨s', heq, hleft⟩ := readChunk_ok hs (chunkSize + tagLen)
  have hs' : (R.left s').2 = .ok () := by rw [hleft]
  unfold decryptStreamFrom decryptStreamWith
  simp only [heq, decryptRoundsFrom_eq _ _ _ hs', hleft]

namespace StreamDecryptReaderOn

/-- The reader on the bytes that are left. -/
def flat {R : ByteReader.{0}} (r : StreamDecryptReaderOn P R) : StreamDecryptReader P :=
  ⟨r.dec, (R.left r.reader).1, r.aad, r.encChunk, r.current, r.plain, r.pos, r.finished⟩

/-- The input does not fail. -/
def Sure {R : ByteReader.{0}} (r : StreamDecryptReaderOn P R) : Prop := (R.left r.reader).2 = .ok ()

variable {R : ByteReader.{0}} {r : StreamDecryptReaderOn P R}

theorem newWith_flat {s : R.State} (hs : (R.left s).2 = .ok ()) {chunkSize : Nat} (flatReader : StreamDecryptReader P)
    (h : StreamDecryptReader.newWith alg key streamNonce aad (R.left s).1 chunkSize = .ok flatReader) :
    ∃ r : StreamDecryptReaderOn P R, newWith R alg key streamNonce aad s chunkSize = .ok r ∧ r.Sure ∧
      r.flat = flatReader := by
  obtain ⟨s', heq, hleft⟩ := readChunk_ok hs (chunkSize + tagLen)
  unfold StreamDecryptReader.newWith at h
  unfold newWith
  split at h
  · cases h
  · rename_i hnonce
    split at h
    · cases h
    · rename_i hsize
      rw [if_neg hnonce, if_neg hsize]
      simp only [heq]
      cases h
      refine ⟨_, rfl, ?_, ?_⟩
      · unfold Sure
        rw [hleft]
      · simp only [flat, hleft]

variable (openWith) in
theorem refill_flat (h : r.Sure) :
    ((r.refill openWith).1, (r.refill openWith).2.flat) = r.flat.refill openWith ∧ (r.refill openWith).2.Sure := by
  obtain ⟨s', heq, hleft⟩ := readChunk_ok h r.encChunk
  obtain ⟨dec, reader, aad, encChunk, current, plain, pos, finished⟩ := r
  unfold refill StreamDecryptReader.refill
  cases finished with
  | true => exact ⟨rfl, h⟩
  | false =>
    simp only [flat, Bool.false_eq_true, if_false]
    dsimp only at heq hleft
    rw [heq]
    dsimp only
    -- the refill of the flat reader takes the same branch
    have hsure : (R.left s').2 = .ok () := by rw [hleft]
    by_cases hnext : (R.left reader).1.take encChunk = []
    · simp only [if_pos hnext]
      refine ⟨Eq.trans ?_ (if_pos hnext).symm, ?_⟩
      · cases dec with
        | none => simp only [hleft]
        | some d =>
          dsimp only
          cases d.decryptLast openWith aad current with
          | error e => simp only [hleft]
          | ok pt => simp only [hleft]
      · cases dec with
        | none => exact hsure
        | some d =>
          dsimp only
          cases d.decryptLast openWith aad current with
          | error e => exact hsure
          | ok pt => exact hsure
    · simp only [if_neg hnext]
      refine ⟨Eq.trans ?_ (if_neg hnext).symm, ?_⟩
      · cases dec with
        | none => simp only [hleft]
        | some d =>
          dsimp only
          cases d.decryptNext openWith aad current with
          | error e => simp only [hleft]
          | ok out => simp only [hleft]
      · cases dec with
        | none => exact hsure
        | some d =>
          dsimp only
          cases d.decryptNext openWith aad current with
          | error e => exact hsure
          | ok out => exact hsure

private theorem readLoop_flat (fuel : Nat) (h : r.Sure) :
    ((r.readLoop openWith n fuel).1, (r.readLoop openWith n fuel).2.flat) = r.flat.readLoop openWith n fuel ∧
      (r.readLoop openWith n fuel).2.Sure := by
  induction fuel generalizing r with
  | zero => exact ⟨rfl, h⟩
  | succ fuel ih =>
    obtain ⟨hrefill, hsure⟩ := refill_flat openWith h
    rw [readLoop, StreamDecryptReader.readLoop, ← hrefill]
    by_cases hpos : r.pos < r.plain.length
    · rw [if_pos hpos, if_pos (by exact hpos)]
      exact ⟨rfl, h⟩
    · rw [if_neg hpos, if_neg (by exact hpos)]
      cases hres : r.refill openWith with
      | mk res s =>
        rw [hres] at hsure
        cases res with
        | error e => exact ⟨rfl, hsure⟩
        | ok more =>
          cases more with
          | true => exact ih hsure
          | false => exact ⟨rfl, hsure⟩

variable (openWith) in
theorem read_flat (n : Nat) (h : r.Sure) :
    ((r.read openWith n).1, (r.read openWith n).2.flat) = r.flat.read openWith n ∧ (r.read openWith n).2.Sure :=
  readLoop_flat _ h

/-- Reading a reader over pieces gives what reading it over the bytes gives. -/
theorem readAll_flat (sizes : List Nat) (h : r.Sure) : r.readAll openWith sizes = r.flat.readAll openWith sizes := by
  induction sizes generalizing r with
  | nil => rfl
  | cons n sizes ih =>
    obtain ⟨hread, hsure⟩ := read_flat openWith n h
    rw [readAll, StreamDecryptReader.readAll, ← hread]
    cases hres : r.read openWith n with
    | mk res s =>
      rw [hres] at hsure
      cases res with
      | error e => rfl
      | ok bytes =>
        dsimp only
        rw [ih hsure]

end StreamDecryptReaderOn

/-- Buffers with room, one more than there are bytes left, come to the end, however many empty ones are between them. -/
theorem StreamDecryptReader.readAll_ends (openWith : OpenWith P) {r : StreamDecryptReader P} (h : r.Running)
    {sizes : List Nat} (hroom : (r.left openWith).1.length < sizes.countP (0 < ·)) :
    (r.readAll openWith sizes).2 ≠ none := by
  induction sizes generalizing r with
  | nil => exact absurd hroom (Nat.not_lt_zero _)
  | cons n sizes ih =>
    unfold StreamDecryptReader.readAll
    rcases StreamDecryptReader.read_cases openWith n h with ⟨bytes, r', heq, hrun, hleft, -⟩ | ⟨e, r', heq, -⟩
    · rw [heq]
      dsimp only
      by_cases hstop : bytes = [] ∧ n ≠ 0
      · rw [if_pos hstop]
        exact Option.some_ne_none _
      · rw [if_neg hstop]
        refine ih hrun ?_
        rw [hleft, List.length_append, List.countP_cons] at hroom
        by_cases hn : n = 0
        · simp only [hn, Nat.lt_irrefl, decide_false, Bool.false_eq_true, if_false] at hroom
          omega
        · have hbytes : 0 < bytes.length := List.length_pos_of_ne_nil fun hnil => hstop ⟨hnil, hn⟩
          split at hroom <;> omega
    · rw [heq]
      exact Option.some_ne_none _

/-- What stands at the offset of a chunk, up to the offset of the next. -/
private theorem slice_eq {source out : Bytes} {size i : Nat} (hs : 0 < size)
    (hlen : out.length = source.length + numChunks source.length size * tagLen) (hi : i < numChunks source.length size) :
    (out.drop (i * (size + tagLen))).take (size + tagLen) =
      (out.drop (i * (size + tagLen))).take (chunkLen source.length size i + tagLen) := by
  rcases Nat.lt_or_ge i (numChunks source.length size - 1) with hlt | hge
  · rw [← chunkLen_of_lt hs hlt]
  · obtain rfl : i = numChunks source.length size - 1 := by omega
    obtain ⟨k, hk⟩ : ∃ k, numChunks source.length size = k + 1 := ⟨_, (Nat.succ_pred_eq_of_pos (numChunks_pos hs)).symm⟩
    have hlast := chunkLen_last (n := source.length) hs
    have hle : chunkLen source.length size (numChunks source.length size - 1) ≤ size := Nat.min_le_left _ _
    have hrest : (out.drop ((numChunks source.length size - 1) * (size + tagLen))).length ≤
        chunkLen source.length size (numChunks source.length size - 1) + tagLen := by
      rw [List.length_drop, hlen, ← hlast, hk]
      simp only [Nat.add_sub_cancel, Nat.mul_add, Nat.add_mul, Nat.one_mul]
      omega
    rw [List.take_of_length_le hrest, List.take_of_length_le (by omega)]

/-- The plaintext of a chunk, by where it begins and ends. -/
private theorem chunk_eq (source : Bytes) (size i : Nat) :
    (source.take (min ((i + 1) * size) source.length)).drop (i * size) = (source.drop (i * size)).take size := by
  rw [List.drop_take, List.take_eq_take_iff, List.length_drop, Nat.add_mul, Nat.one_mul]
  omega

/-- A ciphertext is the stream of a plaintext for all that decrypt it. -/
structure DecryptsTo (P : Prims) (alg : AeadAlg) (key streamNonce : Bytes) (aad : P.Raw) (chunkSize : Nat)
    (ciphertext source : Bytes) : Prop where
  /-- It has the length that the container reserves. -/
  length : ciphertext.length = Fsec.dataCiphertextLen source.length chunkSize
  /-- `decrypt_stream_with`, from a reader in whatever pieces. -/
  stream : ∀ (R : ByteReader.{0}) (s : R.State), R.left s = (ciphertext, .ok ()) →
    decryptStreamFrom P.openBytes R alg key streamNonce aad s chunkSize = (source, .ok source.length)
  /-- `StreamDecryptReader`, read in buffers of any sizes. -/
  reader : ∀ (R : ByteReader.{0}) (s : R.State), R.left s = (ciphertext, .ok ()) →
    ∃ r, StreamDecryptReaderOn.newWith (P := P) R alg key streamNonce aad s chunkSize = .ok r ∧ ∀ sizes,
      (r.readAll P.openBytes sizes).1 <+: source ∧
      (∀ res, (r.readAll P.openBytes sizes).2 = some res → (r.readAll P.openBytes sizes).1 = source ∧ res = .ok ()) ∧
      (source.length < sizes.countP (0 < ·) → (r.readAll P.openBytes sizes).2 ≠ none)
  /-- One chunk alone, the last one under the last-chunk flag. -/
  chunk : ∀ i < numChunks source.length chunkSize,
    decryptChunkWith P alg key streamNonce aad i (i = numChunks source.length chunkSize - 1)
        ((ciphertext.drop (i * (chunkSize + tagLen))).take (chunkSize + tagLen)) =
      .ok ((source.take (min ((i + 1) * chunkSize) source.length)).drop (i * chunkSize))

/-- Encryption from any reader of a plaintext succeeds up to `2 ^ 32` chunks, and all that decrypt its output get the
plaintext. -/
theorem encryptStreamFrom_inverted {R : ByteReader.{0}} {s : R.State} {source : Bytes} (hs : R.left s = (source, .ok ()))
    {chunkSize : Nat} (hnonce : streamNonce.length = alg.streamNonceLen) (hsize : 0 < chunkSize)
    (hmax : chunkSize ≤ maxChunkSize) :
    ((∃ out, encryptStreamFrom P R alg key streamNonce aad s chunkSize = .ok out) ↔
      numChunks source.length chunkSize ≤ u32Max + 1) ∧
    ∀ out, encryptStreamFrom P R alg key streamNonce aad s chunkSize = .ok out →
      DecryptsTo P alg key streamNonce aad chunkSize out source := by
  have hiff : ∀ out, encryptStreamFrom P R alg key streamNonce aad s chunkSize = .ok out ↔
      encryptStreamWith P alg key streamNonce aad source chunkSize = .ok out := by
    intro out
    rw [encryptStreamFrom_ok_iff, hs, eq_self_iff_true, true_and]
  constructor
  · simp only [hiff]
    exact encryptStreamWith_ok_iff hnonce hsize hmax
  · intro out hout
    rw [hiff] at hout
    obtain ⟨hlen, hslice⟩ := encryptStreamWith_slice hout
    obtain ⟨r, hr, hrun, hleft⟩ := newWith_encryptStreamWith hout
    obtain ⟨-, hdata, hres⟩ := StreamDecryptReader.newWith_left P.openBytes hr
    rw [hleft] at hdata hres
    refine ⟨hlen, fun R' s' hs' => ?_, fun R' s' hs' => ?_, fun i hi => ?_⟩
    · have hsure : (R'.left s').2 = .ok () := by rw [hs']
      rw [decryptStreamFrom_eq hsure, hs']
      exact Prod.ext hdata.symm hres.symm
    · have hsure : (R'.left s').2 = .ok () := by rw [hs']
      have hr' : StreamDecryptReader.newWith alg key streamNonce aad (R'.left s').1 chunkSize = .ok r := by
        rw [hs']
        exact hr
      obtain ⟨r', hnew, hr'sure, hflat⟩ := StreamDecryptReaderOn.newWith_flat hsure _ hr'
      refine ⟨r', hnew, fun sizes => ?_⟩
      rw [StreamDecryptReaderOn.readAll_flat sizes hr'sure, hflat]
      obtain ⟨hpre, hdone, -⟩ := StreamDecryptReader.readAll_spec P.openBytes hrun sizes
      rw [hleft] at hpre hdone
      refine ⟨hpre, hdone, fun hroom => StreamDecryptReader.readAll_ends P.openBytes hrun ?_⟩
      rwa [hleft]
    · rw [slice_eq hsize hlen hi, hslice i hi, chunk_eq]
      exact decryptChunkWith_sealBytes hnonce i _ _

end Pieces

namespace Sym

/-- Three bytes that come one at a time. -/
def dripping : (PieceReader.ofPieces Error UInt8).State := ([1, 2, 3], [1, 1, 1])

end Sym

theorem encryptStreamFrom_inverted_dripping :
    ((∃ out, encryptStreamFrom Sym (.ofPieces Error UInt8) .xchacha20Poly1305 [1] (List.replicate 19 0) (.nat 0)
        Sym.dripping 2 = .ok out) ↔ numChunks [1, 2, 3].length 2 ≤ u32Max + 1) ∧
    ∀ out, encryptStreamFrom Sym (.ofPieces Error UInt8) .xchacha20Poly1305 [1] (List.replicate 19 0) (.nat 0)
        Sym.dripping 2 = .ok out →
      DecryptsTo Sym .xchacha20Poly1305 [1] (List.replicate 19 0) (.nat 0) 2 out [1, 2, 3] :=
  encryptStreamFrom_inverted (s := Sym.dripping) rfl rfl (by decide) (by decide)

end FileSec
