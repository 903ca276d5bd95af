import FileSec.Lib.IdealAead
import FileSec.StreamDecrypt
import FileSec.Symbolic

/-!
# Tampered streams

Streams are encrypted with an ideal AEAD, which opens the chunks that have been sealed and nothing else.  Decrypting
anything but the ciphertext of a stream under the stream's key, nonce and associated data ends in an authentication
error, after the plaintext of the chunks that were left in place at the beginning (`stream_tamper_evident`).
-/

namespace FileSec

open Sealing

variable {P : Prims}

/-- A sealed chunk. -/
abbrev SealedChunk (P : Prims) := Sealing (AeadAlg × Bytes) Bytes P.Raw Bytes Bytes

/-- A call of `encrypt_stream_with`. -/
structure StreamCall (P : Prims) where
  alg : AeadAlg
  key : Bytes
  streamNonce : Bytes
  aad : P.Raw
  source : Bytes
  chunkSize : Nat

/-- The ciphertext of the stream. -/
def StreamCall.output (call : StreamCall P) : Result Bytes :=
  encryptStreamWith P call.alg call.key call.streamNonce call.aad call.source call.chunkSize

/-- The chunk that a call seals under a counter. -/
def StreamCall.chunk (call : StreamCall P) (index : Nat) (isLast : Bool) (current : Bytes) : SealedChunk P where
  key := (call.alg, call.key)
  nonce := chunkNonce call.streamNonce index isLast
  aad := call.aad
  plain := current
  cipher := P.sealBytes call.alg call.key (chunkNonce call.streamNonce index isLast) call.aad current

/-- The chunks that the loop of `encrypt_stream_with` seals, also where it fails in the end. -/
def StreamCall.chunksFrom (call : StreamCall P) : Nat → Nat → Bytes → Bytes → List (SealedChunk P)
  | 0, _, _, _ => []
  | fuel + 1, index, current, rest =>
    if rest.take call.chunkSize = [] then [call.chunk index true current]
    else if index = u32Max then []
    else call.chunk index false current ::
      call.chunksFrom fuel (index + 1) (rest.take call.chunkSize) (rest.drop call.chunkSize)

/-- The chunks that a call seals. -/
def StreamCall.chunks (call : StreamCall P) : List (SealedChunk P) :=
  if call.streamNonce.length ≠ call.alg.streamNonceLen then []
  else if call.chunkSize = 0 ∨ call.chunkSize > maxChunkSize then []
  else call.chunksFrom (call.source.length + 1) 0 (call.source.take call.chunkSize) (call.source.drop call.chunkSize)

/-- The ideal AEAD when the streams of `calls` have been encrypted. -/
def idealOpen (calls : List (StreamCall P)) : OpenWith P :=
  fun alg key nonce aad ct => openIn (calls.flatMap StreamCall.chunks) (alg, key) nonce aad ct

/-- Each stream has a key, nonce and associated data of its own, and no sealed chunk occurs in the ciphertext of another
stream. -/
structure IdealStreams (calls : List (StreamCall P)) : Prop where
  apart : ∀ a ∈ calls, ∀ b ∈ calls, a.alg = b.alg → a.key = b.key → a.streamNonce = b.streamNonce → a.aad = b.aad →
    a = b
  fresh : ∀ a ∈ calls, ∀ b ∈ calls, a ≠ b → ∀ e ∈ a.chunks, ∀ out, b.output = .ok out → ¬ e.cipher <:+: out

/-! ### Nonces -/

theorem be32_inj {m n : Nat} (hm : m ≤ u32Max) (hn : n ≤ u32Max) (h : be32 m = be32 n) : m = n := by
  unfold be32 at h
  simp only [List.cons.injEq, and_true, ← UInt8.toNat_inj, UInt8.toNat_ofNat'] at h
  have hmax : u32Max = 4294967295 := rfl
  omega

/-- A chunk nonce determines the stream nonce, the counter and the flag. -/
theorem chunkNonce_inj {sn sn' : Bytes} {i j : Nat} {b b' : Bool} (hlen : sn.length = sn'.length) (hi : i ≤ u32Max)
    (hj : j ≤ u32Max) (h : chunkNonce sn i b = chunkNonce sn' j b') : sn = sn' ∧ i = j ∧ b = b' := by
  unfold chunkNonce at h
  rw [List.append_assoc, List.append_assoc] at h
  obtain ⟨hsn, h⟩ := List.append_inj h hlen
  obtain ⟨hindex, hflag⟩ := List.append_inj h rfl
  refine ⟨hsn, be32_inj hi hj hindex, ?_⟩
  cases b <;> cases b' <;> simp at hflag ⊢

/-! ### The chunks of a call -/

section Chunks

variable {call : StreamCall P} {fuel index : Nat} {current rest out : Bytes} {e : SealedChunk P}

private theorem mem_chunksFrom (hi : index ≤ u32Max) (he : e ∈ call.chunksFrom fuel index current rest) :
    e.key = (call.alg, call.key) ∧ e.aad = call.aad ∧ ∃ i ≤ u32Max, ∃ b, e.nonce = chunkNonce call.streamNonce i b := by
  induction fuel generalizing index current rest with
  | zero => cases he
  | succ fuel ih =>
    unfold StreamCall.chunksFrom at he
    split at he
    · rw [List.mem_singleton] at he
      subst he
      exact ⟨rfl, rfl, index, hi, true, rfl⟩
    · split at he
      · cases he
      · rename_i hlast
        rcases List.mem_cons.1 he with rfl | he
        · exact ⟨rfl, rfl, index, hi, false, rfl⟩
        · exact ih (by omega) he

/-- A sealed chunk carries the key, the nonce and the associated data of its stream. -/
theorem mem_chunks (he : e ∈ call.chunks) : call.streamNonce.length = call.alg.streamNonceLen ∧
    e.key = (call.alg, call.key) ∧ e.aad = call.aad ∧ ∃ i ≤ u32Max, ∃ b, e.nonce = chunkNonce call.streamNonce i b := by
  unfold StreamCall.chunks at he
  split at he
  · cases he
  · rename_i hlen
    split at he
    · cases he
    · exact ⟨not_not.1 hlen, mem_chunksFrom (Nat.zero_le _) he⟩

/-- What the loop writes is made of the chunks it seals, one under each counter, the last one with the flag. -/
private theorem chunksFrom_spec (hi : index ≤ u32Max)
    (hfull : rest ≠ [] → current.length = call.chunkSize)
    (h : encryptChunks P call.alg call.key call.streamNonce call.aad call.chunkSize fuel index current rest = .ok out) :
    out = (call.chunksFrom fuel index current rest).flatMap (·.cipher) ∧
    0 < (call.chunksFrom fuel index current rest).length ∧
    index + (call.chunksFrom fuel index current rest).length ≤ u32Max + 1 ∧
    (∀ j e, (call.chunksFrom fuel index current rest)[j]? = some e →
      e.nonce = chunkNonce call.streamNonce (index + j)
        (decide (j + 1 = (call.chunksFrom fuel index current rest).length))) ∧
    (∀ j < (call.chunksFrom fuel index current rest).length,
      ((call.chunksFrom fuel index current rest).take j).flatMap (·.plain) =
        (current ++ rest).take (j * call.chunkSize) ∧ j * call.chunkSize ≤ (current ++ rest).length) := by
  induction fuel generalizing index current rest out with
  | zero => simp [encryptChunks] at h
  | succ fuel ih =>
    unfold encryptChunks at h
    unfold StreamCall.chunksFrom
    by_cases hnext : rest.take call.chunkSize = []
    · rw [if_pos hnext] at h ⊢
      simp only [Except.ok.injEq] at h
      subst h
      refine ⟨by simp [StreamCall.chunk], by simp, by simpa using hi, fun j e he => ?_, fun j hj => ?_⟩
      · cases j with
        | zero =>
          simp only [List.getElem?_cons_zero, Option.some.injEq] at he
          subst he
          rfl
        | succ j => simp at he
      · obtain rfl : j = 0 := by simpa using hj
        simp
    · rw [if_neg hnext] at h ⊢
      by_cases hlast : index = u32Max
      · rw [if_pos hlast] at h
        cases h
      · rw [if_neg hlast] at h ⊢
        cases hrec : encryptChunks P call.alg call.key call.streamNonce call.aad call.chunkSize fuel (index + 1)
            (rest.take call.chunkSize) (rest.drop call.chunkSize) with
        | error e => simp [hrec] at h
        | ok out' =>
          simp only [hrec, Except.ok.injEq] at h
          subst h
          have hrest : rest ≠ [] := fun hnil => hnext (by rw [hnil, List.take_nil])
          obtain ⟨hout, hpos, hcount, hnonce, hplain⟩ := ih (by omega : index + 1 ≤ u32Max)
            (fun hne => by
              have := List.length_pos_of_ne_nil hne
              rw [List.length_drop] at this
              rw [List.length_take]
              omega) hrec
          rw [List.take_append_drop] at hplain
          refine ⟨?_, by simp, ?_, fun j e he => ?_, fun j hj => ?_⟩
          · rw [List.flatMap_cons, ← hout]
            rfl
          · rw [List.length_cons]
            omega
          · cases j with
            | zero =>
              simp only [List.getElem?_cons_zero, Option.some.injEq] at he
              subst he
              rw [List.length_cons, decide_eq_false (by omega)]
              rfl
            | succ j =>
              rw [List.getElem?_cons_succ] at he
              rw [hnonce j e he, List.length_cons]
              congr 1
              · omega
              · simp
          · cases j with
            | zero => simp
            | succ j =>
              rw [List.length_cons] at hj
              obtain ⟨htake, hle⟩ := hplain j (by omega)
              have hcur := hfull hrest
              have hmul : (j + 1) * call.chunkSize = current.length + j * call.chunkSize := by
                rw [hcur, Nat.add_mul]
                omega
              rw [List.take_succ_cons, List.flatMap_cons, htake, hmul, List.length_append]
              refine ⟨?_, by omega⟩
              rw [List.take_length_add_append]
              rfl

/-- The ciphertext of a stream is made of the chunks that it seals. -/
theorem output_spec (h : call.output = .ok out) :
    call.streamNonce.length = call.alg.streamNonceLen ∧ 0 < call.chunkSize ∧ call.chunkSize ≤ maxChunkSize ∧
    out = call.chunks.flatMap (·.cipher) ∧ 0 < call.chunks.length ∧ call.chunks.length ≤ u32Max + 1 ∧
    (∀ j e, call.chunks[j]? = some e →
      e.nonce = chunkNonce call.streamNonce j (decide (j + 1 = call.chunks.length))) ∧
    (∀ j < call.chunks.length, (call.chunks.take j).flatMap (·.plain) = call.source.take (j * call.chunkSize) ∧
      j * call.chunkSize ≤ call.source.length) := by
  unfold StreamCall.output encryptStreamWith at h
  unfold StreamCall.chunks
  split at h
  · cases h
  · rename_i hlen
    split at h
    · cases h
    · rename_i hsize
      rw [if_neg hlen, if_neg hsize]
      rw [not_or] at hsize
      have hfull : call.source.drop call.chunkSize ≠ [] →
          (call.source.take call.chunkSize).length = call.chunkSize := by
        intro hne
        have := List.length_pos_of_ne_nil hne
        rw [List.length_drop] at this
        rw [List.length_take]
        omega
      have hspec := chunksFrom_spec (Nat.zero_le _) hfull h
      rw [List.take_append_drop] at hspec
      simp only [Nat.zero_add] at hspec
      exact ⟨not_not.1 hlen, by omega, by omega, hspec⟩

end Chunks

/-! ### Opening chunks -/

section Ideal

variable {calls : List (StreamCall P)} {call : StreamCall P} {out : Bytes}

/-- What opens under the nonce of a chunk of a stream is this chunk, with its flag. -/
private theorem idealOpen_eq_some (h : IdealStreams calls) (hcall : call ∈ calls) (hout : call.output = .ok out)
    {i : Nat} {b : Bool} {ct pt : Bytes} (hi : i ≤ u32Max)
    (hopen : idealOpen calls call.alg call.key (chunkNonce call.streamNonce i b) call.aad ct = some pt) :
    ∃ e, call.chunks[i]? = some e ∧ b = decide (i + 1 = call.chunks.length) ∧ e.cipher = ct ∧ e.plain = pt := by
  obtain ⟨e, he, ⟨hkey, hnonce, haad, hct⟩, hpt⟩ := mem_of_openIn hopen
  obtain ⟨other, hother, he⟩ := List.mem_flatMap.1 he
  obtain ⟨hlen, hkey', haad', k, hk, b', hnonce'⟩ := mem_chunks he
  obtain ⟨hlen', -, -, -, -, hcount, hnonces, -⟩ := output_spec hout
  obtain ⟨halg, hkey⟩ := Prod.mk.injEq .. ▸ hkey'.symm.trans hkey
  have hsn := (chunkNonce_inj (by rw [hlen, hlen', halg]) hk hi (hnonce'.symm.trans hnonce)).1
  obtain rfl := h.apart other hother call hcall halg hkey hsn (haad'.symm.trans haad)
  obtain ⟨j, hj, hget⟩ := List.getElem_of_mem he
  have hget : other.chunks[j]? = some e := List.getElem?_eq_some_iff.2 ⟨hj, hget⟩
  obtain ⟨-, rfl, rfl⟩ := chunkNonce_inj rfl (by omega) hi ((hnonces j e hget).symm.trans hnonce)
  exact ⟨e, hget, rfl, hct, hpt⟩

private theorem drop_chunks {i : Nat} {e : SealedChunk P} (he : call.chunks[i]? = some e) :
    call.chunks.drop i = e :: call.chunks.drop (i + 1) := by
  obtain ⟨hi, rfl⟩ := List.getElem?_eq_some_iff.1 he
  exact List.drop_eq_getElem_cons hi

/-- From the chunk `i` on, decrypting anything but what was encrypted ends in an authentication error, after some of
the chunks but the last. -/
private theorem decryptRounds_tampered (h : IdealStreams calls) (hcall : call ∈ calls) (hout : call.output = .ok out)
    {encChunk : Nat} (henc : 0 < encChunk) (fuel i : Nat) (current rest : Bytes) (hfuel : rest.length < fuel)
    (hi : i < call.chunks.length)
    (hne : current ++ rest ≠ (call.chunks.drop i).flatMap (·.cipher)) :
    ∃ j, i + j < call.chunks.length ∧
      decryptRounds (idealOpen calls) call.aad encChunk fuel ⟨call.alg, call.key, call.streamNonce, i⟩ current rest =
        (((call.chunks.drop i).take j).flatMap (·.plain), .error .auth) := by
  have hcount : call.chunks.length ≤ u32Max + 1 := (output_spec hout).2.2.2.2.2.1
  induction fuel generalizing i current rest with
  | zero => omega
  | succ fuel ih =>
    unfold decryptRounds
    by_cases hnext : rest.take encChunk = []
    · rw [if_pos hnext]
      unfold StreamDecryptor.decryptLast
      dsimp only
      cases hopen : idealOpen calls call.alg call.key (chunkNonce call.streamNonce i true) call.aad current with
      | none => exact ⟨0, hi, rfl⟩
      | some pt =>
        -- the last chunk, so all that follows it is cut off
        obtain ⟨e, he, hlast, hct, -⟩ := idealOpen_eq_some h hcall hout (by omega) hopen
        have hrest : rest = [] := by
          rcases List.take_eq_nil_iff.1 hnext with h0 | h0
          · omega
          · exact h0
        have hlast : i + 1 = call.chunks.length := of_decide_eq_true hlast.symm
        rw [drop_chunks he, hlast, List.drop_length, hrest, List.append_nil] at hne
        exact absurd (by simp [hct]) hne
    · rw [if_neg hnext]
      unfold StreamDecryptor.decryptNext
      dsimp only
      by_cases hmax : i = u32Max
      · rw [if_pos hmax]
        exact ⟨0, hi, rfl⟩
      · rw [if_neg hmax]
        cases hopen : idealOpen calls call.alg call.key (chunkNonce call.streamNonce i false) call.aad current with
        | none => exact ⟨0, hi, rfl⟩
        | some pt =>
          obtain ⟨e, he, hlast, hct, hpt⟩ := idealOpen_eq_some h hcall hout (by omega) hopen
          have hlast : i + 1 ≠ call.chunks.length := of_decide_eq_false hlast.symm
          have hlt : (rest.drop encChunk).length < rest.length := by
            have hrest : rest ≠ [] := fun hnil => hnext (by rw [hnil, List.take_nil])
            have := List.length_pos_of_ne_nil hrest
            rw [List.length_drop]
            omega
          have hne' : rest.take encChunk ++ rest.drop encChunk ≠ (call.chunks.drop (i + 1)).flatMap (·.cipher) := by
            intro heq
            rw [List.take_append_drop] at heq
            rw [drop_chunks he, List.flatMap_cons, hct, heq] at hne
            exact hne rfl
          obtain ⟨j, hj, hdec⟩ := ih (i + 1) (rest.take encChunk) (rest.drop encChunk) (by omega) (by omega) hne'
          refine ⟨j + 1, by omega, ?_⟩
          dsimp only
          rw [hdec, drop_chunks he, List.take_succ_cons, List.flatMap_cons, hpt]

/-- A ciphertext whose first chunk does not open is refused at once. -/
private theorem decryptStreamWith_first {openWith : OpenWith P} {alg : AeadAlg} {key streamNonce c : Bytes} {aad : P.Raw}
    {size : Nat} (hlen : streamNonce.length = alg.streamNonceLen) (hpos : 0 < size) (hmax : size ≤ maxChunkSize)
    (hopen : ∀ b, openWith alg key (chunkNonce streamNonce 0 b) aad (c.take (size + tagLen)) = none) :
    decryptStreamWith openWith alg key streamNonce aad c size = ([], .error .auth) := by
  unfold decryptStreamWith
  rw [if_neg (not_not.2 hlen), if_neg (by omega)]
  unfold decryptRounds StreamDecryptor.decryptLast StreamDecryptor.decryptNext
  have hzero : (0 : Nat) ≠ u32Max := by decide
  simp only [hopen, if_neg hzero]
  split <;> rfl

/-- However the reader is read, it gives a beginning of `text`; if the reading ends, then it has given all of it and ends
in an authentication error, and enough buffers with room come to this end. -/
def EndsInAuth (openWith : OpenWith P) (r : StreamDecryptReader P) (text : Bytes) : Prop :=
  ∀ sizes, (r.readAll openWith sizes).1 <+: text ∧
    (∀ res, (r.readAll openWith sizes).2 = some res → (r.readAll openWith sizes).1 = text ∧ res = .error .auth) ∧
    ((∀ n ∈ sizes, 0 < n) → text.length < sizes.length → (r.readAll openWith sizes).2 ≠ none)

/-- Where `decrypt_stream_with` ends in an authentication error, so does the reader, with the same plaintext. -/
private theorem reader_endsInAuth {openWith : OpenWith P} {alg : AeadAlg} {key streamNonce c text : Bytes} {aad : P.Raw}
    {size : Nat} (h : decryptStreamWith openWith alg key streamNonce aad c size = (text, .error .auth)) :
    ∃ r, StreamDecryptReader.newWith alg key streamNonce aad c size = .ok r ∧ EndsInAuth openWith r text := by
  cases hnew : StreamDecryptReader.newWith (P := P) alg key streamNonce aad c size with
  | error e =>
    unfold StreamDecryptReader.newWith at hnew
    unfold decryptStreamWith at h
    split at hnew
    · rename_i hlen
      rw [if_pos hlen] at h
      cases h
    · rename_i hlen
      split at hnew
      · rename_i hsize
        rw [if_neg hlen, if_pos hsize] at h
        cases h
      · cases hnew
  | ok r =>
    obtain ⟨hrun, htext, hres⟩ := StreamDecryptReader.newWith_left openWith hnew
    rw [h] at htext hres
    refine ⟨r, rfl, fun sizes => ?_⟩
    have hspec := StreamDecryptReader.readAll_spec openWith hrun sizes
    have hend : (r.left openWith).2 = .error .auth := by
      cases hleft : (r.left openWith).2 with
      | ok _ => simp [hleft, Except.map] at hres
      | error e => simpa [hleft, Except.map] using hres
    rw [htext, hend] at hspec
    exact hspec

/-- Anything but the ciphertext of a stream ends in an authentication error when it is decrypted in its place, by either
way of decrypting, after a beginning of the plaintext that ends between two chunks; and the ciphertext of a stream under
another nonce or other associated data ends so at once. -/
theorem stream_tamper_evident (h : IdealStreams calls) (hcall : call ∈ calls) (hout : call.output = .ok out) :
    (∀ c, c ≠ out → ∃ j, j * call.chunkSize ≤ call.source.length ∧
      decryptStreamWith (idealOpen calls) call.alg call.key call.streamNonce call.aad c call.chunkSize =
        (call.source.take (j * call.chunkSize), .error .auth) ∧
      ∃ r, StreamDecryptReader.newWith call.alg call.key call.streamNonce call.aad c call.chunkSize = .ok r ∧
        EndsInAuth (idealOpen calls) r (call.source.take (j * call.chunkSize))) ∧
    (∀ streamNonce aad chunkSize, (streamNonce, aad) ≠ (call.streamNonce, call.aad) →
      streamNonce.length = call.alg.streamNonceLen → 0 < chunkSize → chunkSize ≤ maxChunkSize →
      decryptStreamWith (idealOpen calls) call.alg call.key streamNonce aad out chunkSize = ([], .error .auth) ∧
      ∃ r, StreamDecryptReader.newWith call.alg call.key streamNonce aad out chunkSize = .ok r ∧
        EndsInAuth (idealOpen calls) r []) := by
  obtain ⟨hlen, hpos, hmax, hcat, hsome, -, -, hplain⟩ := output_spec hout
  constructor
  · intro c hc
    have henc : 0 < call.chunkSize + tagLen := by omega
    have hfuel : (c.drop (call.chunkSize + tagLen)).length < c.length + 1 := by
      rw [List.length_drop]
      omega
    have hne : c.take (call.chunkSize + tagLen) ++ c.drop (call.chunkSize + tagLen) ≠
        (call.chunks.drop 0).flatMap (·.cipher) := by
      rw [List.take_append_drop, List.drop_zero, ← hcat]
      exact hc
    obtain ⟨j, hj, hdec⟩ := decryptRounds_tampered h hcall hout henc _ 0 _ _ hfuel hsome hne
    rw [List.drop_zero, (hplain j (by omega)).1] at hdec
    have hstream : decryptStreamWith (idealOpen calls) call.alg call.key call.streamNonce call.aad c call.chunkSize =
        (call.source.take (j * call.chunkSize), .error .auth) := by
      unfold decryptStreamWith
      rw [if_neg (not_not.2 hlen), if_neg (by omega)]
      simp only [hdec, Except.map]
    exact ⟨j, (hplain j (by omega)).2, hstream, reader_endsInAuth hstream⟩
  · intro streamNonce aad chunkSize hother hlen' hpos' hmax'
    have hstream : decryptStreamWith (idealOpen calls) call.alg call.key streamNonce aad out chunkSize =
        ([], .error .auth) := by
      refine decryptStreamWith_first hlen' hpos' hmax' fun b => openIn_eq_none fun e he hans => ?_
      obtain ⟨hkey, hnonce, haad, hct⟩ := hans
      obtain ⟨a, ha, he⟩ := List.mem_flatMap.1 he
      by_cases hac : a = call
      · subst hac
        obtain ⟨-, -, haad', k, hk, b', hnonce'⟩ := mem_chunks he
        obtain ⟨rfl, -⟩ := chunkNonce_inj (hlen'.trans hlen.symm) (Nat.zero_le _) hk (hnonce.symm.trans hnonce')
        exact hother (by rw [← haad, haad'])
      · refine h.fresh a ha call hcall hac e he out hout ?_
        rw [hct]
        exact (List.take_prefix _ _).isInfix
    exact ⟨hstream, reader_endsInAuth hstream⟩

end Ideal

namespace Sym

/-- A stream of two chunks. -/
def stream : StreamCall Sym := ⟨.xchacha20Poly1305, [1], List.replicate 19 0, .nat 0, [1, 2, 3], 2⟩

/-- A stream under the same key with another nonce. -/
def otherStream : StreamCall Sym := ⟨.xchacha20Poly1305, [1], List.replicate 19 1, .nat 1, [4, 5], 2⟩

/-- The ciphertext of `stream`. -/
def streamOut : Bytes := stream.chunks.flatMap (·.cipher)

theorem stream_output : stream.output = .ok streamOut := by decide

theorem ideal_streams : IdealStreams [stream, otherStream] := by
  have hnonce : stream.streamNonce ≠ otherStream.streamNonce := by decide
  have hout : otherStream.output = .ok (otherStream.chunks.flatMap (·.cipher)) := by decide
  refine ⟨fun a ha b hb _ _ hsn _ => ?_, fun a ha b hb hne e he out hb' => ?_⟩
  · simp only [List.mem_cons, List.not_mem_nil, or_false] at ha hb
    rcases ha with rfl | rfl <;> rcases hb with rfl | rfl
    · rfl
    · exact absurd hsn hnonce
    · exact absurd hsn.symm hnonce
    · rfl
  · simp only [List.mem_cons, List.not_mem_nil, or_false] at ha hb
    rcases ha with rfl | rfl <;> rcases hb with rfl | rfl
    · exact absurd rfl hne
    · obtain rfl := Except.ok.inj (hout.symm.trans hb')
      have hall : ∀ e ∈ stream.chunks, ¬ e.cipher <:+: otherStream.chunks.flatMap (·.cipher) := by decide
      exact hall e he
    · obtain rfl := Except.ok.inj (stream_output.symm.trans hb')
      have hall : ∀ e ∈ otherStream.chunks, ¬ e.cipher <:+: streamOut := by decide
      exact hall e he
    · exact absurd rfl hne

end Sym

/-- Left alone, a stream decrypts. -/
example : decryptStreamWith (idealOpen [Sym.stream, Sym.otherStream]) .xchacha20Poly1305 [1] (List.replicate 19 0)
    (.nat 0) Sym.streamOut 2 = ([1, 2, 3], .ok 3) := by decide

/-- A stream that is cut off after its first chunk. -/
theorem stream_tamper_evident_truncated :
    ∃ j, j * 2 ≤ 3 ∧
      decryptStreamWith (idealOpen [Sym.stream, Sym.otherStream]) .xchacha20Poly1305 [1] (List.replicate 19 0) (.nat 0)
        (Sym.streamOut.take 18) 2 = ([1, 2, 3].take (j * 2), .error .auth) ∧
      ∃ r, StreamDecryptReader.newWith (P := Sym) .xchacha20Poly1305 [1] (List.replicate 19 0) (.nat 0)
          (Sym.streamOut.take 18) 2 = .ok r ∧
        EndsInAuth (idealOpen [Sym.stream, Sym.otherStream]) r ([1, 2, 3].take (j * 2)) :=
  (stream_tamper_evident Sym.ideal_streams List.mem_cons_self Sym.stream_output).1 (Sym.streamOut.take 18)
    (by decide)

end FileSec
