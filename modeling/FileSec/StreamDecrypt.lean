import FileSec.Stream

/-!
# Decrypting streams

The two ways `aead.rs` decrypts a stream from its beginning: `decrypt_stream_with`, which writes all of the plaintext,
and `StreamDecryptReader`, which is read piece by piece.  Both hold one chunk of ciphertext back, so that they know the
last one.  Reading the reader with whatever buffers gives what `decrypt_stream_with` writes, up to where the reading
stops, and the same error (`readAll_spec`).  The cipher is a parameter: `OpenWith` opens one chunk.
-/

namespace FileSec

variable {P : Prims}

/-- `aead::open_with` on chunks, by algorithm, key, nonce and associated data. -/
abbrev OpenWith (P : Prims) := AeadAlg → Bytes → Bytes → P.Raw → Bytes → Option Bytes

/-- `StreamDecryptor` with the number of chunks it has opened. -/
structure StreamDecryptor where
  alg : AeadAlg
  key : Bytes
  streamNonce : Bytes
  position : Nat

/-- `StreamDecryptor::decrypt_next`, which refuses the last counter value. -/
def StreamDecryptor.decryptNext (openWith : OpenWith P) (d : StreamDecryptor) (aad : P.Raw) (msg : Bytes) :
    Result (Bytes × StreamDecryptor) :=
  if d.position = u32Max then .error .auth
  else
    match openWith d.alg d.key (chunkNonce d.streamNonce d.position false) aad msg with
    | none => .error .auth
    | some pt => .ok (pt, { d with position := d.position + 1 })

/-- `StreamDecryptor::decrypt_last` -/
def StreamDecryptor.decryptLast (openWith : OpenWith P) (d : StreamDecryptor) (aad : P.Raw) (msg : Bytes) : Result Bytes :=
  match openWith d.alg d.key (chunkNonce d.streamNonce d.position true) aad msg with
  | none => .error .auth
  | some pt => .ok pt

/-- The loop of `decrypt_stream_with` from the chunk `current`: what it writes, and how it ends; `rest` is what the
reader has left.  The first argument bounds the number of rounds. -/
def decryptRounds (openWith : OpenWith P) (aad : P.Raw) (encChunk : Nat) :
    Nat → StreamDecryptor → Bytes → Bytes → Bytes × Result Unit
  | 0, _, _, _ => ([], .error (.format "stream state".toList))
  | fuel + 1, d, current, rest =>
    if rest.take encChunk = [] then
      match d.decryptLast openWith aad current with
      | .error e => ([], .error e)
      | .ok pt => (pt, .ok ())
    else
      match d.decryptNext openWith aad current with
      | .error e => ([], .error e)
      | .ok (pt, d) =>
        let out := decryptRounds openWith aad encChunk fuel d (rest.take encChunk) (rest.drop encChunk)
        (pt ++ out.1, out.2)

/-- `decrypt_stream_with`: what it writes, and the number of bytes it returns. -/
def decryptStreamWith (openWith : OpenWith P) (alg : AeadAlg) (key streamNonce : Bytes) (aad : P.Raw) (ciphertext : Bytes)
    (chunkSize : Nat) : Bytes × Result Nat :=
  if streamNonce.length ≠ alg.streamNonceLen then ([], .error (.format "stream nonce length".toList))
  else if chunkSize = 0 ∨ chunkSize > maxChunkSize then ([], .error (.format "chunk size".toList))
  else
    let encChunk := chunkSize + tagLen
    let out := decryptRounds openWith aad encChunk (ciphertext.length + 1) ⟨alg, key, streamNonce, 0⟩
      (ciphertext.take encChunk) (ciphertext.drop encChunk)
    (out.1, out.2.map fun _ => out.1.length)

/-! ### The reader -/

/-- `StreamDecryptReader` -/
structure StreamDecryptReader (P : Prims) where
  dec : Option StreamDecryptor
  reader : Bytes
  aad : P.Raw
  encChunk : Nat
  current : Bytes
  plain : Bytes
  pos : Nat
  finished : Bool

/-- `StreamDecryptReader::new_with` -/
def StreamDecryptReader.newWith (alg : AeadAlg) (key streamNonce : Bytes) (aad : P.Raw) (ciphertext : Bytes)
    (chunkSize : Nat) : Result (StreamDecryptReader P) :=
  if streamNonce.length ≠ alg.streamNonceLen then .error (.format "stream nonce length".toList)
  else if chunkSize = 0 ∨ chunkSize > maxChunkSize then .error (.format "chunk size".toList)
  else
    let encChunk := chunkSize + tagLen
    .ok {
      dec := some ⟨alg, key, streamNonce, 0⟩
      reader := ciphertext.drop encChunk
      aad
      encChunk
      current := ciphertext.take encChunk
      plain := []
      pos := 0
      finished := false }

/-- `StreamDecryptReader::refill` -/
def StreamDecryptReader.refill (openWith : OpenWith P) (r : StreamDecryptReader P) : Result Bool × StreamDecryptReader P :=
  if r.finished then (.ok false, r)
  else
    let next := r.reader.take r.encChunk
    let r := { r with reader := r.reader.drop r.encChunk }
    if next = [] then
      match r.dec with
      | none => (.error (.format "stream state".toList), r)
      | some d =>
        match d.decryptLast openWith r.aad r.current with
        | .error e => (.error e, { r with dec := none })
        | .ok pt => (.ok true, { r with dec := none, finished := true, plain := pt, pos := 0 })
    else
      match r.dec with
      | none => (.error (.format "stream state".toList), r)
      | some d =>
        match d.decryptNext openWith r.aad r.current with
        | .error e => (.error e, r)
        | .ok (pt, d) => (.ok true, { r with dec := some d, current := next, plain := pt, pos := 0 })

/-- The loop of `read` into a buffer of `n` bytes; the first argument bounds the number of rounds. -/
def StreamDecryptReader.readLoop (openWith : OpenWith P) (n : Nat) :
    Nat → StreamDecryptReader P → Result Bytes × StreamDecryptReader P
  | 0, r => (.error (.format "stream state".toList), r)
  | fuel + 1, r =>
    if r.pos < r.plain.length then
      let k := min (r.plain.length - r.pos) n
      (.ok ((r.plain.drop r.pos).take k), { r with pos := r.pos + k })
    else
      match r.refill openWith with
      | (.ok true, r) => readLoop openWith n fuel r
      | (.ok false, r) => (.ok [], r)
      | (.error e, r) => (.error e, r)

/-- `StreamDecryptReader::read` into a buffer of `n` bytes. -/
def StreamDecryptReader.read (openWith : OpenWith P) (n : Nat) (r : StreamDecryptReader P) :
    Result Bytes × StreamDecryptReader P :=
  readLoop openWith n (r.reader.length + 3) r

/-- Reading into buffers of the given sizes, one after the other, until the first error or the end: what has been read,
and how it ended, if it did.  Nothing in a buffer with room means the end. -/
def StreamDecryptReader.readAll (openWith : OpenWith P) : List Nat → StreamDecryptReader P → Bytes × Option (Result Unit)
  | [], _ => ([], none)
  | n :: sizes, r =>
    match r.read openWith n with
    | (.error e, _) => ([], some (.error e))
    | (.ok bytes, r) =>
      if bytes = [] ∧ n ≠ 0 then ([], some (.ok ()))
      else
        let out := readAll openWith sizes r
        (bytes ++ out.1, out.2)

/-! ### What a reader has left -/

variable {openWith : OpenWith P} {r r' : StreamDecryptReader P} {n : Nat}

private theorem drop_length_lt {l : Bytes} {k : Nat} (h : l.take k ≠ []) : (l.drop k).length < l.length := by
  have hk : k ≠ 0 := fun hk => h (by rw [hk, List.take_zero])
  have hl : l ≠ [] := fun hl => h (by rw [hl, List.take_nil])
  have := List.length_pos_of_ne_nil hl
  rw [List.length_drop]
  omega

/-- More rounds than there are bytes make no difference. -/
theorem decryptRounds_fuel {aad : P.Raw} {encChunk : Nat} {fuel fuel' : Nat} {d : StreamDecryptor} {current rest : Bytes}
    (h : rest.length < fuel) (h' : rest.length < fuel') :
    decryptRounds openWith aad encChunk fuel d current rest = decryptRounds openWith aad encChunk fuel' d current rest := by
  induction fuel generalizing fuel' d current rest with
  | zero => omega
  | succ fuel ih =>
    cases fuel' with
    | zero => omega
    | succ fuel' =>
      unfold decryptRounds
      by_cases hnext : rest.take encChunk = []
      · rw [if_pos hnext, if_pos hnext]
      · rw [if_neg hnext, if_neg hnext]
        have hlt := drop_length_lt hnext
        cases hdec : d.decryptNext openWith aad current with
        | error e => rfl
        | ok res =>
          obtain ⟨pt, d'⟩ := res
          dsimp only
          exact congrArg (fun out : Bytes × Result Unit => (pt ++ out.1, out.2)) (ih (by omega) (by omega))

namespace StreamDecryptReader

/-- What the reader will decrypt beyond the chunk it is in, and how that ends. -/
def ahead (openWith : OpenWith P) (r : StreamDecryptReader P) : Bytes × Result Unit :=
  match r.dec with
  | none => ([], .ok ())
  | some d => decryptRounds openWith r.aad r.encChunk (r.reader.length + 1) d r.current r.reader

/-- All that the reader will give, and how that ends. -/
def left (openWith : OpenWith P) (r : StreamDecryptReader P) : Bytes × Result Unit :=
  (r.plain.drop r.pos ++ (r.ahead openWith).1, (r.ahead openWith).2)

/-- The decryptor has been used up exactly when the end has been decrypted. -/
def Running (r : StreamDecryptReader P) : Prop := r.finished = true ↔ r.dec = none

/-- The rounds that `read` may still need. -/
private def rounds (r : StreamDecryptReader P) : Nat := if r.finished then 0 else r.reader.length + 1

/-- What a refill does: nothing at the end, the next chunk, or the error that decryption ends with. -/
private theorem refill_cases (openWith : OpenWith P) (h : r.Running) :
    (∃ r', r.refill openWith = (.ok true, r') ∧ r'.Running ∧ r'.left openWith = r.ahead openWith ∧ r'.rounds < r.rounds) ∨
    (r.refill openWith = (.ok false, r) ∧ r.ahead openWith = ([], .ok ())) ∨
    (∃ e r', r.refill openWith = (.error e, r') ∧ r.ahead openWith = ([], .error e)) := by
  unfold refill ahead
  by_cases hfin : r.finished = true
  · refine Or.inr (Or.inl ⟨by rw [if_pos hfin], ?_⟩)
    rw [h.1 hfin]
  · rw [if_neg hfin]
    cases hdec : r.dec with
    | none => exact absurd (h.2 hdec) hfin
    | some d =>
      dsimp only
      unfold decryptRounds
      by_cases hnext : r.reader.take r.encChunk = []
      · simp only [if_pos hnext]
        cases hlast : d.decryptLast openWith r.aad r.current with
        | error e => exact Or.inr (Or.inr ⟨e, _, rfl, rfl⟩)
        | ok pt =>
          refine Or.inl ⟨_, rfl, ?_, ?_, ?_⟩
          · exact ⟨fun _ => rfl, fun _ => rfl⟩
          · simp [left, ahead]
          · simp [rounds, hfin]
      · simp only [if_neg hnext]
        have hlt := drop_length_lt hnext
        cases hd : d.decryptNext openWith r.aad r.current with
        | error e => exact Or.inr (Or.inr ⟨e, _, rfl, rfl⟩)
        | ok res =>
          obtain ⟨pt, d'⟩ := res
          refine Or.inl ⟨_, rfl, ?_, ?_, ?_⟩
          · exact ⟨fun hf => absurd hf hfin, fun hn => by cases hn⟩
          · simp only [left, ahead, List.drop_zero]
            rw [decryptRounds_fuel (Nat.lt_succ_self _) hlt]
          · simp only [rounds, if_neg hfin]
            omega

/-- What one read does: some of what is left, all of which is there to be read, or the error at its end. -/
private theorem readLoop_cases (fuel : Nat) (h : r.Running) (hf : r.rounds < fuel) :
    (∃ bytes r', r.readLoop openWith n fuel = (.ok bytes, r') ∧ r'.Running ∧
      r.left openWith = (bytes ++ (r'.left openWith).1, (r'.left openWith).2) ∧ (bytes = [] → n ≠ 0 → r.left openWith = ([], .ok ()))) ∨
    (∃ e r', r.readLoop openWith n fuel = (.error e, r') ∧ r.left openWith = ([], .error e)) := by
  induction fuel generalizing r with
  | zero => omega
  | succ fuel ih =>
    unfold readLoop
    by_cases hpos : r.pos < r.plain.length
    · rw [if_pos hpos]
      refine Or.inl ⟨_, _, rfl, h, ?_, fun hnil hn => ?_⟩
      · simp only [left, ahead]
        rw [← List.append_assoc, ← List.drop_drop, List.take_append_drop]
      · have hlen := congrArg List.length hnil
        simp only [List.length_take, List.length_drop, List.length_nil] at hlen
        omega
    · rw [if_neg hpos]
      have hleft : r.left openWith = r.ahead openWith := by
        unfold left
        rw [List.drop_eq_nil_of_le (by omega), List.nil_append]
      rcases refill_cases openWith h with ⟨r', heq, hrun, hr', hlt⟩ | ⟨heq, hend⟩ | ⟨e, r', heq, hend⟩
      · rw [heq, hleft, ← hr']
        exact ih hrun (by omega)
      · rw [heq]
        have hnil : r.left openWith = ([], .ok ()) := hleft.trans hend
        exact Or.inl ⟨[], r, rfl, h, by rw [hnil]; rfl, fun _ _ => hnil⟩
      · rw [heq, hleft, hend]
        exact Or.inr ⟨e, r', rfl, rfl⟩

/-- No read gives more than there is room for. -/
theorem readLoop_length_le {openWith : OpenWith P} {fuel : Nat} {r' : StreamDecryptReader P} {bytes : Bytes}
    (h : r.readLoop openWith n fuel = (.ok bytes, r')) : bytes.length ≤ n := by
  induction fuel generalizing r with
  | zero => cases h
  | succ fuel ih =>
    unfold readLoop at h
    split at h
    · simp only [Prod.mk.injEq, Except.ok.injEq] at h
      rw [← h.1, List.length_take]
      omega
    · split at h
      · exact ih h
      · simp only [Prod.mk.injEq, Except.ok.injEq] at h
        simp [← h.1]
      · simp at h

theorem read_cases (openWith : OpenWith P) (n : Nat) (h : r.Running) :
    (∃ bytes r', r.read openWith n = (.ok bytes, r') ∧ r'.Running ∧
      r.left openWith = (bytes ++ (r'.left openWith).1, (r'.left openWith).2) ∧
      (bytes = [] → n ≠ 0 → r.left openWith = ([], .ok ()))) ∨
    (∃ e r', r.read openWith n = (.error e, r') ∧ r.left openWith = ([], .error e)) := by
  refine readLoop_cases _ h ?_
  unfold rounds
  split <;> omega

/-- Whatever the buffers, what is read is the beginning of what is left, and all of it where the reading ends, with the
same end; buffers with room, one more than there are bytes left, come to the end. -/
theorem readAll_spec (openWith : OpenWith P) (h : r.Running) (sizes : List Nat) :
    (r.readAll openWith sizes).1 <+: (r.left openWith).1 ∧
    (∀ res, (r.readAll openWith sizes).2 = some res →
      (r.readAll openWith sizes).1 = (r.left openWith).1 ∧ res = (r.left openWith).2) ∧
    ((∀ n ∈ sizes, 0 < n) → (r.left openWith).1.length < sizes.length → (r.readAll openWith sizes).2 ≠ none) := by
  induction sizes generalizing r with
  | nil =>
    refine ⟨List.nil_prefix, fun res hres => ?_, fun _ hlen => absurd hlen (Nat.not_lt_zero _)⟩
    cases hres
  | cons n sizes ih =>
    unfold readAll
    rcases read_cases openWith n h with ⟨bytes, r', heq, hrun, hleft, hend⟩ | ⟨e, r', heq, hleft⟩
    · rw [heq]
      dsimp only
      by_cases hstop : bytes = [] ∧ n ≠ 0
      · rw [if_pos hstop, hend hstop.1 hstop.2]
        refine ⟨List.prefix_rfl, fun res hres => ?_, fun _ _ hnone => by cases hnone⟩
        rw [Option.some.injEq] at hres
        exact ⟨rfl, hres.symm⟩
      · rw [if_neg hstop, hleft]
        obtain ⟨hpre, hdone, hroom⟩ := ih hrun
        dsimp only
        refine ⟨(List.prefix_append_right_inj bytes).2 hpre, fun res hres => ?_, fun hpos hlen => ?_⟩
        · obtain ⟨hall, hres⟩ := hdone res hres
          exact ⟨by rw [hall], hres⟩
        · have hn : 0 < n := hpos n List.mem_cons_self
          have hbytes : 0 < bytes.length := by
            by_cases hb : bytes = []
            · exact absurd ⟨hb, by omega⟩ hstop
            · exact List.length_pos_of_ne_nil hb
          rw [List.length_append, List.length_cons] at hlen
          exact hroom (fun m hm => hpos m (List.mem_cons_of_mem _ hm)) (by omega)
    · rw [heq, hleft]
      refine ⟨List.prefix_rfl, fun res hres => ?_, fun _ _ hnone => by cases hnone⟩
      rw [Option.some.injEq] at hres
      exact ⟨rfl, hres.symm⟩

/-- A new reader gives what `decrypt_stream_with` writes, and ends as it does. -/
theorem newWith_left (openWith : OpenWith P) {alg : AeadAlg} {key streamNonce ciphertext : Bytes} {aad : P.Raw}
    {chunkSize : Nat}
    (h : newWith alg key streamNonce aad ciphertext chunkSize = .ok r) :
    r.Running ∧ (r.left openWith).1 = (decryptStreamWith openWith alg key streamNonce aad ciphertext chunkSize).1 ∧
      (r.left openWith).2.map (fun _ => (r.left openWith).1.length) =
        (decryptStreamWith openWith alg key streamNonce aad ciphertext chunkSize).2 := by
  unfold newWith at h
  unfold decryptStreamWith
  split at h
  · cases h
  · rename_i hnonce
    split at h
    · cases h
    · rename_i hsize
      rw [if_neg hnonce, if_neg hsize]
      simp only [Except.ok.injEq] at h
      subst h
      have hfuel : (ciphertext.drop (chunkSize + tagLen)).length < ciphertext.length + 1 := by
        rw [List.length_drop]
        omega
      refine ⟨by simp [Running], ?_, ?_⟩
      · simp only [left, ahead, List.drop_nil, List.nil_append]
        rw [decryptRounds_fuel (Nat.lt_succ_self _) hfuel]
      · simp only [left, ahead, List.drop_nil, List.nil_append]
        rw [decryptRounds_fuel (Nat.lt_succ_self _) hfuel]

end StreamDecryptReader

/-! ### Decrypting what has been encrypted -/

private theorem encryptChunks_ne_nil {alg : AeadAlg} {key nonce : Bytes} {aad : P.Raw} {size fuel index : Nat}
    {current rest out : Bytes} (h : encryptChunks P alg key nonce aad size fuel index current rest = .ok out) :
    out ≠ [] := by
  have hpos (isLast : Bool) : P.sealBytes alg key (chunkNonce nonce index isLast) aad current ≠ [] := by
    intro hnil
    have hlen := P.length_sealBytes alg key (chunkNonce nonce index isLast) aad current
    have htag : 0 < tagLen := by decide
    rw [hnil, List.length_nil] at hlen
    omega
  cases fuel with
  | zero => simp [encryptChunks] at h
  | succ fuel =>
    unfold encryptChunks at h
    split at h
    · rw [Except.ok.injEq] at h
      exact h ▸ hpos true
    · split at h
      · cases h
      · split at h
        · cases h
        · rw [Except.ok.injEq] at h
          intro hnil
          rw [hnil, List.append_eq_nil_iff] at h
          exact hpos false h.1

private theorem decryptRounds_encryptChunks {alg : AeadAlg} {key nonce : Bytes} {aad : P.Raw} {size : Nat} (hs : 0 < size)
    {fuel fuel' index : Nat} {current rest out : Bytes} (hcur : current.length ≤ size)
    (hfull : rest ≠ [] → current.length = size)
    (h : encryptChunks P alg key nonce aad size fuel index current rest = .ok out) (hf : out.length < fuel') :
    decryptRounds P.openBytes aad (size + tagLen) fuel' ⟨alg, key, nonce, index⟩ (out.take (size + tagLen))
      (out.drop (size + tagLen)) = (current ++ rest, .ok ()) := by
  induction fuel generalizing fuel' index current rest out with
  | zero => simp [encryptChunks] at h
  | succ fuel ih =>
    obtain ⟨k, rfl⟩ : ∃ k, fuel' = k + 1 := ⟨fuel' - 1, by omega⟩
    unfold encryptChunks at h
    by_cases hr : rest = []
    · subst hr
      simp only [List.take_nil, if_true, Except.ok.injEq] at h
      subst h
      have hlen : (P.sealBytes alg key (chunkNonce nonce index true) aad current).length ≤ size + tagLen := by
        rw [P.length_sealBytes]
        omega
      unfold decryptRounds StreamDecryptor.decryptLast
      rw [List.take_of_length_le hlen, List.drop_eq_nil_of_le hlen]
      simp
    · have htake : rest.take size ≠ [] := by
        rw [ne_eq, List.take_eq_nil_iff, not_or]
        exact ⟨by omega, hr⟩
      rw [if_neg htake] at h
      split at h
      · cases h
      · rename_i hindex
        cases hrec : encryptChunks P alg key nonce aad size fuel (index + 1) (rest.take size) (rest.drop size) with
        | error e => simp [hrec] at h
        | ok out' =>
          simp only [hrec, Except.ok.injEq] at h
          subst h
          have hsealed : (P.sealBytes alg key (chunkNonce nonce index false) aad current).length = size + tagLen := by
            rw [P.length_sealBytes, hfull hr]
          rw [List.take_left' hsealed, List.drop_left' hsealed]
          have htag : 0 < tagLen := by decide
          rw [List.length_append, hsealed] at hf
          have hstep := ih (by simp) (fun hne => ?_) hrec (by omega : out'.length < k)
          · have hne : out'.take (size + tagLen) ≠ [] := by
              intro hnil
              rw [List.take_eq_nil_iff] at hnil
              have hout : out' = [] := by
                rcases hnil with hnil | hnil
                · omega
                · exact hnil
              exact encryptChunks_ne_nil hrec hout
            unfold decryptRounds StreamDecryptor.decryptNext
            rw [if_neg hne]
            simp only [if_neg hindex, P.openBytes_sealBytes, hstep, List.take_append_drop]
          · have := List.length_pos_of_ne_nil hne
            rw [List.length_drop] at this
            rw [List.length_take]
            omega

/-- A reader of what `encrypt_stream_with` has written gives the plaintext and then the end. -/
theorem newWith_encryptStreamWith {alg : AeadAlg} {key nonce source out : Bytes} {aad : P.Raw} {size : Nat}
    (h : encryptStreamWith P alg key nonce aad source size = .ok out) :
    ∃ r, StreamDecryptReader.newWith alg key nonce aad out size = .ok r ∧ r.Running ∧
      r.left P.openBytes = (source, .ok ()) := by
  unfold encryptStreamWith at h
  split at h
  · cases h
  · rename_i hnonce
    split at h
    · cases h
    · rename_i hsize
      refine ⟨⟨some ⟨alg, key, nonce, 0⟩, out.drop (size + tagLen), aad, size + tagLen, out.take (size + tagLen), [], 0,
        false⟩, ?_, ?_, ?_⟩
      · unfold StreamDecryptReader.newWith
        rw [if_neg hnonce, if_neg hsize]
      · simp [StreamDecryptReader.Running]
      · simp only [StreamDecryptReader.left, StreamDecryptReader.ahead, List.drop_nil, List.nil_append]
        rw [not_or] at hsize
        have hrest : (out.drop (size + tagLen)).length < out.length + 1 := by
          rw [List.length_drop]
          omega
        rw [decryptRounds_fuel (Nat.lt_succ_self _) hrest]
        have hdec := decryptRounds_encryptChunks (by omega) (by simp) (fun hne => ?_) h (Nat.lt_succ_self _)
        · rw [hdec, List.take_append_drop]
        · have := List.length_pos_of_ne_nil hne
          rw [List.length_drop] at this
          rw [List.length_take]
          omega

end FileSec
