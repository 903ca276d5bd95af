import FileSec.Tamper

/-!
# Reading on after an error

`StreamDecryptReader` may be read on after a read has failed.  A refill that fails on a chunk which is not the last has
lost the chunk after it and kept its decryptor, so once the input is used up the same chunk is tried again as the last
one.  `retry_final_iff` says for which ciphertexts errors and the end of the stream are final all the same.
-/

namespace FileSec

variable {P : Prims}

/-- The reads into buffers of the given sizes, one after the other and also after errors: the size of each buffer and
what the read returned. -/
def StreamDecryptReader.reads (openWith : OpenWith P) : List Nat → StreamDecryptReader P → List (Nat × Result Bytes)
  | [], _ => []
  | n :: sizes, r => (n, (r.read openWith n).1) :: reads openWith sizes (r.read openWith n).2

/-- The read says that the stream has ended. -/
def SaysEnd (x : Nat × Result Bytes) : Prop := x.2 = .ok [] ∧ x.1 ≠ 0

/-- After an authentication error there is neither data nor an end, and after the end there is only the end. -/
structure Final (outcomes : List (Nat × Result Bytes)) : Prop where
  error : outcomes.Pairwise fun a b => a.2 = .error .auth → ∀ bytes, b.2 = .ok bytes → bytes = [] ∧ b.1 = 0
  finish : outcomes.Pairwise fun a b => SaysEnd a → b.2 = .ok []

/-- What the reads have given altogether. -/
def dataOf (outcomes : List (Nat × Result Bytes)) : Bytes := outcomes.flatMap fun x => x.2.toOption.getD []

/-! ### Pieces of a ciphertext -/

section Pieces

variable (openWith : OpenWith P) (d : StreamDecryptor) (aad : P.Raw) (encChunk : Nat) (ciphertext : Bytes)

/-- The piece of the ciphertext that is decrypted as the chunk with index `i`. -/
def piece (i : Nat) : Bytes := (ciphertext.drop (i * encChunk)).take encChunk

/-- The piece decrypts as a chunk that is not the last. -/
def OpensNext (i : Nat) : Prop :=
  ∃ out, ({ d with position := i } : StreamDecryptor).decryptNext openWith aad (piece encChunk ciphertext i) = .ok out

/-- The piece decrypts as the last chunk. -/
def OpensLast (i : Nat) : Prop :=
  ∃ pt, ({ d with position := i } : StreamDecryptor).decryptLast openWith aad (piece encChunk ciphertext i) = .ok pt

/-- A complete stream is followed by more: after pieces that decrypt, a piece which is not the last fails as what it
would have to be and decrypts as the last chunk. -/
def HidesStream : Prop :=
  ∃ j, (j + 1) * encChunk < ciphertext.length ∧ (∀ i < j, OpensNext openWith d aad encChunk ciphertext i) ∧
    ¬ OpensNext openWith d aad encChunk ciphertext j ∧ OpensLast openWith d aad encChunk ciphertext j

/-! ### Where a reader is -/

/-- The reader has decrypted the pieces before the one with index `j`. -/
structure StreamDecryptReader.Reading (j : Nat) (r : StreamDecryptReader P) : Prop where
  dec : r.dec = some { d with position := j }
  current : r.current = piece encChunk ciphertext j
  reader : r.reader = ciphertext.drop ((j + 1) * encChunk)
  bound : r.aad = aad
  framing : r.encChunk = encChunk
  running : r.finished = false
  before : ∀ i < j, OpensNext openWith d aad encChunk ciphertext i

/-- The reader has failed on the piece with index `j`, which is not the last. -/
structure StreamDecryptReader.Stuck (j : Nat) (r : StreamDecryptReader P) : Prop where
  dec : r.dec = some { d with position := j }
  current : r.current = piece encChunk ciphertext j
  bound : r.aad = aad
  framing : r.encChunk = encChunk
  running : r.finished = false
  consumed : r.plain.length ≤ r.pos
  before : ∀ i < j, OpensNext openWith d aad encChunk ciphertext i
  more : (j + 1) * encChunk < ciphertext.length
  fails : ¬ OpensNext openWith d aad encChunk ciphertext j

end Pieces

namespace StreamDecryptReader

/-- The reader has used up its decryptor without coming to the end. -/
structure Spent (r : StreamDecryptReader P) : Prop where
  dec : r.dec = none
  running : r.finished = false
  consumed : r.plain.length ≤ r.pos

/-- The reader has given all of a stream. -/
structure AtEnd (r : StreamDecryptReader P) : Prop where
  finished : r.finished = true
  consumed : r.plain.length ≤ r.pos

variable {openWith : OpenWith P} {d : StreamDecryptor} {aad : P.Raw} {encChunk : Nat} {ciphertext : Bytes}
  {r r' : StreamDecryptReader P} {j n : Nat}

/-- The reader fails from now on. -/
def Dead (openWith : OpenWith P) (d : StreamDecryptor) (aad : P.Raw) (encChunk : Nat) (ciphertext : Bytes)
    (r : StreamDecryptReader P) : Prop :=
  r.Spent ∨ ∃ j, r.Stuck openWith d aad encChunk ciphertext j ∧ ¬ OpensLast openWith d aad encChunk ciphertext j

/-! ### One refill -/

private theorem take_ne_nil {l : Bytes} {k : Nat} (hk : 0 < k) : l.take k = [] ↔ l = [] := by
  rw [List.take_eq_nil_iff]
  exact or_iff_right (by omega)

/-- Decryptors fail in authentication only. -/
private theorem decryptLast_error {msg : Bytes} {e : Error} (h : d.decryptLast openWith aad msg = .error e) :
    e = .auth := by
  unfold StreamDecryptor.decryptLast at h
  split at h
  · cases h
    rfl
  · cases h

private theorem decryptNext_error {msg : Bytes} {e : Error} (h : d.decryptNext openWith aad msg = .error e) :
    e = .auth := by
  unfold StreamDecryptor.decryptNext at h
  split at h
  · cases h
    rfl
  · split at h
    · cases h
      rfl
    · cases h

private theorem decryptNext_ok {msg : Bytes} {out : Bytes × StreamDecryptor}
    (h : d.decryptNext openWith aad msg = .ok out) : out.2 = { d with position := d.position + 1 } := by
  unfold StreamDecryptor.decryptNext at h
  split at h
  · cases h
  · split at h
    · cases h
    · cases h
      rfl

theorem Spent.refill (h : r.Spent) (openWith : OpenWith P) : ∃ e r', r.refill openWith = (.error e, r') ∧ r'.Spent := by
  unfold StreamDecryptReader.refill
  rw [if_neg (by rw [h.running]; exact Bool.false_ne_true)]
  simp only [h.dec]
  split
  · exact ⟨_, _, rfl, rfl, h.running, h.consumed⟩
  · exact ⟨_, _, rfl, rfl, h.running, h.consumed⟩

/-- While there is input, a stuck reader only uses it up; then it tries its piece as the last one. -/
theorem Stuck.refill (henc : 0 < encChunk) (h : r.Stuck openWith d aad encChunk ciphertext j) :
    (∃ r', r.refill openWith = (.error .auth, r') ∧ r'.Stuck openWith d aad encChunk ciphertext j ∧
      r'.reader.length < r.reader.length) ∨
    (r.reader = [] ∧ OpensLast openWith d aad encChunk ciphertext j ∧
      ∃ r', r.refill openWith = (.ok true, r') ∧ r'.finished = true) ∨
    (r.reader = [] ∧ ¬ OpensLast openWith d aad encChunk ciphertext j ∧
      ∃ r', r.refill openWith = (.error .auth, r') ∧ r'.Spent) := by
  unfold StreamDecryptReader.refill
  rw [if_neg (by rw [h.running]; exact Bool.false_ne_true)]
  simp only [h.dec, h.framing, h.bound, h.current]
  by_cases hr : r.reader = []
  · rw [if_pos ((take_ne_nil henc).2 hr)]
    cases hlast : ({ d with position := j } : StreamDecryptor).decryptLast openWith aad (piece encChunk ciphertext j) with
    | error e =>
      have hno : ¬ OpensLast openWith d aad encChunk ciphertext j := by
        rintro ⟨pt, hpt⟩
        rw [hlast] at hpt
        cases hpt
      obtain rfl := decryptLast_error hlast
      exact Or.inr (Or.inr ⟨hr, hno, _, rfl, rfl, h.running, h.consumed⟩)
    | ok pt => exact Or.inr (Or.inl ⟨hr, ⟨pt, hlast⟩, _, rfl, rfl⟩)
  · rw [if_neg fun hnil => hr ((take_ne_nil henc).1 hnil)]
    have hlen := List.length_pos_of_ne_nil hr
    cases hnext : ({ d with position := j } : StreamDecryptor).decryptNext openWith aad (piece encChunk ciphertext j) with
    | error e =>
      obtain rfl := decryptNext_error hnext
      refine Or.inl ⟨_, rfl, ⟨rfl, rfl, rfl, rfl, h.running, h.consumed, h.before, h.more, h.fails⟩, ?_⟩
      rw [List.length_drop]
      omega
    | ok out => exact absurd ⟨out, hnext⟩ h.fails

/-- The reader has come to the end of the ciphertext, whose last piece has the index `j`. -/
def Through (openWith : OpenWith P) (d : StreamDecryptor) (aad : P.Raw) (encChunk : Nat) (ciphertext : Bytes) : Prop :=
  ∃ j, ciphertext.length ≤ (j + 1) * encChunk ∧ ∀ i < j, OpensNext openWith d aad encChunk ciphertext i

/-- What the refill of a reader does that has not failed yet. -/
theorem Reading.refill (henc : 0 < encChunk) (h : r.Reading openWith d aad encChunk ciphertext j) :
    (∃ r', r.refill openWith = (.ok true, r') ∧ r'.Reading openWith d aad encChunk ciphertext (j + 1) ∧
      r'.reader.length < r.reader.length) ∨
    (∃ r', r.refill openWith = (.ok true, r') ∧ r'.finished = true ∧ r'.reader.length ≤ r.reader.length ∧
      Through openWith d aad encChunk ciphertext) ∨
    (r.plain.length ≤ r.pos → ∃ r', r.refill openWith = (.error .auth, r') ∧
      r'.Stuck openWith d aad encChunk ciphertext j) ∨
    (r.plain.length ≤ r.pos → ∃ r', r.refill openWith = (.error .auth, r') ∧ r'.Spent ∧
      Through openWith d aad encChunk ciphertext) := by
  unfold StreamDecryptReader.refill
  rw [if_neg (by rw [h.running]; exact Bool.false_ne_true)]
  simp only [h.dec, h.framing, h.bound, h.current]
  by_cases hr : r.reader = []
  · rw [if_pos ((take_ne_nil henc).2 hr)]
    have hthrough : Through openWith d aad encChunk ciphertext := by
      refine ⟨j, ?_, h.before⟩
      have := congrArg List.length (h.reader ▸ hr)
      rw [List.length_drop, List.length_nil] at this
      omega
    cases hlast : ({ d with position := j } : StreamDecryptor).decryptLast openWith aad (piece encChunk ciphertext j) with
    | error e =>
      obtain rfl := decryptLast_error hlast
      exact Or.inr (Or.inr (Or.inr fun hcons => ⟨_, rfl, ⟨rfl, h.running, hcons⟩, hthrough⟩))
    | ok pt =>
      refine Or.inr (Or.inl ⟨_, rfl, rfl, ?_, hthrough⟩)
      rw [hr]
      simp
  · rw [if_neg fun hnil => hr ((take_ne_nil henc).1 hnil)]
    have hlen := List.length_pos_of_ne_nil hr
    have hmore : (j + 1) * encChunk < ciphertext.length := by
      rw [h.reader, List.length_drop] at hlen
      omega
    cases hnext : ({ d with position := j } : StreamDecryptor).decryptNext openWith aad (piece encChunk ciphertext j) with
    | error e =>
      obtain rfl := decryptNext_error hnext
      have hno : ¬ OpensNext openWith d aad encChunk ciphertext j := by
        rintro ⟨out, hout⟩
        rw [hnext] at hout
        cases hout
      exact Or.inr (Or.inr (Or.inl fun hcons =>
        ⟨_, rfl, rfl, rfl, rfl, rfl, h.running, hcons, h.before, hmore, hno⟩))
    | ok out =>
      refine Or.inl ⟨_, rfl, ⟨congrArg some (decryptNext_ok hnext), ?_, ?_, rfl, rfl, h.running, ?_⟩, ?_⟩
      · simp only [piece, h.reader]
      · simp only [h.reader, List.drop_drop]
        congr 1
        rw [Nat.add_mul (j + 1) 1, Nat.one_mul]
      · intro i hi
        rcases Nat.lt_succ_iff_lt_or_eq.1 hi with hi | rfl
        · exact h.before i hi
        · exact ⟨out, hnext⟩
      · rw [List.length_drop]
        omega

/-! ### One read -/

/-- Nothing in a buffer with room comes from the end. -/
private theorem readLoop_end {fuel : Nat} (hn : n ≠ 0) (h : r.readLoop openWith n fuel = (.ok [], r')) : r'.AtEnd := by
  induction fuel generalizing r with
  | zero => cases h
  | succ fuel ih =>
    unfold readLoop at h
    by_cases hpos : r.pos < r.plain.length
    · rw [if_pos hpos] at h
      have hlen := congrArg (fun x : Result Bytes × StreamDecryptReader P => x.1.toOption.map List.length) h
      simp only [Except.toOption, Option.map_some, List.length_take, List.length_drop, List.length_nil,
        Option.some.injEq] at hlen
      omega
    · rw [if_neg hpos] at h
      cases href : r.refill openWith with
      | mk res s =>
        rw [href] at h
        cases res with
        | error e => cases h
        | ok more =>
          cases more with
          | true => exact ih h
          | false =>
            cases h
            unfold StreamDecryptReader.refill at href
            by_cases hfin : r.finished = true
            · rw [if_pos hfin] at href
              cases href
              exact ⟨hfin, by omega⟩
            · rw [if_neg hfin] at href
              dsimp only at href
              split at href <;> split at href
              · cases href
              · split at href <;> cases href
              · cases href
              · split at href <;> cases href

theorem AtEnd.read (h : r.AtEnd) (openWith : OpenWith P) (n : Nat) : r.read openWith n = (.ok [], r) := by
  unfold StreamDecryptReader.read
  rw [readLoop, if_neg (by have := h.consumed; omega)]
  unfold StreamDecryptReader.refill
  rw [if_pos h.finished]

/-- A reader at the end of its stream gives what it has left. -/
theorem read_finished (h : r.finished = true) (openWith : OpenWith P) (n : Nat) :
    ∃ bytes r', r.read openWith n = (.ok bytes, r') ∧ r'.finished = true := by
  by_cases hpos : r.pos < r.plain.length
  · unfold StreamDecryptReader.read
    rw [readLoop, if_pos hpos]
    exact ⟨_, _, rfl, h⟩
  · have hend : r.AtEnd := ⟨h, by omega⟩
    exact ⟨[], r, hend.read openWith n, h⟩

theorem Spent.read (h : r.Spent) (openWith : OpenWith P) (n : Nat) : ∃ e r', r.read openWith n = (.error e, r') ∧ r'.Spent := by
  obtain ⟨e, r', href, hr'⟩ := h.refill openWith
  unfold StreamDecryptReader.read
  rw [readLoop, if_neg (by have := h.consumed; omega), href]
  exact ⟨e, r', rfl, hr'⟩

theorem Stuck.read (henc : 0 < encChunk) (h : r.Stuck openWith d aad encChunk ciphertext j) (n : Nat) :
    (∃ r', r.read openWith n = (.error .auth, r') ∧ r'.Stuck openWith d aad encChunk ciphertext j ∧
      r'.reader.length < r.reader.length) ∨
    (r.reader = [] ∧ OpensLast openWith d aad encChunk ciphertext j ∧ ∃ bytes r', r.read openWith n = (.ok bytes, r')) ∨
    (r.reader = [] ∧ ¬ OpensLast openWith d aad encChunk ciphertext j ∧
      ∃ r', r.read openWith n = (.error .auth, r') ∧ r'.Spent) := by
  unfold StreamDecryptReader.read
  rw [readLoop, if_neg (by have := h.consumed; omega)]
  rcases h.refill henc with ⟨r', href, hr', hlt⟩ | ⟨hnil, hopens, r', href, hfin⟩ | ⟨hnil, hopens, r', href, hr'⟩
  · rw [href]
    exact Or.inl ⟨r', rfl, hr', hlt⟩
  · rw [href]
    refine Or.inr (Or.inl ⟨hnil, hopens, ?_⟩)
    dsimp only
    rw [readLoop]
    by_cases hpos : r'.pos < r'.plain.length
    · rw [if_pos hpos]
      exact ⟨_, _, rfl⟩
    · rw [if_neg hpos]
      unfold StreamDecryptReader.refill
      rw [if_pos hfin]
      exact ⟨_, _, rfl⟩
  · rw [href]
    exact Or.inr (Or.inr ⟨hnil, hopens, r', rfl, hr'⟩)

/-- What one read does of a reader that has not failed yet. -/
private theorem readLoop_reading (henc : 0 < encChunk) {fuel : Nat} (h : r.Reading openWith d aad encChunk ciphertext j)
    (hf : r.reader.length + 3 ≤ fuel) :
    (∃ bytes r', r.readLoop openWith n fuel = (.ok bytes, r') ∧
      ((∃ k, r'.Reading openWith d aad encChunk ciphertext k) ∨
        r'.finished = true ∧ Through openWith d aad encChunk ciphertext)) ∨
    (∃ r', r.readLoop openWith n fuel = (.error .auth, r') ∧
      ((∃ k, r'.Stuck openWith d aad encChunk ciphertext k) ∨
        r'.Spent ∧ Through openWith d aad encChunk ciphertext)) := by
  induction fuel generalizing r j with
  | zero => omega
  | succ fuel ih =>
    rw [readLoop]
    by_cases hpos : r.pos < r.plain.length
    · rw [if_pos hpos]
      exact Or.inl ⟨_, _, rfl, Or.inl ⟨j, h.dec, h.current, h.reader, h.bound, h.framing, h.running, h.before⟩⟩
    · rw [if_neg hpos]
      rcases h.refill henc with ⟨r', href, hr', hlt⟩ | ⟨r', href, hfin, hle, hthrough⟩ | hfail | hfail
      · rw [href]
        exact ih hr' (by omega)
      · rw [href]
        obtain ⟨fuel, rfl⟩ : ∃ k, fuel = k + 1 := ⟨fuel - 1, by omega⟩
        dsimp only
        rw [readLoop]
        by_cases hpos' : r'.pos < r'.plain.length
        · rw [if_pos hpos']
          exact Or.inl ⟨_, _, rfl, Or.inr ⟨hfin, hthrough⟩⟩
        · rw [if_neg hpos']
          unfold StreamDecryptReader.refill
          rw [if_pos hfin]
          exact Or.inl ⟨_, _, rfl, Or.inr ⟨hfin, hthrough⟩⟩
      · obtain ⟨r', href, hstuck⟩ := hfail (by omega)
        rw [href]
        exact Or.inr ⟨r', rfl, Or.inl ⟨j, hstuck⟩⟩
      · obtain ⟨r', href, hspent, hthrough⟩ := hfail (by omega)
        rw [href]
        exact Or.inr ⟨r', rfl, Or.inr ⟨hspent, hthrough⟩⟩

/-! ### Many reads -/

theorem reads_cons (n : Nat) (sizes : List Nat) (r : StreamDecryptReader P) :
    r.reads openWith (n :: sizes) = (n, (r.read openWith n).1) :: (r.read openWith n).2.reads openWith sizes := rfl

/-- Outcomes that every read from a set of readers has, which it does not leave, are those of all reads. -/
private theorem reads_absorbing {inside : StreamDecryptReader P → Prop} (outcome : Result Bytes → Prop)
    (hread : ∀ r n, inside r → outcome (r.read openWith n).1 ∧ inside (r.read openWith n).2) (h : inside r)
    (sizes : List Nat) : ∀ x ∈ r.reads openWith sizes, outcome x.2 := by
  induction sizes generalizing r with
  | nil => exact fun x hx => absurd hx List.not_mem_nil
  | cons n sizes ih =>
    intro x hx
    rw [reads_cons] at hx
    rcases List.mem_cons.1 hx with rfl | hx
    · exact (hread r n h).1
    · exact ih (hread r n h).2 x hx

theorem Dead.reads (henc : 0 < encChunk) (h : r.Dead openWith d aad encChunk ciphertext) (sizes : List Nat) :
    ∀ x ∈ r.reads openWith sizes, ∃ e, x.2 = .error e := by
  refine reads_absorbing (fun out => ∃ e, out = .error e) (fun r n h => ?_) h sizes
  rcases h with h | ⟨j, h, hno⟩
  · obtain ⟨e, r', hread, hr'⟩ := h.read openWith n
    rw [hread]
    exact ⟨⟨e, rfl⟩, Or.inl hr'⟩
  · rcases h.read henc n with ⟨r', hread, hr', -⟩ | ⟨-, hyes, -⟩ | ⟨-, -, r', hread, hr'⟩
    · rw [hread]
      exact ⟨⟨_, rfl⟩, Or.inr ⟨j, hr', hno⟩⟩
    · exact absurd hyes hno
    · rw [hread]
      exact ⟨⟨_, rfl⟩, Or.inl hr'⟩

theorem AtEnd.reads (h : r.AtEnd) (openWith : OpenWith P) (sizes : List Nat) :
    ∀ x ∈ r.reads openWith sizes, x.2 = .ok [] := by
  refine reads_absorbing (fun out => out = .ok []) (fun r n h => ?_) h sizes
  rw [h.read openWith n]
  exact ⟨rfl, h⟩

/-- The reader has not failed yet. -/
def Live (openWith : OpenWith P) (d : StreamDecryptor) (aad : P.Raw) (encChunk : Nat) (ciphertext : Bytes)
    (r : StreamDecryptReader P) : Prop :=
  (∃ j, r.Reading openWith d aad encChunk ciphertext j) ∨ r.finished = true

/-- A reader of a ciphertext without a hidden stream goes on or is dead. -/
private theorem Live.read (henc : 0 < encChunk) (hhides : ¬ HidesStream openWith d aad encChunk ciphertext)
    (h : r.Live openWith d aad encChunk ciphertext) (n : Nat) :
    (∃ bytes r', r.read openWith n = (.ok bytes, r') ∧ r'.Live openWith d aad encChunk ciphertext) ∨
    (∃ r', r.read openWith n = (.error .auth, r') ∧ r'.Dead openWith d aad encChunk ciphertext) := by
  rcases h with ⟨j, h⟩ | h
  · rcases readLoop_reading henc h (n := n) le_rfl with ⟨bytes, r', hread, hr'⟩ | ⟨r', hread, hr'⟩
    · refine Or.inl ⟨bytes, r', hread, ?_⟩
      rcases hr' with hr' | ⟨hfin, -⟩
      · exact Or.inl hr'
      · exact Or.inr hfin
    · refine Or.inr ⟨r', hread, ?_⟩
      rcases hr' with ⟨k, hk⟩ | ⟨hspent, -⟩
      · exact Or.inr ⟨k, hk, fun hlast => hhides ⟨k, hk.more, hk.before, hk.fails, hlast⟩⟩
      · exact Or.inl hspent
  · obtain ⟨bytes, r', hread, hfin⟩ := read_finished h openWith n
    exact Or.inl ⟨bytes, r', hread, Or.inr hfin⟩

private theorem Live.final (henc : 0 < encChunk) (hhides : ¬ HidesStream openWith d aad encChunk ciphertext)
    (h : r.Live openWith d aad encChunk ciphertext) (sizes : List Nat) : Final (r.reads openWith sizes) := by
  induction sizes generalizing r with
  | nil => exact ⟨List.Pairwise.nil, List.Pairwise.nil⟩
  | cons n sizes ih =>
    rw [reads_cons]
    rcases h.read henc hhides n with ⟨bytes, r', hread, hr'⟩ | ⟨r', hread, hr'⟩
    · rw [hread]
      obtain ⟨herror, hfinish⟩ := ih hr'
      refine ⟨List.pairwise_cons.2 ⟨fun x _ herr => (by cases herr), herror⟩,
        List.pairwise_cons.2 ⟨fun x hx hend => ?_, hfinish⟩⟩
      have hnil : bytes = [] := Except.ok.inj hend.1
      subst hnil
      exact (readLoop_end hend.2 hread).reads openWith sizes x hx
    · rw [hread]
      have hall := hr'.reads henc sizes
      refine ⟨List.pairwise_cons.2 ⟨fun x hx _ bytes hok => ?_, ?_⟩,
        List.pairwise_cons.2 ⟨fun x _ hend => (by cases hend.1), ?_⟩⟩
      · obtain ⟨e, he⟩ := hall x hx
        rw [he] at hok
        cases hok
      · refine List.Pairwise.imp_of_mem (fun {a b} _ hb _ _ bytes hok => ?_) (List.pairwise_of_forall fun _ _ => trivial)
        obtain ⟨e, he⟩ := hall b hb
        rw [he] at hok
        cases hok
      · refine List.Pairwise.imp_of_mem (fun {a b} ha _ _ hend => ?_) (List.pairwise_of_forall fun _ _ => trivial)
        obtain ⟨e, he⟩ := hall a ha
        rw [hend.1] at he
        cases he

/-- Where a read says that the stream has ended, the reads have given all there was and it decrypts. -/
private theorem Live.complete (henc : 0 < encChunk) (hhides : ¬ HidesStream openWith d aad encChunk ciphertext)
    (h : r.Live openWith d aad encChunk ciphertext) (hrun : r.Running) (sizes : List Nat)
    (hend : ∃ x ∈ r.reads openWith sizes, SaysEnd x) :
    r.left openWith = (dataOf (r.reads openWith sizes), .ok ()) := by
  induction sizes generalizing r with
  | nil =>
    obtain ⟨x, hx, -⟩ := hend
    exact absurd hx List.not_mem_nil
  | cons n sizes ih =>
    obtain ⟨x, hx, hend'⟩ := hend
    rw [reads_cons] at hx ⊢
    rcases h.read henc hhides n with ⟨bytes, r', hread, hr'⟩ | ⟨r', hread, hr'⟩
    · rcases read_cases openWith n hrun with ⟨bytes', s, hread', hrun', hleft, hlast⟩ | ⟨e, s, hread', -⟩
      · rw [hread, Prod.mk.injEq, Except.ok.injEq] at hread'
        obtain ⟨rfl, rfl⟩ := hread'
        rw [hread] at hx ⊢
        have hdata : dataOf ((n, .ok bytes) :: r'.reads openWith sizes) = bytes ++ dataOf (r'.reads openWith sizes) := rfl
        rw [hdata]
        rcases List.mem_cons.1 hx with rfl | hx
        · have hnil : bytes = [] := Except.ok.inj hend'.1
          subst hnil
          have hrest : dataOf (r'.reads openWith sizes) = [] := by
            refine List.flatMap_eq_nil_iff.2 fun x hx => ?_
            rw [(readLoop_end hend'.2 hread).reads openWith sizes x hx]
            rfl
          rw [hlast rfl hend'.2, hrest]
          rfl
        · rw [hleft, ih hr' hrun' ⟨x, hx, hend'⟩]
      · rw [hread] at hread'
        cases hread'
    · rw [hread] at hx
      rcases List.mem_cons.1 hx with rfl | hx
      · cases hend'.1
      · obtain ⟨e, he⟩ := hr'.reads henc sizes x hx
        rw [hend'.1] at he
        cases he

/-! ### The hidden stream -/

/-- A stuck reader whose piece decrypts as the last one succeeds in the end. -/
private theorem Stuck.succeeds (henc : 0 < encChunk) (hlast : OpensLast openWith d aad encChunk ciphertext j)
    (h : r.Stuck openWith d aad encChunk ciphertext j) :
    ∃ sizes bytes, (1, .ok bytes) ∈ r.reads openWith sizes := by
  obtain ⟨k, hk⟩ : ∃ k, r.reader.length = k := ⟨_, rfl⟩
  induction k using Nat.strong_induction_on generalizing r with
  | _ k ih =>
    rcases h.read henc 1 with ⟨r', hread, hr', hlt⟩ | ⟨-, -, bytes, r', hread⟩ | ⟨-, hno, -⟩
    · obtain ⟨sizes, bytes, hmem⟩ := ih _ (hk ▸ hlt) hr' rfl
      refine ⟨1 :: sizes, bytes, ?_⟩
      rw [reads_cons, hread]
      exact List.mem_cons_of_mem _ hmem
    · refine ⟨[1], bytes, ?_⟩
      rw [reads_cons, hread]
      exact List.mem_cons_self
    · exact absurd hlast hno

/-- A reader that comes to a hidden stream does not stop there for good. -/
private theorem Reading.not_final (henc : 0 < encChunk) (hhides : HidesStream openWith d aad encChunk ciphertext)
    (h : r.Reading openWith d aad encChunk ciphertext j) {sizes : List Nat} (hall : (r.readAll openWith sizes).2 ≠ none) :
    ∃ sizes, ¬ Final (r.reads openWith sizes) := by
  obtain ⟨k, hmore, hbefore, hfails, hlast⟩ := hhides
  have hthrough : ¬ Through openWith d aad encChunk ciphertext := by
    rintro ⟨i, hi, hopens⟩
    rcases Nat.lt_or_ge k i with hki | hki
    · exact hfails (hopens k hki)
    · have := Nat.mul_le_mul_right encChunk (Nat.succ_le_succ hki)
      simp only [Nat.succ_eq_add_one] at this
      omega
  induction sizes generalizing r j with
  | nil => exact absurd rfl hall
  | cons n sizes ih =>
    rcases readLoop_reading henc h (n := n) le_rfl with ⟨bytes, r', hread, hr'⟩ | ⟨r', hread, hr'⟩
    · obtain ⟨i, hr'⟩ : ∃ i, r'.Reading openWith d aad encChunk ciphertext i := by
        rcases hr' with hr' | ⟨-, hyes⟩
        · exact hr'
        · exact absurd hyes hthrough
      have hread' : r.read openWith n = (.ok bytes, r') := hread
      unfold readAll at hall
      rw [hread'] at hall
      dsimp only at hall
      by_cases hend : bytes = [] ∧ n ≠ 0
      · rw [hend.1] at hread
        have := (readLoop_end hend.2 hread).finished
        rw [hr'.running] at this
        cases this
      · rw [if_neg hend] at hall
        obtain ⟨sizes', hsizes'⟩ := ih hr' hall
        refine ⟨n :: sizes', fun hfinal => hsizes' ?_⟩
        rw [reads_cons, hread'] at hfinal
        exact ⟨(List.pairwise_cons.1 hfinal.error).2, (List.pairwise_cons.1 hfinal.finish).2⟩
    · rcases hr' with ⟨i, hi⟩ | ⟨-, hyes⟩
      · -- the piece it is stuck on is the one that ends the hidden stream
        have hik : i = k := by
          rcases Nat.lt_trichotomy i k with hlt | heq | hlt
          · exact absurd (hbefore i hlt) hi.fails
          · exact heq
          · exact absurd (hi.before k hlt) hfails
        subst hik
        obtain ⟨sizes', bytes, hmem⟩ := hi.succeeds henc hlast
        refine ⟨n :: sizes', fun hfinal => ?_⟩
        have hread' : r.read openWith n = (.error .auth, r') := hread
        rw [reads_cons, hread'] at hfinal
        have := (List.pairwise_cons.1 hfinal.error).1 _ hmem rfl bytes rfl
        exact absurd this.2 Nat.one_ne_zero
      · exact absurd hyes hthrough

end StreamDecryptReader

/-- However a reader is read, errors and the end of the stream are final, and the end is shown only of a ciphertext that
decrypts, exactly if the ciphertext is not a complete stream that is followed by more. -/
theorem retry_final_iff (openWith : OpenWith P) {alg : AeadAlg} {key streamNonce ciphertext : Bytes} {aad : P.Raw}
    {chunkSize : Nat} {r : StreamDecryptReader P}
    (h : StreamDecryptReader.newWith alg key streamNonce aad ciphertext chunkSize = .ok r) :
    (∀ sizes, Final (r.reads openWith sizes) ∧
      ((∃ x ∈ r.reads openWith sizes, SaysEnd x) →
        decryptStreamWith openWith alg key streamNonce aad ciphertext chunkSize =
          (dataOf (r.reads openWith sizes), .ok (dataOf (r.reads openWith sizes)).length))) ↔
    ¬ HidesStream openWith ⟨alg, key, streamNonce, 0⟩ aad (chunkSize + tagLen) ciphertext := by
  have henc : 0 < chunkSize + tagLen := Nat.add_pos_right _ (by decide)
  obtain ⟨hrun, hbytes, hend⟩ := StreamDecryptReader.newWith_left openWith h
  have hstart : r.Reading openWith ⟨alg, key, streamNonce, 0⟩ aad (chunkSize + tagLen) ciphertext 0 := by
    unfold StreamDecryptReader.newWith at h
    split at h
    · cases h
    · split at h
      · cases h
      · cases h
        refine ⟨rfl, ?_, ?_, rfl, rfl, rfl, fun i hi => absurd hi (Nat.not_lt_zero i)⟩
        · simp [piece]
        · simp
  constructor
  · intro hall hhides
    let sizes := List.replicate ((r.left openWith).1.length + 1) 1
    have hends : (r.readAll openWith sizes).2 ≠ none := by
      refine (StreamDecryptReader.readAll_spec openWith hrun sizes).2.2 (fun n hn => ?_) ?_
      · rw [List.eq_of_mem_replicate hn]
        exact Nat.one_pos
      · rw [List.length_replicate]
        exact Nat.lt_succ_self _
    obtain ⟨sizes, hsizes⟩ := hstart.not_final henc hhides hends
    exact hsizes (hall sizes).1
  · intro hhides sizes
    have hlive : r.Live openWith ⟨alg, key, streamNonce, 0⟩ aad (chunkSize + tagLen) ciphertext := Or.inl ⟨0, hstart⟩
    refine ⟨hlive.final henc hhides sizes, fun hend' => ?_⟩
    have hleft := hlive.complete henc hhides hrun sizes hend'
    rw [hleft] at hbytes hend
    exact Prod.ext hbytes.symm hend.symm

namespace Sym

/-- A stream whose last chunk is full. -/
def fullStream : StreamCall Sym := ⟨.xchacha20Poly1305, [1], List.replicate 19 0, .nat 0, [1, 2], 2⟩

/-- The ciphertext of `fullStream` with one byte more. -/
def extendedOut : Bytes := fullStream.chunks.flatMap (·.cipher) ++ [0]

/-- A reader of the extended ciphertext. -/
def extendedReader : StreamDecryptReader Sym where
  dec := some ⟨.xchacha20Poly1305, [1], List.replicate 19 0, 0⟩
  reader := [0]
  aad := .nat 0
  encChunk := 2 + tagLen
  current := fullStream.chunks.flatMap (·.cipher)
  plain := []
  pos := 0
  finished := false

end Sym

theorem retry_final_iff_stream :
    ∃ r, StreamDecryptReader.newWith (P := Sym) .xchacha20Poly1305 [1] (List.replicate 19 0) (.nat 0) Sym.streamOut 2 =
        .ok r ∧
      ((∀ sizes, Final (r.reads (idealOpen [Sym.stream]) sizes) ∧
        ((∃ x ∈ r.reads (idealOpen [Sym.stream]) sizes, SaysEnd x) →
          decryptStreamWith (idealOpen [Sym.stream]) .xchacha20Poly1305 [1] (List.replicate 19 0) (.nat 0) Sym.streamOut 2 =
            (dataOf (r.reads (idealOpen [Sym.stream]) sizes),
              .ok (dataOf (r.reads (idealOpen [Sym.stream]) sizes)).length))) ↔
      ¬ HidesStream (idealOpen [Sym.stream]) ⟨.xchacha20Poly1305, [1], List.replicate 19 0, 0⟩ (.nat 0) (2 + tagLen)
        Sym.streamOut) :=
  ⟨_, rfl, retry_final_iff (idealOpen [Sym.stream]) rfl⟩

/-- Reading on after the authentication error gives the plaintext of the stream that was extended, and then its end. -/
theorem retry_final_fails :
    StreamDecryptReader.newWith (P := Sym) .xchacha20Poly1305 [1] (List.replicate 19 0) (.nat 0) Sym.extendedOut 2 =
        .ok Sym.extendedReader ∧
      (decryptStreamWith (idealOpen [Sym.fullStream]) .xchacha20Poly1305 [1] (List.replicate 19 0) (.nat 0)
        Sym.extendedOut 2).2 = .error .auth ∧
      Sym.extendedReader.reads (idealOpen [Sym.fullStream]) [8, 8, 8] =
        [(8, .error .auth), (8, .ok [1, 2]), (8, .ok [])] ∧
      ¬ Final (Sym.extendedReader.reads (idealOpen [Sym.fullStream]) [8, 8, 8]) := by
  have hreads : Sym.extendedReader.reads (idealOpen [Sym.fullStream]) [8, 8, 8] =
      [(8, .error .auth), (8, .ok [1, 2]), (8, .ok [])] := by decide
  refine ⟨rfl, by decide, hreads, fun hfinal => ?_⟩
  rw [hreads] at hfinal
  have := (List.pairwise_cons.1 hfinal.error).1 (8, .ok [1, 2]) List.mem_cons_self rfl [1, 2] rfl
  exact absurd this.2 (by decide)

end FileSec
