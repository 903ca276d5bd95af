import FileSec.Lib.Blocks
import FileSec.Peer.Record

/-!
# Transferring a container

The sender writes a container into a `RecordWriter`, which buffers it and sends it in records (`sender.rs`); the receiver
counts what arrives against the size that was offered (`listener.rs`).  The records depend on the container alone, not on
how it was written (`transmit_spec`), and the receiver succeeds exactly on records whose data have the size that was
offered (`receiveInto_eq_ok`); `transfer_exact` puts both together.
-/

namespace FileSec.Peer

open Blocks

variable (sealWith openWith : Bytes → Bytes → Bytes → Bytes → Result Bytes)

/-! ### The sender -/

/-- `CHUNK` -/
def chunkLen : Nat := 64 * 1024

/-- What happens around the sender when it is about to send its `k`-th frame: a request to cancel may be waiting, and
writing to the socket may fail. -/
structure Line where
  cancel : Nat → Bool
  fault : Nat → Option Str

/-- `RecordWriter`, with the frames that it has written to its stream. -/
structure RecordWriter where
  session : Session
  wire : List Bytes
  buf : Bytes
  cancelled : Bool

/-- `RecordWriter::new` -/
def RecordWriter.new (session : Session) : RecordWriter := ⟨session, [], [], false⟩

variable (line : Line)

/-- A record is sealed and its frame written. -/
def RecordWriter.sendRecord (w : RecordWriter) (t : RecordType) (plaintext : Bytes) : Except Str Unit × RecordWriter :=
  match w.session.sealRecord sealWith t plaintext with
  | (.error e, session) => (.error e.display, { w with session })
  | (.ok frame, session) =>
    match line.fault w.wire.length with
    | some e => (.error e, { w with session })
    | none => (.ok (), { w with session, wire := w.wire ++ [frame] })

/-- `RecordWriter::send_data` -/
def RecordWriter.sendData (w : RecordWriter) (chunk : Bytes) : Except Str Unit × RecordWriter :=
  if line.cancel w.wire.length then (.error "transfer cancelled".toList, { w with cancelled := true })
  else w.sendRecord sealWith line .data chunk

/-- The loop of `RecordWriter::write`; the first argument bounds the number of rounds. -/
def RecordWriter.writeLoop : Nat → Bytes → RecordWriter → Except Str Unit × RecordWriter
  | 0, _, w => (.ok (), w)
  | fuel + 1, remaining, w =>
    if remaining = [] then (.ok (), w)
    else if w.buf = [] ∧ remaining.length ≥ chunkLen then
      match w.sendData sealWith line (remaining.take chunkLen) with
      | (.error e, w) => (.error e, w)
      | (.ok (), w) => writeLoop fuel (remaining.drop chunkLen) w
    else
      let n := min remaining.length (chunkLen - w.buf.length)
      let buf := w.buf ++ remaining.take n
      if buf.length = chunkLen then
        match RecordWriter.sendData sealWith line { w with buf := [] } buf with
        | (.error e, w) => (.error e, w)
        | (.ok (), w) => writeLoop fuel (remaining.drop n) w
      else writeLoop fuel (remaining.drop n) { w with buf }

/-- `RecordWriter::write` -/
def RecordWriter.write (w : RecordWriter) (data : Bytes) : Except Str Unit × RecordWriter :=
  w.writeLoop sealWith line data.length data

/-- Writes one after the other, up to the first that fails. -/
def RecordWriter.writeAll : List Bytes → RecordWriter → Except Str Unit × RecordWriter
  | [], w => (.ok (), w)
  | data :: writes, w =>
    match w.write sealWith line data with
    | (.error e, w) => (.error e, w)
    | (.ok (), w) => writeAll writes w

/-- The beginning of `RecordWriter::finish`: a tail in the buffer is sent. -/
def RecordWriter.sendTail (w : RecordWriter) : Except Str Unit × RecordWriter :=
  if w.buf = [] then (.ok (), w) else RecordWriter.sendData sealWith line { w with buf := [] } w.buf

/-- `RecordWriter::finish` -/
def RecordWriter.finish (w : RecordWriter) : Except Str Unit × RecordWriter :=
  match w.sendTail sealWith line with
  | (.error e, w) => (.error e, w)
  | (.ok (), w) => w.sendRecord sealWith line .done []

/-- The end of `send`: the container is written, piece by piece, and the writer finished. -/
def transmit (session : Session) (writes : List Bytes) : Except Str Unit × RecordWriter :=
  match (RecordWriter.new session).writeAll sealWith line writes with
  | (res, w) =>
    if w.cancelled then (.error "Transfer cancelled.".toList, w)
    else
      match res with
      | .error e => (.error e, w)
      | .ok () => w.finish sealWith line

/-! ### The receiver -/

/-- What the receiver finds when it turns to the connection: a request to cancel, a failure, or a frame. -/
inductive Arrival where
  | cancelled
  | failed (e : Str)
  | frame (bytes : Bytes)

/-- The loop of `receive_into`: what is in the file in the end.  After the last arrival the connection is closed. -/
def receiveLoop (size : Nat) : List Arrival → Session → Nat → Bytes → Except Str Bytes
  | [], _, _, _ => .error "connection closed mid-frame".toList
  | .cancelled :: _, _, _, _ => .error "Transfer cancelled.".toList
  | .failed e :: _, _, _, _ => .error e
  | .frame bytes :: rest, session, received, file =>
    match session.openRecord openWith bytes with
    | (.error e, _) => .error e.display
    | (.ok (.data, plaintext), session) =>
      if plaintext = [] then .error "protocol error: empty data record".toList
      else
        let received := min (received + plaintext.length) u64Max
        if received > size then .error "the sender exceeded the declared size".toList
        else receiveLoop size rest session received (file ++ plaintext)
    | (.ok (.done, []), _) =>
      if received ≠ size then .error "the transfer ended early (size mismatch)".toList else .ok file
    | (.ok _, _) => .error "protocol error during the transfer".toList

/-- `receive_into` -/
def receiveInto (size : Nat) (arrivals : List Arrival) (session : Session) : Except Str Bytes :=
  receiveLoop openWith size arrivals session 0 []

/-- `MAX_TRANSFER_SIZE` -/
def maxTransferSize : Nat := 64 * 1024 * 1024 * 1024

/-- `transfer_size_acceptable` -/
def transferSizeAcceptable (size : Nat) : Bool := size ≤ maxTransferSize

/-- The receiver's way from an offer to the end of the transfer: the size is judged before anything is received. -/
def receiveOffered (size : Nat) (arrivals : List Arrival) (session : Session) : Except Str Bytes :=
  if transferSizeAcceptable size = false then .error "the offered transfer is too large to accept".toList
  else receiveInto openWith size arrivals session

/-! ### Records on their way -/

/-- Sealing these records one after the other gives these frames. -/
inductive Seals : Session → List (RecordType × Bytes) → List Bytes → Session → Prop
  | nil (s : Session) : Seals s [] [] s
  | cons {s s' s'' : Session} {t : RecordType} {plaintext frame : Bytes} {records : List (RecordType × Bytes)}
      {frames : List Bytes} (h : s.sealRecord sealWith t plaintext = (.ok frame, s')) (hrest : Seals s' records frames s'') :
      Seals s ((t, plaintext) :: records) (frame :: frames) s''

/-- Opening these frames one after the other gives these records. -/
inductive Opens : Session → List Bytes → List (RecordType × Bytes) → Session → Prop
  | nil (s : Session) : Opens s [] [] s
  | cons {s s' s'' : Session} {t : RecordType} {plaintext frame : Bytes} {records : List (RecordType × Bytes)}
      {frames : List Bytes} (h : s.openRecord openWith frame = (.ok (t, plaintext), s')) (hrest : Opens s' frames records s'') :
      Opens s (frame :: frames) ((t, plaintext) :: records) s''

/-- The receiver's session is where the sender's is. -/
structure Paired (s r : Session) : Prop where
  key : r.recvKey = s.sendKey
  dir : r.recvDir = s.sendDir
  ctr : r.recvCtr = s.sendCtr
  th0 : r.th0 = s.th0

/-- The data in records, and the end. -/
def containerRecords (chunks : List Bytes) : List (RecordType × Bytes) := chunks.map (RecordType.data, ·) ++ [(.done, [])]

variable {sealWith openWith line} {s s' r : Session}

theorem paired_established (kI2r kR2i th0 : Bytes) :
    Paired (.forInitiator kI2r kR2i th0) (.forResponder kI2r kR2i th0) := ⟨rfl, rfl, rfl, rfl⟩

theorem Seals.concat {records : List (RecordType × Bytes)} {frames : List Bytes} {t : RecordType} {plaintext frame : Bytes}
    {s'' : Session} (h : Seals sealWith s records frames s') (hs : s'.sealRecord sealWith t plaintext = (.ok frame, s'')) :
    Seals sealWith s (records ++ [(t, plaintext)]) (frames ++ [frame]) s'' := by
  induction h with
  | nil s => exact .cons hs (.nil _)
  | cons h _ ih => exact .cons h (ih hs)

/-- What is sealed at one end opens at the other. -/
theorem Seals.opens (hopen : ∀ key nonce aad plaintext ciphertext, sealWith key nonce aad plaintext = .ok ciphertext →
      openWith key nonce aad ciphertext = .ok plaintext)
    {records : List (RecordType × Bytes)} {frames : List Bytes} (h : Seals sealWith s records frames s') (hp : Paired s r) :
    ∃ r', Opens openWith r frames records r' := by
  induction h generalizing r with
  | nil s => exact ⟨r, .nil r⟩
  | @cons s s' s'' t plaintext frame records frames hs _ ih =>
    obtain ⟨hkey, hdir, hctr, hth0⟩ := hp
    unfold Session.sealRecord at hs
    dsimp only at hs
    split at hs
    · cases hs
    · rename_i ciphertext hct
      unfold nextCtr at hs
      by_cases hmax : s.sendCtr = u64Max
      · rw [if_pos hmax] at hs
        cases hs
      · rw [if_neg hmax] at hs
        simp only [Prod.mk.injEq, Except.ok.injEq] at hs
        obtain ⟨rfl, rfl⟩ := hs
        have hthis : r.openRecord openWith (t.toByte :: ciphertext) =
            (.ok (t, plaintext), { r with recvCtr := r.recvCtr + 1 }) := by
          unfold Session.openRecord nextCtr
          rw [← hkey, ← hdir, ← hctr, ← hth0] at hct
          rw [← hctr] at hmax
          simp only [fromByte_toByte, hopen _ _ _ _ _ hct, if_neg hmax]
        obtain ⟨r', hr'⟩ := ih (r := { r with recvCtr := r.recvCtr + 1 }) ⟨hkey, hdir, by rw [← hctr], hth0⟩
        exact ⟨r', .cons hthis hr'⟩

/-- Each record that is sealed is counted. -/
theorem Seals.sendCtr_eq {records : List (RecordType × Bytes)} {frames : List Bytes}
    (h : Seals sealWith s records frames s') : s'.sendCtr = s.sendCtr + records.length := by
  induction h with
  | nil s => rfl
  | cons hs _ ih =>
    obtain ⟨-, -, rfl⟩ := sealRecord_eq_ok hs
    rw [ih, List.length_cons, Nat.add_assoc, Nat.add_comm 1]

/-! ### What is sent -/

/-- Why a transfer of at most `n` data records, from the session `s` on, can fail at the sender: a request to cancel, the
socket, or a record of the allowed length that cannot be sealed. -/
def Trouble (sealWith : Bytes → Bytes → Bytes → Bytes → Result Bytes) (line : Line) (s : Session) (n : Nat) : Prop :=
  (∃ k, line.cancel k = true) ∨ (∃ k, line.fault k ≠ none) ∨ ∃ (session : Session) (t : RecordType) (plaintext : Bytes),
    session.sendCtr ≤ s.sendCtr + n ∧ plaintext.length ≤ chunkLen ∧ ∀ frame session',
      session.sealRecord sealWith t plaintext ≠ (.ok frame, session')

/-- The writer has sent the full blocks of the data, and has the rest in its buffer. -/
structure RecordWriter.Carries (sealWith : Bytes → Bytes → Bytes → Bytes → Result Bytes) (s : Session) (data : Bytes)
    (w : RecordWriter) : Prop where
  sent : ∃ blocks, Cut chunkLen data blocks w.buf ∧
    Seals sealWith s (blocks.map (RecordType.data, ·)) w.wire w.session
  live : w.cancelled = false

theorem RecordWriter.carries_new (s : Session) : (RecordWriter.new s).Carries sealWith s [] :=
  ⟨⟨[], .empty (by decide), .nil s⟩, rfl⟩

variable {w : RecordWriter} {data remaining : Bytes} {n : Nat}

/-- A record is sent, or there is trouble. -/
private theorem sendRecord_cases (t : RecordType) {plaintext : Bytes} (hctr : w.session.sendCtr ≤ s.sendCtr + n)
    (hlen : plaintext.length ≤ chunkLen) :
    (∃ frame session, w.session.sealRecord sealWith t plaintext = (.ok frame, session) ∧
      w.sendRecord sealWith line t plaintext = (.ok (), { w with session, wire := w.wire ++ [frame] })) ∨
    (Trouble sealWith line s n ∧ ∃ e w', w.sendRecord sealWith line t plaintext = (.error e, w')) := by
  unfold RecordWriter.sendRecord
  cases hs : w.session.sealRecord sealWith t plaintext with
  | mk res session =>
    cases res with
    | error e => exact Or.inr ⟨Or.inr (Or.inr ⟨w.session, t, plaintext, hctr, hlen, fun _ _ => by simp [hs]⟩), _, _, rfl⟩
    | ok frame =>
      cases hf : line.fault w.wire.length with
      | some e => exact Or.inr ⟨Or.inr (Or.inl ⟨w.wire.length, by simp [hf]⟩), _, _, rfl⟩
      | none => exact Or.inl ⟨frame, session, rfl, rfl⟩

variable (line) in
private theorem sendData_cases (w : RecordWriter) {chunk : Bytes} (hctr : w.session.sendCtr ≤ s.sendCtr + n) (hlen : chunk.length ≤ chunkLen) :
    (∃ frame session, w.session.sealRecord sealWith .data chunk = (.ok frame, session) ∧
      w.sendData sealWith line chunk = (.ok (), { w with session, wire := w.wire ++ [frame] })) ∨
    (Trouble sealWith line s n ∧ ∃ e w', w.sendData sealWith line chunk = (.error e, w')) := by
  unfold RecordWriter.sendData
  by_cases hc : line.cancel w.wire.length = true
  · rw [if_pos hc]
    exact Or.inr ⟨Or.inl ⟨_, hc⟩, _, _, rfl⟩
  · rw [if_neg hc]
    exact sendRecord_cases .data hctr hlen

variable (line) in
/-- A full buffer, with its last piece, is sent. -/
private theorem RecordWriter.Carries.send (h : w.Carries sealWith s data) {piece : Bytes} (hfull : (w.buf ++ piece).length = chunkLen)
    (hn : data.length ≤ n) :
    (∃ w', RecordWriter.sendData sealWith line { w with buf := [] } (w.buf ++ piece) = (.ok (), w') ∧
      w'.Carries sealWith s (data ++ piece)) ∨
    (Trouble sealWith line s n ∧
      ∃ e w', RecordWriter.sendData sealWith line { w with buf := [] } (w.buf ++ piece) = (.error e, w')) := by
  obtain ⟨⟨blocks, hcut, hseals⟩, hlive⟩ := h
  have hctr := hseals.sendCtr_eq
  have hblocks := hcut.length_le
  rw [List.length_map] at hctr
  have hroom : ({ w with buf := [] } : RecordWriter).session.sendCtr ≤ s.sendCtr + n := by
    rw [hctr]
    omega
  refine (sendData_cases line { w with buf := [] } hroom hfull.le).imp ?_ id
  rintro ⟨frame, session, hs, heq⟩
  refine ⟨_, heq, ⟨⟨blocks ++ [w.buf ++ piece], hcut.fill hfull, ?_⟩, hlive⟩⟩
  rw [List.map_append, List.map_singleton]
  exact hseals.concat hs

variable (line) in
/-- A write goes on where the writer is. -/
private theorem writeLoop_cases {fuel : Nat} (h : w.Carries sealWith s data) (hfuel : remaining.length ≤ fuel)
    (hn : (data ++ remaining).length ≤ n) :
    (∃ w', w.writeLoop sealWith line fuel remaining = (.ok (), w') ∧ w'.Carries sealWith s (data ++ remaining)) ∨
    (Trouble sealWith line s n ∧ ∃ e w', w.writeLoop sealWith line fuel remaining = (.error e, w')) := by
  have hchunk : 0 < chunkLen := by decide
  induction fuel generalizing w data remaining with
  | zero =>
    obtain rfl := List.eq_nil_of_length_eq_zero (Nat.le_zero.1 hfuel)
    exact Or.inl ⟨w, rfl, by rwa [List.append_nil]⟩
  | succ fuel ih =>
    unfold RecordWriter.writeLoop
    by_cases hnil : remaining = []
    · subst hnil
      exact Or.inl ⟨w, by rw [if_pos rfl], by rwa [List.append_nil]⟩
    · rw [if_neg hnil]
      have hpos := List.length_pos_of_ne_nil hnil
      rw [List.length_append] at hn
      -- the next round, after a piece of some length
      have hrest : ∀ {w' : RecordWriter} {k : Nat}, 0 < k → k ≤ remaining.length →
          w'.Carries sealWith s (data ++ remaining.take k) →
          (∃ w'', w'.writeLoop sealWith line fuel (remaining.drop k) = (.ok (), w'') ∧
            w''.Carries sealWith s (data ++ remaining)) ∨
          (Trouble sealWith line s n ∧ ∃ e w'', w'.writeLoop sealWith line fuel (remaining.drop k) = (.error e, w'')) := by
        intro w' k hk hle hw'
        have hwhole : data ++ remaining.take k ++ remaining.drop k = data ++ remaining := by
          rw [List.append_assoc, List.take_append_drop]
        have hfew : (remaining.drop k).length ≤ fuel := by
          rw [List.length_drop]
          omega
        have hnext := ih hw' hfew (by rw [hwhole, List.length_append]; exact hn)
        rwa [hwhole] at hnext
      by_cases hdirect : w.buf = [] ∧ remaining.length ≥ chunkLen
      · rw [if_pos hdirect]
        have hfull : (w.buf ++ remaining.take chunkLen).length = chunkLen := by
          rw [hdirect.1, List.nil_append, List.length_take, Nat.min_eq_left hdirect.2]
        have hsame : ({ w with buf := [] } : RecordWriter) = w := by
          rw [← hdirect.1]
        have hsend := h.send line hfull (n := n) (by omega)
        rw [hsame, hdirect.1, List.nil_append] at hsend
        rcases hsend with ⟨w', heq, hw'⟩ | ⟨htrouble, e, w', heq⟩
        · rw [heq]
          exact hrest hchunk hdirect.2 hw'
        · rw [heq]
          exact Or.inr ⟨htrouble, e, w', rfl⟩
      · rw [if_neg hdirect]
        obtain ⟨blocks, hcut, hseals⟩ := h.sent
        have hroom := hcut.rest_lt
        have hk : 0 < min remaining.length (chunkLen - w.buf.length) := by omega
        dsimp only
        by_cases hfull : (w.buf ++ remaining.take (min remaining.length (chunkLen - w.buf.length))).length = chunkLen
        · rw [if_pos hfull]
          rcases h.send line hfull (n := n) (by omega) with ⟨w', heq, hw'⟩ | ⟨htrouble, e, w', heq⟩
          · rw [heq]
            exact hrest hk (Nat.min_le_left _ _) hw'
          · rw [heq]
            exact Or.inr ⟨htrouble, e, w', rfl⟩
        · rw [if_neg hfull]
          refine hrest hk (Nat.min_le_left _ _) ⟨⟨blocks, hcut.hold ?_, hseals⟩, h.live⟩
          rw [List.length_append, List.length_take] at hfull ⊢
          omega

variable (line) in
private theorem writeAll_cases {writes : List Bytes} (h : w.Carries sealWith s data)
    (hn : (data ++ writes.flatten).length ≤ n) :
    (∃ w', w.writeAll sealWith line writes = (.ok (), w') ∧ w'.Carries sealWith s (data ++ writes.flatten)) ∨
    (Trouble sealWith line s n ∧ ∃ e w', w.writeAll sealWith line writes = (.error e, w')) := by
  induction writes generalizing w data with
  | nil => exact Or.inl ⟨w, rfl, by rwa [List.flatten_nil, List.append_nil]⟩
  | cons piece writes ih =>
    rw [List.flatten_cons, ← List.append_assoc] at hn ⊢
    have hpiece : (data ++ piece).length ≤ n := by
      rw [List.length_append] at hn
      omega
    unfold RecordWriter.writeAll RecordWriter.write
    rcases writeLoop_cases line h (Nat.le_refl piece.length) hpiece with ⟨w', heq, hw'⟩ | ⟨htrouble, e, w', heq⟩
    · rw [heq]
      exact ih hw' hn
    · rw [heq]
      exact Or.inr ⟨htrouble, e, w', rfl⟩

/-- At the end the tail is sent, if there is any, and the end marker. -/
private theorem finish_cases (h : w.Carries sealWith s data) (hn : data.length + 1 ≤ n) :
    (∃ chunks w' s', w.finish sealWith line = (.ok (), w') ∧ (∀ c ∈ chunks, c ≠ [] ∧ c.length ≤ chunkLen) ∧
      chunks.flatten = data ∧ Seals sealWith s (containerRecords chunks) w'.wire s') ∨
    (Trouble sealWith line s n ∧ ∃ e w', w.finish sealWith line = (.error e, w')) := by
  obtain ⟨⟨blocks, hcut, hseals⟩, -⟩ := h
  have hctr := hseals.sendCtr_eq
  have hblocks := hcut.length_le
  rw [List.length_map] at hctr
  -- after the tail, only the end marker is left
  have hdone : ∀ {w' : RecordWriter}, Seals sealWith s ((withRest blocks w.buf).map (RecordType.data, ·)) w'.wire
      w'.session → w'.session.sendCtr ≤ s.sendCtr + n →
      (∃ w'' s', w'.sendRecord sealWith line .done [] = (.ok (), w'') ∧
        Seals sealWith s (containerRecords (withRest blocks w.buf)) w''.wire s') ∨
      (Trouble sealWith line s n ∧ ∃ e w'', w'.sendRecord sealWith line .done [] = (.error e, w'')) := by
    intro w' hw' hroom
    refine (sendRecord_cases .done hroom (Nat.zero_le _)).imp ?_ id
    rintro ⟨frame, session, hs, heq⟩
    exact ⟨_, _, heq, hw'.concat hs⟩
  have hwhole : (withRest blocks w.buf).flatten = data := by rw [flatten_withRest, hcut.flatten]
  have htail : (∃ w', w.sendTail sealWith line = (.ok (), w') ∧
      Seals sealWith s ((withRest blocks w.buf).map (RecordType.data, ·)) w'.wire w'.session ∧
        w'.session.sendCtr ≤ s.sendCtr + n) ∨
      (Trouble sealWith line s n ∧ ∃ e w', w.sendTail sealWith line = (.error e, w')) := by
    unfold RecordWriter.sendTail withRest
    by_cases hnil : w.buf = []
    · rw [if_pos hnil, if_pos hnil]
      exact Or.inl ⟨w, rfl, hseals, by omega⟩
    · rw [if_neg hnil, if_neg hnil]
      have hroom : ({ w with buf := [] } : RecordWriter).session.sendCtr ≤ s.sendCtr + n := by
        rw [hctr]
        omega
      refine (sendData_cases line { w with buf := [] } hroom (Nat.le_of_lt hcut.rest_lt)).imp ?_ id
      rintro ⟨frame, session, hs, heq⟩
      refine ⟨_, heq, ?_, ?_⟩
      · rw [List.map_append, List.map_singleton]
        exact hseals.concat hs
      · obtain ⟨-, -, rfl⟩ := sealRecord_eq_ok hs
        dsimp only
        omega
  unfold RecordWriter.finish
  rcases htail with ⟨w', heq, hw', hroom⟩ | ⟨htrouble, e, w', heq⟩
  · rw [heq]
    refine (hdone hw' hroom).imp ?_ id
    rintro ⟨w'', s', heq', hw''⟩
    exact ⟨_, w'', s', heq', fun c hc => hcut.mem_withRest hc, hwhole, hw''⟩
  · rw [heq]
    exact Or.inr ⟨htrouble, e, w', rfl⟩

/-- The frames sent are the sealed records of the container, however it was written; without trouble all are sent. -/
theorem transmit_spec (sealWith : Bytes → Bytes → Bytes → Bytes → Result Bytes) (line : Line) (s : Session)
    (writes : List Bytes) :
    (∃ chunks w s', transmit sealWith line s writes = (.ok (), w) ∧ (∀ c ∈ chunks, c ≠ [] ∧ c.length ≤ chunkLen) ∧
      chunks.flatten = writes.flatten ∧ Seals sealWith s (containerRecords chunks) w.wire s') ∨
    (Trouble sealWith line s (writes.flatten.length + 1) ∧ ∃ e w, transmit sealWith line s writes = (.error e, w)) := by
  unfold transmit
  have hroom : ([] ++ writes.flatten).length ≤ writes.flatten.length + 1 := Nat.le_succ _
  rcases writeAll_cases line (RecordWriter.carries_new s) hroom with ⟨w, heq, hw⟩ | ⟨htrouble, e, w, heq⟩
  · rw [List.nil_append] at hw
    rw [heq]
    dsimp only
    rw [hw.live]
    exact finish_cases hw (Nat.le_refl _)
  · rw [heq]
    refine Or.inr ⟨htrouble, ?_⟩
    dsimp only
    split
    · exact ⟨_, _, rfl⟩
    · exact ⟨_, _, rfl⟩

/-- There is no trouble on a quiet line, with a cipher that takes data of the allowed length and a counter that does not
run out. -/
theorem not_trouble (hquiet : ∀ k, line.cancel k = false ∧ line.fault k = none)
    (hseal : ∀ key nonce aad plaintext, plaintext.length ≤ chunkLen → ∃ ciphertext,
      sealWith key nonce aad plaintext = .ok ciphertext) (hctr : s.sendCtr + n < u64Max) :
    ¬ Trouble sealWith line s n := by
  rintro (⟨k, hk⟩ | ⟨k, hk⟩ | ⟨session, t, plaintext, hroom, hlen, hfails⟩)
  · rw [(hquiet k).1] at hk
    cases hk
  · exact hk (hquiet k).2
  · obtain ⟨ciphertext, hct⟩ := hseal session.sendKey (recordNonce session.sendDir session.sendCtr)
      (recordAad session.th0 t.toByte session.sendCtr) plaintext hlen
    have hne : ¬ session.sendCtr = u64Max := by omega
    exact hfails (t.toByte :: ciphertext) { session with sendCtr := session.sendCtr + 1 } (by
      unfold Session.sealRecord nextCtr
      simp only [hct, if_neg hne])

/-! ### What is received -/

/-- The loop succeeds on data records that are not empty, followed by the end, if all the data have the size. -/
private theorem receiveLoop_eq_ok {size : Nat} (hsize : size < u64Max) {arrivals : List Arrival} {received : Nat}
    {file bytes : Bytes} (hle : received ≤ size) :
    receiveLoop openWith size arrivals r received file = .ok bytes ↔
      ∃ chunks frames rest r', arrivals = frames.map .frame ++ rest ∧ Opens openWith r frames (containerRecords chunks) r' ∧
        (∀ c ∈ chunks, c ≠ []) ∧ received + chunks.flatten.length = size ∧ bytes = file ++ chunks.flatten := by
  induction arrivals generalizing r received file with
  | nil =>
    refine iff_of_false (fun h => by cases h) ?_
    rintro ⟨chunks, frames, rest, r', heq, hopens, -⟩
    obtain ⟨hframes, -⟩ := List.append_eq_nil_iff.1 heq.symm
    rw [List.map_eq_nil_iff.1 hframes] at hopens
    cases chunks with
    | nil => cases hopens
    | cons c chunks => cases hopens
  | cons arrival arrivals ih =>
    -- something must have arrived
    have hframe : ∀ {chunks : List Bytes} {frames : List Bytes} {rest : List Arrival} {r' : Session},
        arrival :: arrivals = frames.map .frame ++ rest → Opens openWith r frames (containerRecords chunks) r' →
          ∃ frame frames', frames = frame :: frames' ∧ arrival = .frame frame ∧ arrivals = frames'.map .frame ++ rest := by
      intro chunks frames rest r' heq hopens
      cases frames with
      | nil =>
        cases chunks with
        | nil => cases hopens
        | cons c chunks => cases hopens
      | cons frame frames =>
        rw [List.map_cons, List.cons_append, List.cons.injEq] at heq
        exact ⟨frame, frames, rfl, heq⟩
    have hother : (∀ frame, arrival ≠ .frame frame) → ¬ ∃ chunks frames rest r',
        arrival :: arrivals = frames.map .frame ++ rest ∧ Opens openWith r frames (containerRecords chunks) r' ∧
        (∀ c ∈ chunks, c ≠ []) ∧ received + chunks.flatten.length = size ∧ bytes = file ++ chunks.flatten := by
      rintro hno ⟨chunks, frames, rest, r', heq, hopens, -⟩
      obtain ⟨frame, -, -, harrival, -⟩ := hframe heq hopens
      exact hno frame harrival
    cases arrival with
    | cancelled => exact iff_of_false (fun h => by cases h) (hother fun _ h => by cases h)
    | failed e => exact iff_of_false (fun h => by cases h) (hother fun _ h => by cases h)
    | frame b =>
      unfold receiveLoop
      constructor
      · intro h
        cases hopen : r.openRecord openWith b with
        | mk res r₁ =>
          rw [hopen] at h
          cases res with
          | error e => cases h
          | ok record =>
            obtain ⟨t, plaintext⟩ := record
            cases t with
            | offer => cases h
            | offerDecision => cases h
            | data =>
              dsimp only at h
              by_cases hnil : plaintext = []
              · rw [if_pos hnil] at h
                cases h
              · rw [if_neg hnil] at h
                by_cases hmore : min (received + plaintext.length) u64Max > size
                · rw [if_pos hmore] at h
                  cases h
                · rw [if_neg hmore] at h
                  obtain ⟨chunks, frames, rest, r', rfl, hopens, hne, hsum, rfl⟩ := (ih (by omega)).1 h
                  refine ⟨plaintext :: chunks, b :: frames, rest, r', rfl, .cons hopen hopens, ?_, ?_, ?_⟩
                  · intro c hc
                    rcases List.mem_cons.1 hc with rfl | hc
                    · exact hnil
                    · exact hne c hc
                  · rw [List.flatten_cons, List.length_append]
                    omega
                  · rw [List.flatten_cons, List.append_assoc]
            | done =>
              cases plaintext with
              | cons x plaintext => cases h
              | nil =>
                dsimp only at h
                by_cases hsize : received = size
                · rw [if_neg (not_not.2 hsize), Except.ok.injEq] at h
                  refine ⟨[], [b], arrivals, r₁, rfl, .cons hopen (.nil r₁), by simp, by simpa using hsize, ?_⟩
                  rw [← h, List.flatten_nil, List.append_nil]
                · rw [if_pos hsize] at h
                  cases h
      · rintro ⟨chunks, frames, rest, r', heq, hopens, hne, hsum, rfl⟩
        obtain ⟨frame, frames, rfl, hb, rfl⟩ := hframe heq hopens
        obtain rfl := Arrival.frame.inj hb
        cases chunks with
        | nil =>
          cases hopens with
          | cons hopen hrest =>
            rw [hopen]
            simp only [List.flatten_nil, List.length_nil, Nat.add_zero] at hsum
            simp [hsum]
        | cons c chunks =>
          cases hopens with
          | cons hopen hrest =>
            rw [List.flatten_cons, List.length_append] at hsum
            have hmin : min (received + c.length) u64Max = received + c.length := Nat.min_eq_left (by omega)
            rw [hopen]
            dsimp only
            rw [if_neg (hne c (by simp)), hmin, if_neg (by omega), ih (by omega)]
            refine ⟨chunks, frames, rest, r', rfl, hrest, fun x hx => hne x (by simp [hx]), by omega, ?_⟩
            rw [List.flatten_cons, List.append_assoc]

/-- What an offer of an acceptable size comes to. -/
theorem receiveOffered_eq_ok {size : Nat} {arrivals : List Arrival} {bytes : Bytes} :
    receiveOffered openWith size arrivals r = .ok bytes ↔ size ≤ maxTransferSize ∧ bytes.length = size ∧
      ∃ chunks frames rest r', arrivals = frames.map .frame ++ rest ∧ Opens openWith r frames (containerRecords chunks) r' ∧
        (∀ c ∈ chunks, c ≠ []) ∧ bytes = chunks.flatten := by
  have hmax : maxTransferSize < u64Max := by decide
  unfold receiveOffered transferSizeAcceptable receiveInto
  by_cases hsize : size ≤ maxTransferSize
  · rw [if_neg (by simpa using hsize), receiveLoop_eq_ok (by omega) (Nat.zero_le _)]
    constructor
    · rintro ⟨chunks, frames, rest, r', harrivals, hopens, hne, hsum, rfl⟩
      rw [List.nil_append]
      exact ⟨hsize, by omega, chunks, frames, rest, r', harrivals, hopens, hne, rfl⟩
    · rintro ⟨-, hlen, chunks, frames, rest, r', harrivals, hopens, hne, rfl⟩
      exact ⟨chunks, frames, rest, r', harrivals, hopens, hne, by omega, rfl⟩
  · rw [if_pos (by simpa using hsize)]
    exact iff_of_false (fun h => by cases h) fun h => hsize h.1

/-- Frames open in one way. -/
private theorem Opens.prefix {frames more : List Bytes} {records records' : List (RecordType × Bytes)} {r' r'' : Session}
    (h : Opens openWith r frames records r') (h' : Opens openWith r (frames ++ more) records' r'') : records <+: records' := by
  induction h generalizing records' with
  | nil r => exact List.nil_prefix
  | cons hopen _ ih =>
    cases h' with
    | cons hopen' hrest' =>
      rw [hopen, Prod.mk.injEq, Except.ok.injEq] at hopen'
      obtain ⟨heq, rfl⟩ := hopen'
      rw [heq]
      exact (List.prefix_cons_inj _).2 (ih hrest')

/-- No container's records are the beginning of another's. -/
private theorem containerRecords_prefix {chunks chunks' : List Bytes}
    (h : containerRecords chunks <+: containerRecords chunks') : chunks = chunks' := by
  induction chunks generalizing chunks' with
  | nil =>
    cases chunks' with
    | nil => rfl
    | cons c' chunks' => simp [containerRecords] at h
  | cons c chunks ih =>
    cases chunks' with
    | nil => simp [containerRecords] at h
    | cons c' chunks' =>
      have hcons : ∀ (c : Bytes) (chunks : List Bytes),
          containerRecords (c :: chunks) = (RecordType.data, c) :: containerRecords chunks := fun _ _ => rfl
      rw [hcons, hcons, List.cons_prefix_cons, Prod.mk.injEq] at h
      rw [h.1.2, ih h.2]

/-! ### From one end to the other -/

/-- However a container is written at one end, what is sent are records of bounded length with its bytes, and an end
marker, unless the sender runs into trouble; the other end gets the container exactly if its length is the size that was
offered and within the limit.  Any other records are refused.  Without cancelling and failures there is no trouble. -/
theorem transfer_exact (hopen : ∀ key nonce aad plaintext ciphertext, sealWith key nonce aad plaintext = .ok ciphertext →
      openWith key nonce aad ciphertext = .ok plaintext) (hpair : Paired s r) :
    (∀ line writes,
      (∃ chunks w s', transmit sealWith line s writes = (.ok (), w) ∧ (∀ c ∈ chunks, c ≠ [] ∧ c.length ≤ chunkLen) ∧
        chunks.flatten = writes.flatten ∧ Seals sealWith s (containerRecords chunks) w.wire s' ∧
        ∀ size bytes, receiveOffered openWith size (w.wire.map .frame) r = .ok bytes ↔
          bytes = writes.flatten ∧ bytes.length = size ∧ size ≤ maxTransferSize) ∨
      (Trouble sealWith line s (writes.flatten.length + 1) ∧ ∃ e w, transmit sealWith line s writes = (.error e, w))) ∧
    (∀ size arrivals bytes, receiveOffered openWith size arrivals r = .ok bytes ↔
      size ≤ maxTransferSize ∧ bytes.length = size ∧ ∃ chunks frames rest r', arrivals = frames.map .frame ++ rest ∧
        Opens openWith r frames (containerRecords chunks) r' ∧ (∀ c ∈ chunks, c ≠ []) ∧ bytes = chunks.flatten) ∧
    ∀ line n, (∀ k, line.cancel k = false ∧ line.fault k = none) →
      (∀ key nonce aad plaintext, plaintext.length ≤ chunkLen → ∃ ciphertext,
        sealWith key nonce aad plaintext = .ok ciphertext) →
      s.sendCtr + n < u64Max → ¬ Trouble sealWith line s n := by
  refine ⟨fun line writes => (transmit_spec sealWith line s writes).imp ?_ id, fun _ _ _ => receiveOffered_eq_ok,
    fun _ _ => not_trouble⟩
  rintro ⟨chunks, w, s', heq, hchunks, hwhole, hseals⟩
  refine ⟨chunks, w, s', heq, hchunks, hwhole, hseals, fun size bytes => ?_⟩
  obtain ⟨r', hopens⟩ := hseals.opens hopen hpair
  rw [receiveOffered_eq_ok]
  constructor
  · rintro ⟨hsize, hlen, chunks', frames, rest, r'', harrivals, hopens', -, rfl⟩
    -- the frames that have been read are the first of those sent
    have hframes : ∃ more, w.wire = frames ++ more := by
      obtain ⟨front, back, hsplit, hfront, -⟩ := List.map_eq_append_iff.1 harrivals
      exact ⟨back, by rw [hsplit, List.map_injective_iff.2 (fun _ _ => Arrival.frame.inj) hfront]⟩
    obtain ⟨more, hmore⟩ := hframes
    rw [hmore] at hopens
    have hpre := hopens'.prefix hopens
    have hsame := containerRecords_prefix hpre
    rw [hsame] at hlen ⊢
    exact ⟨hwhole, hlen, hsize⟩
  · rintro ⟨rfl, hlen, hsize⟩
    exact ⟨hsize, hlen, chunks, w.wire, [], r', by rw [List.append_nil], hopens, fun c hc => (hchunks c hc).1, hwhole.symm⟩

/-! ### A cipher with a checksum -/

namespace Sym

/-- A tag that depends on everything. -/
private def recordTag (key nonce aad plaintext : Bytes) : Bytes :=
  List.replicate 16 (UInt8.ofNat ((key ++ nonce ++ aad ++ plaintext).map UInt8.toNat).sum)

/-- Sealing appends the tag. -/
def sealTagged (key nonce aad plaintext : Bytes) : Result Bytes := .ok (plaintext ++ recordTag key nonce aad plaintext)

/-- Opening checks it. -/
def openTagged (key nonce aad ciphertext : Bytes) : Result Bytes :=
  let plaintext := ciphertext.take (ciphertext.length - 16)
  if ciphertext = plaintext ++ recordTag key nonce aad plaintext then .ok plaintext else .error .auth

private theorem open_sealTagged (key nonce aad plaintext ciphertext : Bytes)
    (h : sealTagged key nonce aad plaintext = .ok ciphertext) : openTagged key nonce aad ciphertext = .ok plaintext := by
  obtain rfl := Except.ok.inj h
  have hlen : (plaintext ++ recordTag key nonce aad plaintext).length - 16 = plaintext.length := by
    simp [recordTag]
  unfold openTagged
  simp only [hlen, List.take_left', if_true]

end Sym

theorem transfer_exact_tagged :
    (∀ line writes,
      (∃ chunks w s', transmit Sym.sealTagged line (.forInitiator [1] [2] [3]) writes = (.ok (), w) ∧
        (∀ c ∈ chunks, c ≠ [] ∧ c.length ≤ chunkLen) ∧ chunks.flatten = writes.flatten ∧
        Seals Sym.sealTagged (.forInitiator [1] [2] [3]) (containerRecords chunks) w.wire s' ∧
        ∀ size bytes, receiveOffered Sym.openTagged size (w.wire.map .frame) (.forResponder [1] [2] [3]) = .ok bytes ↔
          bytes = writes.flatten ∧ bytes.length = size ∧ size ≤ maxTransferSize) ∨
      (Trouble Sym.sealTagged line (.forInitiator [1] [2] [3]) (writes.flatten.length + 1) ∧
        ∃ e w, transmit Sym.sealTagged line (.forInitiator [1] [2] [3]) writes = (.error e, w))) ∧
    (∀ size arrivals bytes, receiveOffered Sym.openTagged size arrivals (.forResponder [1] [2] [3]) = .ok bytes ↔
      size ≤ maxTransferSize ∧ bytes.length = size ∧ ∃ chunks frames rest r', arrivals = frames.map .frame ++ rest ∧
        Opens Sym.openTagged (.forResponder [1] [2] [3]) frames (containerRecords chunks) r' ∧ (∀ c ∈ chunks, c ≠ []) ∧
        bytes = chunks.flatten) ∧
    ∀ line n, (∀ k, line.cancel k = false ∧ line.fault k = none) →
      (∀ key nonce aad plaintext, plaintext.length ≤ chunkLen → ∃ ciphertext,
        Sym.sealTagged key nonce aad plaintext = .ok ciphertext) →
      (Session.forInitiator [1] [2] [3]).sendCtr + n < u64Max → ¬ Trouble Sym.sealTagged line (.forInitiator [1] [2] [3]) n :=
  transfer_exact Sym.open_sealTagged (paired_established [1] [2] [3])

/-- Two writes go out in one record. -/
example : (transmit Sym.sealTagged ⟨fun _ => false, fun _ => none⟩ (.forInitiator [1] [2] [3]) [[1, 2], [], [3]]).2.wire.length =
    2 := by
  decide

end FileSec.Peer
