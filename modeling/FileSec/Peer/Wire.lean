import FileSec.Fsec.Written

/-!
# Frames on a socket

Every message of a transfer is sent behind its length (`wire.rs`).  A call that reads a frame goes through turns: in each
it looks whether it has been cancelled and at the clock, and then asks the socket, which hands over some of what has
arrived, or nothing yet, or fails.  Whatever the turns are, a frame is read whole or not at all (`wire_framing`).
-/

namespace FileSec.Peer

open Fsec

/-- `io::ErrorKind`, as far as it is told apart. -/
inductive IoErrorKind where
  | invalidInput
  | invalidData
  | timedOut
  | wouldBlock
  | interrupted
  | unexpectedEof
  | other
  deriving DecidableEq

/-- `io::Error` -/
structure IoError where
  kind : IoErrorKind
  message : Str
  deriving DecidableEq

/-- `MAX_HANDSHAKE_FRAME` -/
def maxHandshakeFrame : Nat := 64 * 1024

/-! ### Writing -/

/-- `write_frame`: what is put on the socket. -/
def writeFrame (data : Bytes) : Except IoError Bytes :=
  if data.length > u32Max then .error ⟨.invalidInput, "frame too large to send".toList⟩
  else .ok (be32 data.length ++ data)

/-- One frame after the other. -/
def writeFrames : List Bytes → Except IoError Bytes
  | [] => .ok []
  | data :: rest => do
    let frame ← writeFrame data
    let frames ← writeFrames rest
    .ok (frame ++ frames)

/-! ### Reading -/

/-- What the socket answers to one `read`: it has at most `k + 1` bytes there, or it fails. -/
inductive ReadAnswer where
  | ready (k : Nat)
  | err (e : IoError)
  deriving DecidableEq

/-- What one round of a call meets: whether it is cancelled, the clock, and the socket. -/
structure Turn where
  cancelled : Bool
  now : Nat
  answer : ReadAnswer
  deriving DecidableEq

/-- The bytes of the peer that have not been read, after which the connection is closed, and the turns to come. -/
structure Connection where
  unread : Bytes
  turns : List Turn
  deriving DecidableEq

/-- What a call has come to; it may still be waiting when the turns are used up. -/
inductive ReadOutcome (α : Type) where
  | ok (value : α) (conn : Connection)
  | err (e : IoError) (conn : Connection)
  | waiting (conn : Connection)
  deriving DecidableEq

/-- What is left of the connection. -/
def ReadOutcome.conn {α : Type} : ReadOutcome α → Connection
  | .ok _ conn => conn
  | .err _ conn => conn
  | .waiting conn => conn

/-- `read_exact_deadline` for a buffer of `len` bytes. -/
def readExactDeadline (deadline len : Nat) : Bytes → Bytes → List Turn → ReadOutcome Bytes
  | filled, unread, [] => if filled.length < len then .waiting ⟨unread, []⟩ else .ok filled ⟨unread, []⟩
  | filled, unread, turn :: turns =>
    if ¬ filled.length < len then .ok filled ⟨unread, turn :: turns⟩
    else if turn.cancelled then .err ⟨.other, "Transfer cancelled.".toList⟩ ⟨unread, turns⟩
    else if deadline ≤ turn.now then .err ⟨.timedOut, "frame deadline exceeded".toList⟩ ⟨unread, turns⟩
    else
      match turn.answer with
      | .ready k =>
        let n := min (k + 1) (min (len - filled.length) unread.length)
        if n = 0 then .err ⟨.unexpectedEof, "connection closed mid-frame".toList⟩ ⟨unread, turns⟩
        else readExactDeadline deadline len (filled ++ unread.take n) (unread.drop n) turns
      | .err e =>
        if e.kind = .wouldBlock then readExactDeadline deadline len filled unread turns
        else if e.kind = .timedOut then readExactDeadline deadline len filled unread turns
        else if e.kind = .interrupted then readExactDeadline deadline len filled unread turns
        else .err e ⟨unread, turns⟩

/-- A call that reads a frame: its deadline and the turns it meets. -/
structure Call where
  deadline : Nat
  turns : List Turn

/-- `read_frame_until` -/
def readFrameUntil (max : Nat) (call : Call) (unread : Bytes) : ReadOutcome Bytes :=
  match readExactDeadline call.deadline 4 [] unread call.turns with
  | .err e conn => .err e conn
  | .waiting conn => .waiting conn
  | .ok lenBuf conn =>
    if ofBe lenBuf > max then .err ⟨.invalidData, "frame exceeds the maximum allowed size".toList⟩ conn
    else readExactDeadline call.deadline (ofBe lenBuf) [] conn.unread conn.turns

/-- Calls one after the other on a connection: all frames, or how the first call that reads none has ended. -/
def readFrames (max : Nat) : List Call → Bytes → ReadOutcome (List Bytes)
  | [], unread => .ok [] ⟨unread, []⟩
  | call :: calls, unread =>
    match readFrameUntil max call unread with
    | .err e conn => .err e conn
    | .waiting conn => .waiting conn
    | .ok data conn =>
      match readFrames max calls conn.unread with
      | .err e conn => .err e conn
      | .waiting conn => .waiting conn
      | .ok rest conn => .ok (data :: rest) conn

/-! ### One buffer -/

/-- The socket has something in this turn. -/
def Turn.isReady (turn : Turn) : Bool :=
  match turn.answer with
  | .ready _ => true
  | .err _ => false

/-- The number of turns in which the socket has something. -/
def readyCount (turns : List Turn) : Nat := turns.countP Turn.isReady

/-- Nothing goes wrong in this turn: the call is not cancelled, it is before the deadline, and the socket has something or
fails in a way after which it is asked again. -/
structure Turn.Undisturbed (deadline : Nat) (turn : Turn) : Prop where
  cancelled : turn.cancelled = false
  now : turn.now < deadline
  answer : ∀ e, turn.answer = .err e → e.kind = .wouldBlock ∨ e.kind = .timedOut ∨ e.kind = .interrupted

/-- Nothing goes wrong in any turn of the call. -/
def Call.Undisturbed (call : Call) : Prop := ∀ turn ∈ call.turns, turn.Undisturbed call.deadline

/-- What filling a buffer of `len` bytes, of which some are filled, does with the connection. -/
inductive Fills (deadline len : Nat) (filled unread : Bytes) (turns : List Turn) : ReadOutcome Bytes → Prop
  | ok (chunk : Bytes) (conn : Connection) (hunread : unread = chunk ++ conn.unread)
      (hlen : filled.length + chunk.length = len) (hturns : conn.turns <:+ turns)
      (hready : readyCount turns ≤ chunk.length + readyCount conn.turns) :
      Fills deadline len filled unread turns (.ok (filled ++ chunk) conn)
  | err (chunk : Bytes) (e : IoError) (conn : Connection) (hunread : unread = chunk ++ conn.unread)
      (hlen : filled.length + chunk.length < len)
      (heof : (∀ turn ∈ turns, turn.Undisturbed deadline) → conn.unread = []) :
      Fills deadline len filled unread turns (.err e conn)
  | waiting (chunk : Bytes) (conn : Connection) (hunread : unread = chunk ++ conn.unread)
      (hlen : filled.length + chunk.length < len) (hready : readyCount turns ≤ chunk.length) :
      Fills deadline len filled unread turns (.waiting conn)

/-- A turn that hands over `piece`, which is not empty if the socket has something, comes before the others. -/
private theorem Fills.cons {deadline len : Nat} {filled piece rest : Bytes} {turn : Turn} {turns : List Turn}
    {outcome : ReadOutcome Bytes} (hpiece : turn.isReady = true → 0 < piece.length)
    (h : Fills deadline len (filled ++ piece) rest turns outcome) :
    Fills deadline len filled (piece ++ rest) (turn :: turns) outcome := by
  have hcount : readyCount (turn :: turns) ≤ piece.length + readyCount turns := by
    unfold readyCount
    rw [List.countP_cons]
    split
    · have := hpiece ‹_›
      omega
    · omega
  cases h with
  | ok chunk conn hunread hlen hturns hready =>
    rw [List.append_assoc]
    refine .ok (piece ++ chunk) conn ?_ ?_ (hturns.trans (List.suffix_cons _ _)) ?_
    · rw [hunread, List.append_assoc]
    · rw [List.length_append] at hlen ⊢
      omega
    · rw [List.length_append]
      omega
  | err chunk e conn hunread hlen heof =>
    refine .err (piece ++ chunk) e conn ?_ ?_ fun hall => heof fun t ht => hall t (List.mem_cons_of_mem _ ht)
    · rw [hunread, List.append_assoc]
    · rw [List.length_append] at hlen ⊢
      omega
  | waiting chunk conn hunread hlen hready =>
    refine .waiting (piece ++ chunk) conn ?_ ?_ ?_
    · rw [hunread, List.append_assoc]
    · rw [List.length_append] at hlen ⊢
      omega
    · rw [List.length_append]
      omega

/-- A full buffer needs no turn. -/
private theorem Fills.full {deadline len : Nat} {filled unread : Bytes} {turns : List Turn} (h : filled.length = len) :
    Fills deadline len filled unread turns (.ok filled ⟨unread, turns⟩) := by
  have hfills : Fills deadline len filled unread turns (.ok (filled ++ []) ⟨unread, turns⟩) :=
    .ok [] ⟨unread, turns⟩ rfl (by simpa using h) (List.suffix_refl _) (by simp)
  rwa [List.append_nil] at hfills

/-- A turn in which the call ends. -/
private theorem Fills.stop {deadline len : Nat} {filled unread : Bytes} {turn : Turn} {turns : List Turn} {e : IoError}
    (hlen : filled.length < len) (heof : turn.Undisturbed deadline → unread = []) :
    Fills deadline len filled unread (turn :: turns) (.err e ⟨unread, turns⟩) :=
  .err [] e _ rfl (by simpa using hlen) fun hall => heof (hall turn List.mem_cons_self)

/-- Filling a buffer takes bytes off the connection in order: as many as it needs, or it fails or waits with less. -/
theorem readExactDeadline_fills (deadline len : Nat) {filled : Bytes} (hlen : filled.length ≤ len) (unread : Bytes)
    (turns : List Turn) :
    Fills deadline len filled unread turns (readExactDeadline deadline len filled unread turns) := by
  induction turns generalizing filled unread with
  | nil =>
    unfold readExactDeadline
    by_cases h : filled.length < len
    · rw [if_pos h]
      exact .waiting [] _ rfl (by simpa using h) (Nat.zero_le _)
    · rw [if_neg h]
      exact .full (by omega)
  | cons turn turns ih =>
    have hagain {e : IoError} (he : turn.answer = .err e) :
        Fills deadline len filled unread (turn :: turns) (readExactDeadline deadline len filled unread turns) := by
      have hpiece : turn.isReady = true → 0 < ([] : Bytes).length := by
        intro hready
        unfold Turn.isReady at hready
        rw [he] at hready
        cases hready
      exact Fills.cons hpiece (by
        rw [List.append_nil]
        exact ih hlen unread)
    unfold readExactDeadline
    by_cases hlt : filled.length < len
    · rw [if_neg (not_not.2 hlt)]
      by_cases hcancel : turn.cancelled = true
      · rw [if_pos hcancel]
        exact .stop hlt fun h => absurd (h.cancelled.symm.trans hcancel) (by decide)
      · rw [if_neg hcancel]
        by_cases hlate : deadline ≤ turn.now
        · rw [if_pos hlate]
          exact .stop hlt fun h => absurd h.now (by omega)
        · rw [if_neg hlate]
          cases hanswer : turn.answer with
          | ready k =>
            dsimp only
            by_cases hn : min (k + 1) (min (len - filled.length) unread.length) = 0
            · rw [if_pos hn]
              exact .stop hlt fun _ => List.eq_nil_of_length_eq_zero (by omega)
            · rw [if_neg hn]
              generalize hnd : min (k + 1) (min (len - filled.length) unread.length) = n at hn ⊢
              have htake : (unread.take n).length = n := by
                rw [List.length_take]
                omega
              have hroom : (filled ++ unread.take n).length ≤ len := by
                rw [List.length_append]
                omega
              have hpiece : turn.isReady = true → 0 < (unread.take n).length := fun _ => by omega
              have hcons := (ih hroom (unread.drop n)).cons hpiece
              rwa [List.take_append_drop] at hcons
          | err e =>
            dsimp only
            by_cases h1 : e.kind = .wouldBlock
            · rw [if_pos h1]
              exact hagain hanswer
            · rw [if_neg h1]
              by_cases h2 : e.kind = .timedOut
              · rw [if_pos h2]
                exact hagain hanswer
              · rw [if_neg h2]
                by_cases h3 : e.kind = .interrupted
                · rw [if_pos h3]
                  exact hagain hanswer
                · rw [if_neg h3]
                  refine .stop hlt fun h => ?_
                  rcases h.answer e hanswer with h | h | h
                  · exact absurd h h1
                  · exact absurd h h2
                  · exact absurd h h3
    · rw [if_pos hlt]
      exact .full (by omega)

/-! ### One frame -/

variable {max : Nat} {call : Call}

private theorem be32_length (n : Nat) : (be32 n).length = 4 := rfl

/-- What a call does on a connection that begins with the length `n`: it takes the length off and goes on, or ends
before. -/
private theorem readFrameUntil_length (max : Nat) (call : Call) {n : Nat} (hn : n ≤ u32Max) (body : Bytes) :
    (∃ turns, turns <:+ call.turns ∧ readyCount call.turns ≤ 4 + readyCount turns ∧
      readFrameUntil max call (be32 n ++ body) =
        if n > max then .err ⟨.invalidData, "frame exceeds the maximum allowed size".toList⟩ ⟨body, turns⟩
        else readExactDeadline call.deadline n [] body turns) ∨
    (∃ e conn, readFrameUntil max call (be32 n ++ body) = .err e conn ∧ body <:+ conn.unread ∧ ¬ call.Undisturbed) ∨
    (∃ conn, readFrameUntil max call (be32 n ++ body) = .waiting conn ∧ body <:+ conn.unread ∧
      readyCount call.turns < 4) := by
  have hfills := @readExactDeadline_fills call.deadline 4 [] (Nat.zero_le _) (be32 n ++ body) call.turns
  -- what is taken off so far is a part of the length
  have hinside : ∀ {chunk rest : Bytes}, be32 n ++ body = chunk ++ rest → ([] : Bytes).length + chunk.length < 4 →
      body <:+ rest ∧ rest ≠ [] := by
    intro chunk rest heq hlt
    have hlen := congrArg List.length heq
    simp only [List.length_append, be32_length] at hlen
    rw [List.length_nil] at hlt
    rcases List.append_eq_append_iff.1 heq with ⟨u, hu, -⟩ | ⟨u, -, hu⟩
    · have hle := congrArg List.length hu
      rw [List.length_append, be32_length] at hle
      omega
    · refine ⟨hu ▸ List.suffix_append _ _, fun hnil => ?_⟩
      rw [hnil, List.length_nil] at hlen
      omega
  unfold readFrameUntil
  generalize readExactDeadline call.deadline 4 [] (be32 n ++ body) call.turns = outcome at hfills
  cases hfills with
  | ok chunk conn hunread hlen hturns hready =>
    rw [List.length_nil] at hlen
    obtain ⟨rfl, hbody⟩ := List.append_inj hunread (by rw [be32_length]; omega)
    refine Or.inl ⟨conn.turns, hturns, hready, ?_⟩
    rw [List.nil_append, hbody]
    dsimp only
    rw [ofBe_be32 hn]
  | err chunk e conn hunread hlen heof =>
    obtain ⟨hbody, hne⟩ := hinside hunread hlen
    exact Or.inr (Or.inl ⟨e, conn, rfl, hbody, fun hall => hne (heof hall)⟩)
  | waiting chunk conn hunread hlen hready =>
    obtain ⟨hbody, -⟩ := hinside hunread hlen
    rw [List.length_nil] at hlen
    exact Or.inr (Or.inr ⟨conn, rfl, hbody, by omega⟩)

/-- A message within the limit is read from the front of the connection: a call that returns has read it and nothing
after it, an undisturbed call does not fail, and it does not wait for more turns than there are bytes. -/
private theorem readFrameUntil_frame (call : Call) {data : Bytes} (hmax : data.length ≤ max)
    (hdata : data.length ≤ u32Max) (after : Bytes) :
    (∃ turns, readFrameUntil max call (be32 data.length ++ data ++ after) = .ok data ⟨after, turns⟩) ∨
    (∃ e conn, readFrameUntil max call (be32 data.length ++ data ++ after) = .err e conn ∧ ¬ call.Undisturbed) ∨
    (∃ conn, readFrameUntil max call (be32 data.length ++ data ++ after) = .waiting conn ∧
      readyCount call.turns < 4 + data.length) := by
  rw [List.append_assoc]
  rcases readFrameUntil_length max call hdata (data ++ after) with
    ⟨turns, hturns, hready, h⟩ | ⟨e, conn, h, -, hund⟩ | ⟨conn, h, -, hready⟩
  · rw [h, if_neg (by omega)]
    have hfills := @readExactDeadline_fills call.deadline data.length [] (Nat.zero_le _) (data ++ after) turns
    generalize readExactDeadline call.deadline data.length [] (data ++ after) turns = outcome at hfills
    cases hfills with
    | ok chunk conn hunread hlen hturns' hready' =>
      rw [List.length_nil, Nat.zero_add] at hlen
      obtain ⟨rfl, hafter⟩ := List.append_inj hunread hlen.symm
      refine Or.inl ⟨conn.turns, ?_⟩
      rw [List.nil_append, hafter]
    | err chunk e conn hunread hlen heof =>
      refine Or.inr (Or.inl ⟨e, conn, rfl, fun hall => ?_⟩)
      have hnil := heof fun turn hturn => hall turn (hturns.mem hturn)
      have hlen' := congrArg List.length hunread
      rw [hnil] at hlen'
      simp only [List.length_append, List.length_nil] at hlen hlen'
      omega
    | waiting chunk conn hunread hlen hready' =>
      rw [List.length_nil] at hlen
      exact Or.inr (Or.inr ⟨conn, rfl, by omega⟩)
  · exact Or.inr (Or.inl ⟨e, conn, h, hund⟩)
  · exact Or.inr (Or.inr ⟨conn, h, by omega⟩)

/-- A frame that announces more than the limit is never read, and nothing of what follows its length is taken off. -/
private theorem readFrameUntil_oversized (call : Call) {n : Nat} (hmax : max < n) (hn : n ≤ u32Max) (body : Bytes) :
    (∃ turns, readFrameUntil max call (be32 n ++ body) =
      .err ⟨.invalidData, "frame exceeds the maximum allowed size".toList⟩ ⟨body, turns⟩) ∨
    (∃ e conn, readFrameUntil max call (be32 n ++ body) = .err e conn ∧ body <:+ conn.unread ∧ ¬ call.Undisturbed) ∨
    (∃ conn, readFrameUntil max call (be32 n ++ body) = .waiting conn ∧ body <:+ conn.unread ∧
      readyCount call.turns < 4) := by
  rcases readFrameUntil_length max call hn body with ⟨turns, -, -, h⟩ | h | h
  · rw [if_pos hmax] at h
    exact Or.inl ⟨turns, h⟩
  · exact Or.inr (Or.inl h)
  · exact Or.inr (Or.inr h)

/-- A buffer is not filled from a connection that ends before. -/
private theorem readExactDeadline_short (deadline : Nat) {len : Nat} {unread : Bytes} (turns : List Turn)
    (h : unread.length < len) :
    (∃ e conn, readExactDeadline deadline len [] unread turns = .err e conn) ∨
    (∃ conn, readExactDeadline deadline len [] unread turns = .waiting conn ∧ readyCount turns ≤ unread.length) := by
  have hfills := @readExactDeadline_fills deadline len [] (Nat.zero_le _) unread turns
  generalize readExactDeadline deadline len [] unread turns = outcome at hfills
  cases hfills with
  | ok chunk conn hunread hlen hturns hready =>
    have hlen' := congrArg List.length hunread
    rw [List.length_append] at hlen'
    rw [List.length_nil] at hlen
    omega
  | err chunk e conn hunread hlen heof => exact Or.inl ⟨e, conn, rfl⟩
  | waiting chunk conn hunread hlen hready =>
    have hlen' := congrArg List.length hunread
    rw [List.length_append] at hlen'
    exact Or.inr ⟨conn, rfl, by omega⟩

/-- A connection that ends inside a frame gives an error, or the call waits with no more turns than there are bytes. -/
private theorem readFrameUntil_short (max : Nat) (call : Call) {data unread : Bytes} (hdata : data.length ≤ u32Max)
    (hpre : unread <+: be32 data.length ++ data) (hne : unread ≠ be32 data.length ++ data) :
    (∃ e conn, readFrameUntil max call unread = .err e conn) ∨
    (∃ conn, readFrameUntil max call unread = .waiting conn ∧ readyCount call.turns ≤ unread.length) := by
  have hlt : unread.length < 4 + data.length := by
    have hle := hpre.length_le
    rw [List.length_append, be32_length] at hle
    rcases Nat.lt_or_eq_of_le hle with hlt | heq
    · exact hlt
    · exact absurd (hpre.eq_of_length (by rw [List.length_append, be32_length, heq])) hne
  by_cases h4 : unread.length < 4
  · unfold readFrameUntil
    rcases readExactDeadline_short call.deadline call.turns h4 with ⟨e, conn, h⟩ | ⟨conn, h, hready⟩
    · rw [h]
      exact Or.inl ⟨e, conn, rfl⟩
    · rw [h]
      exact Or.inr ⟨conn, rfl, hready⟩
  · obtain ⟨body, rfl⟩ : ∃ body, unread = be32 data.length ++ body := by
      have hlength : be32 data.length <+: unread :=
        List.prefix_of_prefix_length_le (List.prefix_append _ _) hpre (by rw [be32_length]; omega)
      obtain ⟨body, hbody⟩ := hlength
      exact ⟨body, hbody.symm⟩
    rw [List.length_append, be32_length] at hlt ⊢
    rcases readFrameUntil_length max call hdata body with
      ⟨turns, -, hready, h⟩ | ⟨e, conn, h, -, -⟩ | ⟨conn, h, -, hready⟩
    · rw [h]
      by_cases hmax : data.length > max
      · rw [if_pos hmax]
        exact Or.inl ⟨_, _, rfl⟩
      · rw [if_neg hmax]
        have hshort : body.length < data.length := by omega
        rcases readExactDeadline_short call.deadline turns hshort with h | ⟨conn, h, hready'⟩
        · exact Or.inl h
        · exact Or.inr ⟨conn, h, by omega⟩
    · exact Or.inl ⟨e, conn, h⟩
    · exact Or.inr ⟨conn, h, by omega⟩

/-! ### Runs -/

private theorem writeFrame_eq_ok {data frame : Bytes} (h : writeFrame data = .ok frame) :
    data.length ≤ u32Max ∧ frame = be32 data.length ++ data := by
  unfold writeFrame at h
  split at h
  · cases h
  · cases h
    exact ⟨by omega, rfl⟩

private theorem writeFrames_cons_eq_ok {data wire : Bytes} {rest : List Bytes}
    (h : writeFrames (data :: rest) = .ok wire) :
    ∃ wire', data.length ≤ u32Max ∧ writeFrames rest = .ok wire' ∧ wire = be32 data.length ++ data ++ wire' := by
  unfold writeFrames at h
  cases hframe : writeFrame data with
  | error e =>
    rw [hframe] at h
    cases h
  | ok frame =>
    cases hrest : writeFrames rest with
    | error e =>
      rw [hframe, hrest] at h
      cases h
    | ok wire' =>
      rw [hframe, hrest] at h
      cases h
      obtain ⟨hdata, rfl⟩ := writeFrame_eq_ok hframe
      exact ⟨wire', hdata, rfl, rfl⟩

/-- Calls on a connection that holds as many frames read their messages, and leave what follows; where they do not, one
of them is disturbed, or waits although the socket has had less for it than there are bytes in its frame. -/
private theorem readFrames_frames {messages : List Bytes} {calls : List Call} {wire : Bytes} (after : Bytes)
    (hmax : ∀ data ∈ messages, data.length ≤ max) (hwire : writeFrames messages = .ok wire)
    (hcalls : calls.length = messages.length) :
    (∃ turns, readFrames max calls (wire ++ after) = .ok messages ⟨after, turns⟩) ∨
    (∃ e conn, readFrames max calls (wire ++ after) = .err e conn ∧ ∃ call ∈ calls, ¬ call.Undisturbed) ∨
    (∃ conn, readFrames max calls (wire ++ after) = .waiting conn ∧
      ∃ p ∈ calls.zip messages, readyCount p.1.turns < 4 + p.2.length) := by
  induction messages generalizing calls wire with
  | nil =>
    have hnil : calls = [] := List.eq_nil_of_length_eq_zero hcalls
    subst hnil
    cases hwire
    exact Or.inl ⟨[], rfl⟩
  | cons data messages ih =>
    cases calls with
    | nil => simp at hcalls
    | cons call calls =>
      obtain ⟨wire', hdata, hwire', rfl⟩ := writeFrames_cons_eq_ok hwire
      rw [List.append_assoc]
      unfold readFrames
      rcases readFrameUntil_frame call (hmax data List.mem_cons_self) hdata (wire' ++ after) with
        ⟨turns, h⟩ | ⟨e, conn, h, hund⟩ | ⟨conn, h, hready⟩
      · rw [h]
        dsimp only
        rcases ih (fun d hd => hmax d (List.mem_cons_of_mem _ hd)) hwire' (Nat.succ.inj hcalls) with
          ⟨turns, h⟩ | ⟨e, conn, h, c, hc, hund⟩ | ⟨conn, h, p, hp, hready⟩
        · rw [h]
          exact Or.inl ⟨turns, rfl⟩
        · rw [h]
          exact Or.inr (Or.inl ⟨e, conn, rfl, c, List.mem_cons_of_mem _ hc, hund⟩)
        · rw [h]
          exact Or.inr (Or.inr ⟨conn, rfl, p, List.mem_cons_of_mem _ hp, hready⟩)
      · rw [h]
        exact Or.inr (Or.inl ⟨e, conn, rfl, call, List.mem_cons_self, hund⟩)
      · rw [h]
        exact Or.inr (Or.inr ⟨conn, rfl, (call, data), List.mem_cons_self, hready⟩)

/-- Frames on a connection, however it hands them over.  Calls that return have read the messages that were sent, in
order, and nothing after them; undisturbed calls do not fail, and return once the socket has had something for them as
often as there are bytes.  A frame that announces more than the limit is refused with its body untouched, and a connection
that ends inside a frame gives an error. -/
theorem wire_framing (max : Nat) :
    (∀ (messages : List Bytes) (calls : List Call) (wire after : Bytes), (∀ data ∈ messages, data.length ≤ max) →
      writeFrames messages = .ok wire → calls.length = messages.length →
        (∀ got conn, readFrames max calls (wire ++ after) = .ok got conn → got = messages ∧ conn.unread = after) ∧
        ((∀ call ∈ calls, call.Undisturbed) →
          (∀ e conn, readFrames max calls (wire ++ after) ≠ .err e conn) ∧
          ((∀ p ∈ calls.zip messages, 4 + p.2.length ≤ readyCount p.1.turns) →
            ∃ turns, readFrames max calls (wire ++ after) = .ok messages ⟨after, turns⟩))) ∧
    (∀ (n : Nat) (body : Bytes) (call : Call), max < n → n ≤ u32Max →
      (∀ data conn, readFrameUntil max call (be32 n ++ body) ≠ .ok data conn) ∧
      body <:+ (readFrameUntil max call (be32 n ++ body)).conn.unread ∧
      (call.Undisturbed → 4 ≤ readyCount call.turns → ∃ turns, readFrameUntil max call (be32 n ++ body) =
        .err ⟨.invalidData, "frame exceeds the maximum allowed size".toList⟩ ⟨body, turns⟩)) ∧
    (∀ (data frame unread : Bytes) (call : Call), writeFrame data = .ok frame → unread <+: frame → unread ≠ frame →
      (∀ got conn, readFrameUntil max call unread ≠ .ok got conn) ∧
      (unread.length < readyCount call.turns → ∃ e conn, readFrameUntil max call unread = .err e conn)) := by
  refine ⟨?_, ?_, ?_⟩
  · intro messages calls wire after hmax hwire hcalls
    rcases readFrames_frames after hmax hwire hcalls with
      ⟨turns, h⟩ | ⟨e, conn, h, call, hcall, hund⟩ | ⟨conn, h, p, hp, hready⟩
    · rw [h]
      refine ⟨fun got conn heq => ?_, fun _ => ⟨nofun, fun _ => ⟨turns, rfl⟩⟩⟩
      cases heq
      exact ⟨rfl, rfl⟩
    · rw [h]
      exact ⟨nofun, fun hall => absurd (hall call hcall) hund⟩
    · rw [h]
      refine ⟨nofun, fun _ => ⟨nofun, fun hall => ?_⟩⟩
      have hle := hall p hp
      omega
  · intro n body call hmax hn
    rcases readFrameUntil_oversized call hmax hn body with
      ⟨turns, h⟩ | ⟨e, conn, h, hbody, hund⟩ | ⟨conn, h, hbody, hready⟩
    · rw [h]
      exact ⟨nofun, List.suffix_refl body, fun _ _ => ⟨turns, rfl⟩⟩
    · rw [h]
      exact ⟨nofun, hbody, fun hund' => absurd hund' hund⟩
    · rw [h]
      exact ⟨nofun, hbody, fun _ hle => absurd hready (by omega)⟩
  · intro data frame unread call hframe hpre hne
    obtain ⟨hdata, rfl⟩ := writeFrame_eq_ok hframe
    rcases readFrameUntil_short max call hdata hpre hne with ⟨e, conn, h⟩ | ⟨conn, h, hready⟩
    · rw [h]
      exact ⟨nofun, fun _ => ⟨e, conn, rfl⟩⟩
    · rw [h]
      exact ⟨nofun, fun hlt => absurd hready (by omega)⟩

/-- A call that gets two bytes at a time. -/
private def pieces : Call := ⟨9, List.replicate 8 ⟨false, 0, .ready 1⟩⟩

private theorem pieces_undisturbed : pieces.Undisturbed := by
  intro turn hturn
  obtain rfl := List.eq_of_mem_replicate hturn
  exact ⟨rfl, by decide, fun e he => by cases he⟩

theorem wire_framing_pieces :
    (∃ turns, readFrames 5 [⟨9, List.replicate 8 ⟨false, 0, .ready 1⟩⟩, ⟨9, List.replicate 8 ⟨false, 0, .ready 1⟩⟩]
      [0, 0, 0, 3, 7, 8, 9, 0, 0, 0, 1, 6, 0] = .ok [[7, 8, 9], [6]] ⟨[0], turns⟩) ∧
    (∀ data conn, readFrameUntil 5 ⟨9, List.replicate 8 ⟨false, 0, .ready 1⟩⟩ [0, 0, 0, 6, 1] ≠ .ok data conn) ∧
    ∃ e conn, readFrameUntil 5 ⟨9, List.replicate 8 ⟨false, 0, .ready 1⟩⟩ [0, 0, 0, 2, 7] = .err e conn := by
  have hframe : writeFrame [7, 8] = .ok [0, 0, 0, 2, 7, 8] := rfl
  have hcalls : ∀ call ∈ [pieces, pieces], call.Undisturbed := by
    intro call hcall
    rcases List.mem_cons.1 hcall with rfl | hcall
    · exact pieces_undisturbed
    · exact List.mem_singleton.1 hcall ▸ pieces_undisturbed
  exact ⟨((wire_framing 5).1 [[7, 8, 9], [6]] [pieces, pieces] [0, 0, 0, 3, 7, 8, 9, 0, 0, 0, 1, 6] [0] (by decide) rfl
      rfl).2 hcalls |>.2 (by decide),
    ((wire_framing 5).2.1 6 [1] pieces (by decide) (by decide)).1,
    ((wire_framing 5).2.2 [7, 8] _ [0, 0, 0, 2, 7] pieces hframe (by decide) (by decide)).2 (by decide)⟩

-- two frames in pieces, with a tick and an interruption between them
example :
    readFrames 5 [⟨9, [⟨false, 0, .ready 2⟩, ⟨false, 1, .err ⟨.wouldBlock, []⟩⟩, ⟨false, 2, .ready 9⟩,
        ⟨false, 3, .ready 0⟩, ⟨false, 4, .ready 7⟩]⟩,
      ⟨9, [⟨false, 5, .ready 9⟩, ⟨false, 6, .err ⟨.interrupted, []⟩⟩, ⟨false, 7, .ready 9⟩]⟩]
      [0, 0, 0, 3, 7, 8, 9, 0, 0, 0, 1, 6, 0] = .ok [[7, 8, 9], [6]] ⟨[0], []⟩ := by
  decide

end FileSec.Peer
