import FileSec.Peer.Gate

/-!
# The listener

The accept loop of the receiving side, its connection threads and the user's commands (`net/listener.rs`) as a machine
whose events are the steps the threads take one at a time.  Commands carry no name of the offer they are about: they wait
in the queue of the loop, are routed to the channel of whichever connection owns the transfer, and are discarded or
obeyed there.  `history` records what the user and the connections have done.
-/

namespace FileSec.Peer

open Runs

/-- `NetCommand` -/
inductive NetCommand where
  | acceptOffer
  | rejectOffer
  | cancel
  | stop
  deriving DecidableEq, Repr

/-- A command under way, with the place in the history where the user issued it. -/
abbrev Command := NetCommand × Nat

/-- Where a connection thread is in `handle_conn`. -/
inductive Phase where
  | absent
  | handshaking
  /-- It has set `transfer_active`. -/
  | admitted
  /-- It has registered its channel and reads the offer. -/
  | reading
  /-- It has read and checked the offer. -/
  | checked
  /-- The offer has been emitted. -/
  | deciding
  | decided (accept : Bool)
  | receiving
  /-- `ActiveGuard::drop` begins. -/
  | leaving
  /-- `ActiveGuard::drop` has cleared `active_cmd`. -/
  | cleared
  | gone
  deriving DecidableEq, Repr

/-- The connection is between acquiring `transfer_active` and dropping its `ActiveGuard`. -/
def Phase.holds : Phase → Bool
  | .absent | .handshaking | .gone => false
  | _ => true

/-- The connection has the receiver of its channel. -/
def Phase.live : Phase → Bool
  | .reading | .checked | .deciding | .decided _ | .receiving => true
  | _ => false

/-- A connection: where it is, and the commands in its channel. -/
structure Conn where
  phase : Phase
  decRx : List Command

/-- Where the accept loop is with a command it has taken; `last` says that it returns afterwards. -/
inductive Router where
  | idle
  /-- `forward_command` has not looked at `active_cmd` yet. -/
  | routing (c : Command) (last : Bool)
  /-- `forward_command` has cloned the sender of a connection, if there was one. -/
  | sending (receiver : Option Nat) (c : Command) (last : Bool)
  | returned

/-- What has been done. -/
inductive Entry where
  | issued (cmd : NetCommand)
  | acquired (i : Nat)
  | released (i : Nat)
  | received (i : Nat) (cmd : NetCommand)
  | offer (i : Nat)
  | decision (i : Nat) (accept : Bool)
  deriving DecidableEq, Repr

/-- The listener with its connections. -/
structure Listener where
  commands : List Command
  router : Router
  stop : Bool
  transferActive : Bool
  activeCmd : Option Nat
  conns : Nat → Conn
  history : List Entry

/-- The steps of the user, the accept loop and the connection threads. -/
inductive ListenerEvent where
  | issue (cmd : NetCommand)
  | hangUp
  | route
  | acceptFails
  | connect (i : Nat)
  | acquire (i : Nat)
  | register (i : Nat)
  | poll (i : Nat)
  | decline (i : Nat)
  | offerRead (i : Nat)
  | emitOffer (i : Nat)
  | waitDecision (i : Nat)
  | sendDecision (i : Nat)
  | leave (i : Nat)
  | clearCmd (i : Nat)
  | release (i : Nat)

/-- A listener that nobody has connected to. -/
def Listener.start : Listener := ⟨[], .idle, false, false, none, fun _ => ⟨.absent, []⟩, []⟩

/-- A connection changes, and something is recorded. -/
def Listener.put (s : Listener) (i : Nat) (c : Conn) (entries : List Entry) : Listener :=
  { s with conns := Function.update s.conns i c, history := s.history ++ entries }

/-- The accept loop takes its next step with a command. -/
def Listener.route (s : Listener) : Listener :=
  match s.router with
  | .idle =>
    match s.commands with
    | [] => s
    | (.stop, n) :: rest => { s with commands := rest, stop := true, router := .routing (.cancel, n) true }
    | c :: rest => { s with commands := rest, router := .routing c false }
  | .routing c last => { s with router := .sending s.activeCmd c last }
  | .sending receiver c last =>
    let s := { s with router := if last then .returned else .idle }
    match receiver with
    | none => s
    | some i =>
      if (s.conns i).phase.live then s.put i { s.conns i with decRx := (s.conns i).decRx ++ [c] } [] else s
  | .returned => s

/-- `transfer_cancelled` and the check at the beginning of a round of `receive_into`: one command is taken and, unless
it cancels, discarded. -/
def Listener.poll (s : Listener) (i : Nat) : Listener :=
  if s.stop then s.put i ⟨.leaving, []⟩ []
  else
    match (s.conns i).decRx with
    | [] => s
    | (cmd, _) :: rest =>
      if cmd = .cancel ∨ cmd = .stop then s.put i ⟨.leaving, []⟩ [.received i cmd]
      else s.put i ⟨(s.conns i).phase, rest⟩ [.received i cmd]

/-- One round of `wait_decision`. -/
def Listener.waitDecision (s : Listener) (i : Nat) : Listener :=
  if s.stop then s.put i ⟨.leaving, []⟩ []
  else
    match (s.conns i).decRx with
    | [] => s
    | (.acceptOffer, _) :: rest => s.put i ⟨.decided true, rest⟩ [.received i .acceptOffer]
    | (.rejectOffer, _) :: rest => s.put i ⟨.decided false, rest⟩ [.received i .rejectOffer]
    | (cmd, _) :: _ => s.put i ⟨.leaving, []⟩ [.received i cmd]

/-- One step of one of the threads; a step that is not due changes nothing. -/
def Listener.step (s : Listener) : ListenerEvent → Listener
  | .issue cmd => { s with commands := s.commands ++ [(cmd, s.history.length)], history := s.history ++ [.issued cmd] }
  -- the user's end of the queue is gone, which counts as `Stop`
  | .hangUp =>
    match s.router, s.commands with
    | .idle, [] => { s with stop := true, router := .routing (.cancel, 0) true }
    | _, _ => s
  | .route => s.route
  | .acceptFails =>
    match s.router with
    | .idle => { s with stop := true, router := .returned }
    | _ => s
  | .connect i =>
    match s.router, (s.conns i).phase with
    | .idle, .absent => s.put i ⟨.handshaking, []⟩ []
    | _, _ => s
  -- `compare_exchange` on `transfer_active`
  | .acquire i =>
    match (s.conns i).phase with
    | .handshaking =>
      if s.transferActive then s.put i ⟨.gone, []⟩ []
      else { s.put i ⟨.admitted, []⟩ [.acquired i] with transferActive := true }
    | _ => s
  | .register i =>
    match (s.conns i).phase with
    | .admitted => { s.put i ⟨.reading, []⟩ [] with activeCmd := some i }
    | _ => s
  | .poll i =>
    match (s.conns i).phase with
    | .reading | .receiving => s.poll i
    | _ => s
  -- there is no room for the transfer
  | .decline i =>
    match (s.conns i).phase with
    | .reading => s.put i ⟨.leaving, []⟩ [.decision i false]
    | _ => s
  | .offerRead i =>
    match (s.conns i).phase with
    | .reading => s.put i ⟨.checked, (s.conns i).decRx⟩ []
    | _ => s
  | .emitOffer i =>
    match (s.conns i).phase with
    | .checked => s.put i ⟨.deciding, (s.conns i).decRx⟩ [.offer i]
    | _ => s
  | .waitDecision i =>
    match (s.conns i).phase with
    | .deciding => s.waitDecision i
    | _ => s
  | .sendDecision i =>
    match (s.conns i).phase with
    | .decided accept =>
      s.put i (if accept then ⟨.receiving, (s.conns i).decRx⟩ else ⟨.leaving, []⟩) [.decision i accept]
    | _ => s
  -- an error, a timeout or the end of the transfer
  | .leave i =>
    match (s.conns i).phase with
    | .handshaking => s.put i ⟨.gone, []⟩ []
    | .admitted | .reading | .checked | .deciding | .decided _ | .receiving => s.put i ⟨.leaving, []⟩ []
    | _ => s
  | .clearCmd i =>
    match (s.conns i).phase with
    | .leaving => { s.put i ⟨.cleared, []⟩ [] with activeCmd := none }
    | _ => s
  | .release i =>
    match (s.conns i).phase with
    | .cleared => { s.put i ⟨.gone, []⟩ [.released i] with transferActive := false }
    | _ => s

/-- The connection that holds the transfer after an entry of the history. -/
def Entry.after (holder : Option Nat) : Entry → Option Nat
  | .acquired i => some i
  | .released _ => none
  | _ => holder

/-- What may happen while `holder` holds the transfer. -/
def Entry.Allowed (holder : Option Nat) : Entry → Prop
  | .acquired _ => holder = none
  | .released i => holder = some i
  | .received i _ => holder = some i
  | _ => True

/-- The connection that holds the transfer. -/
def Listener.holder (s : Listener) : Option Nat := run Entry.after none s.history

/-- The command that the accept loop is forwarding to a connection that owns the transfer. -/
def Router.toward (i : Nat) : Router → List Command
  | .routing c _ => [c]
  | .sending receiver c _ => if receiver = some i then [c] else []
  | _ => []

/-- The commands that a connection will receive as long as it owns the transfer, in their order: those in its channel, the
one being forwarded to it and those in the queue. -/
def Listener.pending (s : Listener) (i : Nat) : List Command := (s.conns i).decRx ++ s.router.toward i ++ s.commands

/-- An offer is emitted only when the next command for its connection, if there is one already, is no acceptance. -/
def Listener.Clean (s : Listener) : ListenerEvent → Prop
  | .emitOffer i => (s.conns i).phase = .checked → (s.pending i).head?.map Prod.fst ≠ some .acceptOffer
  | _ => True

/-! ### Who holds the transfer -/

/-- What holds at every time of the owner of the transfer. -/
structure Listener.Sound (s : Listener) : Prop where
  holds : ∀ i, (s.conns i).phase.holds = true ↔ s.holder = some i
  flag : s.transferActive = s.holder.isSome
  active_of : ∀ i, s.activeCmd = some i → (s.conns i).phase.live = true ∨ (s.conns i).phase = .leaving
  live_active : ∀ i, (s.conns i).phase.live = true → s.activeCmd = some i
  orderly : Along Entry.after Entry.Allowed none s.history

variable {s : Listener} {i j : Nat} {c : Conn} {entries : List Entry}

theorem Phase.holds_of_live {p : Phase} (h : p.live = true) : p.holds = true := by
  cases p <;> simp_all [Phase.live, Phase.holds]

@[simp] theorem put_self : (s.put i c entries).conns i = c := Function.update_self ..

theorem put_other (h : j ≠ i) : (s.put i c entries).conns j = s.conns j := Function.update_of_ne h ..

@[simp] theorem put_history : (s.put i c entries).history = s.history ++ entries := rfl

theorem put_holder : (s.put i c entries).holder = run Entry.after s.holder entries := run_append

theorem listener_sound : Listener.start.Sound where
  holds i := by simp [Listener.start, Phase.holds, Listener.holder]
  flag := rfl
  active_of i h := by cases h
  live_active i h := by cases h
  orderly := trivial

/-- Only the phases of the connections matter. -/
theorem Listener.Sound.congr {s' : Listener} (h : s.Sound) (hhistory : s'.history = s.history)
    (hflag : s'.transferActive = s.transferActive) (hactive : s'.activeCmd = s.activeCmd)
    (hphase : ∀ i, (s'.conns i).phase = (s.conns i).phase) : s'.Sound where
  holds i := by
    rw [hphase, Listener.holder, hhistory]
    exact h.holds i
  flag := by
    rw [hflag, Listener.holder, hhistory]
    exact h.flag
  active_of i hi := by
    rw [hphase]
    exact h.active_of i (hactive ▸ hi)
  live_active i hi := by
    rw [hactive]
    exact h.live_active i (hphase i ▸ hi)
  orderly := by
    rw [hhistory]
    exact h.orderly

/-- The owner of the transfer goes on. -/
theorem Listener.Sound.move (h : s.Sound) (hi : (s.conns i).phase.holds = true) (hc : c.phase.holds = true)
    (hlive : c.phase.live = true → (s.conns i).phase.live = true)
    (hkeep : s.activeCmd = some i → c.phase.live = true ∨ c.phase = .leaving)
    (hafter : run Entry.after (some i) entries = some i) (hallowed : Along Entry.after Entry.Allowed (some i) entries) :
    (s.put i c entries).Sound := by
  have hholder : s.holder = some i := (h.holds i).1 hi
  have hholder' : (s.put i c entries).holder = s.holder := by
    rw [put_holder, hholder, hafter]
  refine ⟨fun j => ?_, ?_, fun j hj => ?_, fun j hj => ?_, ?_⟩
  · rw [hholder']
    by_cases hji : j = i
    · subst hji
      simp [hc, hholder]
    · rw [put_other hji]
      exact h.holds j
  · rw [hholder']
    exact h.flag
  · by_cases hji : j = i
    · subst hji
      rw [put_self]
      exact hkeep hj
    · rw [put_other hji]
      exact h.active_of j hj
  · by_cases hji : j = i
    · subst hji
      rw [put_self] at hj
      exact h.live_active j (hlive hj)
    · rw [put_other hji] at hj
      exact h.live_active j hj
  · rw [put_history, along_append]
    refine ⟨h.orderly, ?_⟩
    change Along Entry.after Entry.Allowed s.holder entries
    rw [hholder]
    exact hallowed

/-- A connection that does not own the transfer goes on. -/
theorem Listener.Sound.outside (h : s.Sound) (hi : (s.conns i).phase.holds = false) (hc : c.phase.holds = false) :
    (s.put i c []).Sound := by
  have hne : s.holder ≠ some i := fun hh => by
    rw [(h.holds i).2 hh] at hi
    cases hi
  have hlive : c.phase.live ≠ true := fun hl => by
    rw [Phase.holds_of_live hl] at hc
    cases hc
  have hactive : s.activeCmd ≠ some i := fun ha => by
    rcases h.active_of i ha with hl | hl
    · rw [Phase.holds_of_live hl] at hi
      cases hi
    · rw [hl] at hi
      cases hi
  have hholder' : (s.put i c []).holder = s.holder := put_holder
  refine ⟨fun j => ?_, ?_, fun j hj => ?_, fun j hj => ?_, ?_⟩
  · rw [hholder']
    by_cases hji : j = i
    · subst hji
      simp [hc, hne]
    · rw [put_other hji]
      exact h.holds j
  · rw [hholder']
    exact h.flag
  · have hji : j ≠ i := fun hji => hactive (hji ▸ hj)
    rw [put_other hji]
    exact h.active_of j hj
  · by_cases hji : j = i
    · subst hji
      rw [put_self] at hj
      exact absurd hj hlive
    · rw [put_other hji] at hj
      exact h.live_active j hj
  · rw [put_history, List.append_nil]
    exact h.orderly

/-- While one connection owns the transfer, no other connection does. -/
theorem Listener.Sound.unique (h : s.Sound) (hi : (s.conns i).phase.holds = true) (hj : (s.conns j).phase.holds = true) :
    i = j :=
  Option.some.inj (((h.holds i).1 hi).symm.trans ((h.holds j).1 hj))

theorem Listener.Sound.route (h : s.Sound) : s.route.Sound := by
  unfold Listener.route
  split
  · split
    · exact h
    · exact h.congr rfl rfl rfl fun _ => rfl
    · exact h.congr rfl rfl rfl fun _ => rfl
  · exact h.congr rfl rfl rfl fun _ => rfl
  · dsimp only
    split
    · exact h.congr rfl rfl rfl fun _ => rfl
    · split
      · rename_i i _ _
        refine h.congr (List.append_nil _) rfl rfl fun j => ?_
        by_cases hji : j = i
        · subst hji
          rw [put_self]
        · rw [put_other hji]
      · exact h.congr rfl rfl rfl fun _ => rfl
  · exact h

/-- The owner stops. -/
theorem Listener.Sound.abandon (h : s.Sound) (hi : (s.conns i).phase.holds = true)
    (hafter : run Entry.after (some i) entries = some i) (hallowed : Along Entry.after Entry.Allowed (some i) entries) :
    (s.put i ⟨.leaving, []⟩ entries).Sound :=
  h.move hi rfl (fun hl => by cases hl) (fun _ => Or.inr rfl) hafter hallowed

theorem Listener.Sound.poll (h : s.Sound) (hi : (s.conns i).phase.live = true) : (s.poll i).Sound := by
  have hholds := Phase.holds_of_live hi
  unfold Listener.poll
  split
  · exact h.abandon hholds rfl trivial
  · split
    · exact h
    · split
      · exact h.abandon hholds rfl ⟨rfl, trivial⟩
      · exact h.move hholds hholds (fun hl => hl) (fun _ => Or.inl hi) rfl ⟨rfl, trivial⟩

theorem Listener.Sound.waitDecision (h : s.Sound) (hi : (s.conns i).phase.live = true) : (s.waitDecision i).Sound := by
  have hholds := Phase.holds_of_live hi
  unfold Listener.waitDecision
  split
  · exact h.abandon hholds rfl trivial
  · split
    · exact h
    · exact h.move hholds rfl (fun _ => hi) (fun _ => Or.inl rfl) rfl ⟨rfl, trivial⟩
    · exact h.move hholds rfl (fun _ => hi) (fun _ => Or.inl rfl) rfl ⟨rfl, trivial⟩
    · exact h.abandon hholds rfl ⟨rfl, trivial⟩

theorem Listener.Sound.acquire (h : s.Sound) (hi : (s.conns i).phase = .handshaking) (hflag : s.transferActive = false) :
    Listener.Sound { s.put i ⟨.admitted, []⟩ [.acquired i] with transferActive := true } := by
  have hnone : s.holder = none := by
    have := h.flag
    rw [hflag] at this
    exact Option.isNone_iff_eq_none.1 (by simpa using this.symm)
  have hfree : ∀ j, (s.conns j).phase.holds ≠ true := fun j hj => by
    rw [(h.holds j).1 hj] at hnone
    cases hnone
  have hholder : Listener.holder { s.put i ⟨.admitted, []⟩ [.acquired i] with transferActive := true } = some i := run_append
  refine ⟨fun j => ?_, ?_, fun j hj => ?_, fun j hj => ?_, ?_⟩
  · rw [hholder]
    by_cases hji : j = i
    · subst hji
      simp [Phase.holds]
    · dsimp only
      rw [put_other hji]
      simp [hfree j, Ne.symm hji]
  · rw [hholder]
    rfl
  · rcases h.active_of j hj with hl | hl
    · exact absurd (Phase.holds_of_live hl) (hfree j)
    · exact absurd (by rw [hl]; rfl) (hfree j)
  · dsimp only at hj
    by_cases hji : j = i
    · subst hji
      rw [put_self] at hj
      cases hj
    · rw [put_other hji] at hj
      exact absurd (Phase.holds_of_live hj) (hfree j)
  · dsimp only
    rw [put_history, along_append]
    exact ⟨h.orderly, hnone, trivial⟩

theorem Listener.Sound.register (h : s.Sound) (hi : (s.conns i).phase = .admitted) :
    Listener.Sound { s.put i ⟨.reading, []⟩ [] with activeCmd := some i } := by
  have hholds : (s.conns i).phase.holds = true := by rw [hi]; rfl
  have hholder : Listener.holder { s.put i ⟨.reading, []⟩ [] with activeCmd := some i } = some i :=
    run_append.trans ((h.holds i).1 hholds)
  refine ⟨fun j => ?_, ?_, fun j hj => ?_, fun j hj => ?_, ?_⟩
  · rw [hholder]
    dsimp only
    by_cases hji : j = i
    · subst hji
      simp [Phase.holds]
    · rw [put_other hji, h.holds j, (h.holds i).1 hholds]
  · rw [hholder]
    exact h.flag.trans (by rw [(h.holds i).1 hholds])
  · obtain rfl : i = j := Option.some.inj hj
    dsimp only
    rw [put_self]
    exact Or.inl rfl
  · dsimp only at hj ⊢
    by_cases hji : j = i
    · rw [hji]
    · rw [put_other hji] at hj
      exact absurd (h.unique (Phase.holds_of_live hj) hholds) hji
  · dsimp only
    rw [put_history, List.append_nil]
    exact h.orderly

theorem Listener.Sound.clearCmd (h : s.Sound) (hi : (s.conns i).phase = .leaving) :
    Listener.Sound { s.put i ⟨.cleared, []⟩ [] with activeCmd := none } := by
  have hholds : (s.conns i).phase.holds = true := by rw [hi]; rfl
  have hholder : Listener.holder { s.put i ⟨.cleared, []⟩ [] with activeCmd := none } = some i :=
    run_append.trans ((h.holds i).1 hholds)
  refine ⟨fun j => ?_, ?_, fun j hj => ?_, fun j hj => ?_, ?_⟩
  · rw [hholder]
    dsimp only
    by_cases hji : j = i
    · subst hji
      simp [Phase.holds]
    · rw [put_other hji, h.holds j, (h.holds i).1 hholds]
  · rw [hholder]
    exact h.flag.trans (by rw [(h.holds i).1 hholds])
  · cases hj
  · dsimp only at hj ⊢
    by_cases hji : j = i
    · subst hji
      rw [put_self] at hj
      cases hj
    · rw [put_other hji] at hj
      exact absurd (h.unique (Phase.holds_of_live hj) hholds) hji
  · dsimp only
    rw [put_history, List.append_nil]
    exact h.orderly

theorem Listener.Sound.release (h : s.Sound) (hi : (s.conns i).phase = .cleared) :
    Listener.Sound { s.put i ⟨.gone, []⟩ [.released i] with transferActive := false } := by
  have hholds : (s.conns i).phase.holds = true := by rw [hi]; rfl
  have hholder : Listener.holder { s.put i ⟨.gone, []⟩ [.released i] with transferActive := false } = none := run_append
  refine ⟨fun j => ?_, ?_, fun j hj => ?_, fun j hj => ?_, ?_⟩
  · rw [hholder]
    dsimp only
    by_cases hji : j = i
    · subst hji
      simp [Phase.holds]
    · rw [put_other hji]
      simp only [reduceCtorEq, iff_false]
      exact fun hj => hji (h.unique hj hholds)
  · rw [hholder]
    rfl
  · have hji : j ≠ i := by
      rintro rfl
      rcases h.active_of j hj with hl | hl
      · rw [hi] at hl
        cases hl
      · rw [hi] at hl
        cases hl
    dsimp only
    rw [put_other hji]
    exact h.active_of j hj
  · dsimp only at hj ⊢
    by_cases hji : j = i
    · subst hji
      rw [put_self] at hj
      cases hj
    · rw [put_other hji] at hj
      exact h.live_active j hj
  · dsimp only
    rw [put_history, along_append]
    exact ⟨h.orderly, (h.holds i).1 hholds, trivial⟩

theorem Listener.Sound.step (h : s.Sound) (e : ListenerEvent) : (s.step e).Sound := by
  cases e with
  | issue cmd =>
    have hholder : Listener.holder { s with
        commands := s.commands ++ [(cmd, s.history.length)], history := s.history ++ [.issued cmd] } = s.holder := run_append
    refine ⟨fun i => ?_, ?_, h.active_of, h.live_active, ?_⟩
    · unfold Listener.step
      rw [hholder]
      exact h.holds i
    · unfold Listener.step
      rw [hholder]
      exact h.flag
    · exact along_append.2 ⟨h.orderly, trivial, trivial⟩
  | hangUp =>
    unfold Listener.step
    dsimp only
    split
    · exact h.congr rfl rfl rfl fun _ => rfl
    · exact h
  | route => exact h.route
  | acceptFails =>
    unfold Listener.step
    dsimp only
    split
    · exact h.congr rfl rfl rfl fun _ => rfl
    · exact h
  | connect i =>
    unfold Listener.step
    dsimp only
    split
    · rename_i hi
      exact h.outside (by rw [hi]; rfl) rfl
    · exact h
  | acquire i =>
    unfold Listener.step
    dsimp only
    split
    · rename_i hi
      split
      · exact h.outside (by rw [hi]; rfl) rfl
      · rename_i hflag
        exact h.acquire hi (by simpa using hflag)
    · exact h
  | register i =>
    unfold Listener.step
    dsimp only
    split
    · rename_i hi
      exact h.register hi
    · exact h
  | poll i =>
    unfold Listener.step
    dsimp only
    split
    · rename_i hi
      exact h.poll (by rw [hi]; rfl)
    · rename_i hi
      exact h.poll (by rw [hi]; rfl)
    · exact h
  | decline i =>
    unfold Listener.step
    dsimp only
    split
    · rename_i hi
      exact h.abandon (by rw [hi]; rfl) rfl ⟨trivial, trivial⟩
    · exact h
  | offerRead i =>
    unfold Listener.step
    dsimp only
    split
    · rename_i hi
      exact h.move (by rw [hi]; rfl) rfl (fun _ => by rw [hi]; rfl) (fun _ => Or.inl rfl) rfl trivial
    · exact h
  | emitOffer i =>
    unfold Listener.step
    dsimp only
    split
    · rename_i hi
      exact h.move (by rw [hi]; rfl) rfl (fun _ => by rw [hi]; rfl) (fun _ => Or.inl rfl) rfl ⟨trivial, trivial⟩
    · exact h
  | waitDecision i =>
    unfold Listener.step
    dsimp only
    split
    · rename_i hi
      exact h.waitDecision (by rw [hi]; rfl)
    · exact h
  | sendDecision i =>
    unfold Listener.step
    dsimp only
    split
    · rename_i accept hi
      cases accept with
      | true =>
        exact h.move (by rw [hi]; rfl) rfl (fun _ => by rw [hi]; rfl) (fun _ => Or.inl rfl) rfl ⟨trivial, trivial⟩
      | false => exact h.abandon (by rw [hi]; rfl) rfl ⟨trivial, trivial⟩
    · exact h
  | leave i =>
    unfold Listener.step
    dsimp only
    split
    · rename_i hi
      exact h.outside (by rw [hi]; rfl) rfl
    all_goals
      rename_i hi
      first
        | exact h.abandon (by rw [hi]; rfl) rfl trivial
        | exact h
  | clearCmd i =>
    unfold Listener.step
    dsimp only
    split
    · rename_i hi
      exact h.clearCmd hi
    · exact h
  | release i =>
    unfold Listener.step
    dsimp only
    split
    · rename_i hi
      exact h.release hi
    · exact h

/-! ### Which commands are obeyed -/

/-- The command that the accept loop has taken. -/
def Router.carried : Router → List Command
  | .routing c _ => [c]
  | .sending _ c _ => [c]
  | _ => []

/-- The command is under way. -/
def Listener.Carries (s : Listener) (c : Command) : Prop :=
  c ∈ s.commands ∨ c ∈ s.router.carried ∨ ∃ i, c ∈ (s.conns i).decRx

/-- In the history, the offer of the connection has been emitted and then, at the place `n`, accepted. -/
def Accepted (history : List Entry) (i n : Nat) : Prop :=
  ∃ a < n, history[a]? = some (.offer i) ∧ history[n]? = some (.issued .acceptOffer)

/-- What holds of the acceptances at every time of a clean run. -/
structure Listener.Consent (s : Listener) : Prop where
  issued : ∀ n, s.Carries (.acceptOffer, n) → s.history[n]? = some (.issued .acceptOffer)
  deciding : ∀ i, (s.conns i).phase = .deciding → ∃ a, s.history[a]? = some (.offer i) ∧
    ∀ n rest, s.pending i = (.acceptOffer, n) :: rest → a < n
  decided : ∀ i, (s.conns i).phase = .decided true → ∃ n, Accepted s.history i n
  sent : ∀ k i, s.history[k]? = some (.decision i true) → ∃ n < k, Accepted s.history i n

private theorem kept {history entries : List Entry} {k : Nat} {e : Entry} (h : history[k]? = some e) :
    (history ++ entries)[k]? = some e := by
  rw [List.getElem?_append_left (List.getElem?_eq_some_iff.1 h).1]
  exact h

private theorem Accepted.kept {history entries : List Entry} {n : Nat} (h : Accepted history i n) :
    Accepted (history ++ entries) i n := by
  obtain ⟨a, ha, hoffer, hissued⟩ := h
  exact ⟨a, ha, FileSec.Peer.kept hoffer, FileSec.Peer.kept hissued⟩

private theorem Accepted.lt {history : List Entry} {n : Nat} (h : Accepted history i n) : n < history.length := by
  obtain ⟨a, -, -, hissued⟩ := h
  exact (List.getElem?_eq_some_iff.1 hissued).1

/-- A decision in a longer history is an old one or among the new entries. -/
private theorem sent_append {history entries : List Entry}
    (h : ∀ k i, history[k]? = some (.decision i true) → ∃ n < k, Accepted history i n)
    (hnew : ∀ i, .decision i true ∈ entries → ∃ n, Accepted history i n) (k i : Nat)
    (hk : (history ++ entries)[k]? = some (.decision i true)) : ∃ n < k, Accepted (history ++ entries) i n := by
  by_cases hlt : k < history.length
  · rw [List.getElem?_append_left hlt] at hk
    obtain ⟨n, hn, hacc⟩ := h k i hk
    exact ⟨n, hn, hacc.kept⟩
  · rw [List.getElem?_append_right (by omega)] at hk
    obtain ⟨n, hacc⟩ := hnew i (List.mem_of_getElem? hk)
    have := hacc.lt
    exact ⟨n, by omega, hacc.kept⟩

theorem listener_consent : Listener.start.Consent where
  issued n h := by
    rcases h with h | h | ⟨i, h⟩
    · cases h
    · cases h
    · cases h
  deciding i h := by cases h
  decided i h := by cases h
  sent k i h := by cases h

theorem pending_put_other (h : j ≠ i) : (s.put i c entries).pending j = s.pending j := by
  unfold Listener.pending
  rw [put_other h]
  rfl

theorem pending_put_self (h : c.decRx = (s.conns i).decRx) : (s.put i c entries).pending i = s.pending i := by
  unfold Listener.pending
  rw [put_self, h]
  rfl

/-- One connection goes on; what it keeps in its channel it had there. -/
theorem Listener.Consent.put (h : s.Consent) (hsub : ∀ x ∈ c.decRx, x ∈ (s.conns i).decRx)
    (hdeciding : c.phase = .deciding → ∃ a, (s.history ++ entries)[a]? = some (.offer i) ∧
      ∀ n rest, (s.put i c entries).pending i = (.acceptOffer, n) :: rest → a < n)
    (hdecided : c.phase = .decided true → ∃ n, Accepted s.history i n)
    (hentries : ∀ j, .decision j true ∈ entries → ∃ n, Accepted s.history j n) : (s.put i c entries).Consent := by
  refine ⟨fun n hn => kept (h.issued n ?_), fun j hj => ?_, fun j hj => ?_, sent_append h.sent hentries⟩
  · rcases hn with hn | hn | ⟨j, hn⟩
    · exact Or.inl hn
    · exact Or.inr (Or.inl hn)
    · by_cases hji : j = i
      · subst hji
        rw [put_self] at hn
        exact Or.inr (Or.inr ⟨j, hsub _ hn⟩)
      · rw [put_other hji] at hn
        exact Or.inr (Or.inr ⟨j, hn⟩)
  · by_cases hji : j = i
    · subst hji
      rw [put_self] at hj
      exact hdeciding hj
    · rw [put_other hji] at hj
      obtain ⟨a, ha, hpending⟩ := h.deciding j hj
      exact ⟨a, kept ha, fun n rest hn => hpending n rest (by rwa [pending_put_other hji] at hn)⟩
  · by_cases hji : j = i
    · subst hji
      rw [put_self] at hj
      obtain ⟨n, hacc⟩ := hdecided hj
      exact ⟨n, hacc.kept⟩
    · rw [put_other hji] at hj
      obtain ⟨n, hacc⟩ := h.decided j hj
      exact ⟨n, hacc.kept⟩

/-- One connection goes on in a phase in which nothing is decided. -/
theorem Listener.Consent.put_plain (h : s.Consent) (hsub : ∀ x ∈ c.decRx, x ∈ (s.conns i).decRx)
    (hdeciding : c.phase ≠ .deciding) (hdecided : c.phase ≠ .decided true)
    (hentries : ∀ j, .decision j true ∉ entries) : (s.put i c entries).Consent :=
  h.put hsub (fun hp => absurd hp hdeciding) (fun hp => absurd hp hdecided) fun j hj => absurd hj (hentries j)

/-- The accept loop goes on: no new commands, and what the connections will receive next stays as it was. -/
theorem Listener.Consent.loop {s' : Listener} (h : s.Consent) (hhistory : s'.history = s.history)
    (hcarries : ∀ n, s'.Carries (.acceptOffer, n) → s.Carries (.acceptOffer, n))
    (hphase : ∀ i, (s'.conns i).phase = (s.conns i).phase)
    (hpending : ∀ i, (s.conns i).phase = .deciding → ∀ n rest, s'.pending i = (.acceptOffer, n) :: rest →
      ∃ rest', s.pending i = (.acceptOffer, n) :: rest') : s'.Consent := by
  refine ⟨fun n hn => ?_, fun i hi => ?_, fun i hi => ?_, ?_⟩
  · rw [hhistory]
    exact h.issued n (hcarries n hn)
  · rw [hphase] at hi
    obtain ⟨a, ha, hnext⟩ := h.deciding i hi
    rw [hhistory]
    refine ⟨a, ha, fun n rest hn => ?_⟩
    obtain ⟨rest', hn⟩ := hpending i hi n rest hn
    exact hnext n rest' hn
  · rw [hphase] at hi
    rw [hhistory]
    exact h.decided i hi
  · rw [hhistory]
    exact h.sent

theorem Listener.Consent.issue (h : s.Consent) (cmd : NetCommand) : (s.step (.issue cmd)).Consent := by
  unfold Listener.step
  refine ⟨fun n hn => ?_, fun i hi => ?_, fun i hi => ?_, sent_append h.sent ?_⟩
  · dsimp only at hn ⊢
    rcases hn with hn | hn | hn
    · rcases List.mem_append.1 hn with hn | hn
      · exact kept (h.issued n (Or.inl hn))
      · simp only [List.mem_singleton, Prod.mk.injEq] at hn
        obtain ⟨rfl, rfl⟩ := hn
        exact List.getElem?_concat_length
    · exact kept (h.issued n (Or.inr (Or.inl hn)))
    · exact kept (h.issued n (Or.inr (Or.inr hn)))
  · obtain ⟨a, ha, hpending⟩ := h.deciding i hi
    refine ⟨a, kept ha, fun n rest hn => ?_⟩
    have hlt := (List.getElem?_eq_some_iff.1 ha).1
    have happend : s.pending i ++ [(cmd, s.history.length)] = (.acceptOffer, n) :: rest := by
      rw [← hn]
      exact List.append_assoc ..
    cases hp : s.pending i with
    | nil =>
      rw [hp] at happend
      simp only [List.nil_append, List.cons.injEq, Prod.mk.injEq] at happend
      omega
    | cons x rest' =>
      rw [hp, List.cons_append, List.cons.injEq] at happend
      exact hpending n rest' (by rw [hp, happend.1])
  · obtain ⟨n, hacc⟩ := h.decided i hi
    exact ⟨n, hacc.kept⟩
  · intro i hi
    simp at hi

/-- A command other than an acceptance in the place of another is not received as one. -/
private theorem head_replaced {l m m' rest : List Command} {x y : Command} {n : Nat} (hy : y.1 ≠ .acceptOffer)
    (h : l ++ [y] ++ m = (.acceptOffer, n) :: rest) : ∃ rest', l ++ x :: m' = (.acceptOffer, n) :: rest' := by
  cases l with
  | nil =>
    simp only [List.nil_append, List.singleton_append, List.cons.injEq] at h
    exact absurd (by rw [h.1]) hy
  | cons z l =>
    rw [List.cons_append, List.cons_append, List.cons.injEq] at h
    exact ⟨l ++ x :: m', by rw [List.cons_append, h.1]⟩

theorem Listener.Consent.route (h : s.Consent) (hs : s.Sound) : s.route.Consent := by
  unfold Listener.route
  split
  · rename_i hidle
    split
    · exact h
    · rename_i n rest hcommands
      refine h.loop rfl (fun m hm => ?_) (fun _ => rfl) fun i hi m rest' hm => ?_
      · rcases hm with hm | hm | hm
        · exact Or.inl (by rw [hcommands]; exact List.mem_cons_of_mem _ hm)
        · simp [Router.carried] at hm
        · exact Or.inr (Or.inr hm)
      · unfold Listener.pending at hm ⊢
        rw [hidle, hcommands]
        simp only [Router.toward, List.append_nil] at hm ⊢
        exact head_replaced (by simp) hm
    · rename_i c rest _ hcommands
      refine h.loop rfl (fun m hm => ?_) (fun _ => rfl) fun i hi m rest' hm => ⟨rest', ?_⟩
      · rcases hm with hm | hm | hm
        · exact Or.inl (by rw [hcommands]; exact List.mem_cons_of_mem _ hm)
        · refine Or.inl ?_
          rw [hcommands, List.mem_singleton.1 hm]
          exact List.mem_cons_self
        · exact Or.inr (Or.inr hm)
      · rw [← hm]
        unfold Listener.pending
        rw [hidle, hcommands]
        simp [Router.toward]
  · rename_i c last hrouting
    refine h.loop rfl (fun m hm => ?_) (fun _ => rfl) fun i hi m rest' hm => ⟨rest', ?_⟩
    · rcases hm with hm | hm | hm
      · exact Or.inl hm
      · exact Or.inr (Or.inl (by rw [hrouting]; exact hm))
      · exact Or.inr (Or.inr hm)
    · -- the deciding connection owns the transfer
      have hactive : s.activeCmd = some i := hs.live_active i (by rw [hi]; rfl)
      rw [← hm]
      unfold Listener.pending
      rw [hrouting]
      simp [Router.toward, hactive]
  · rename_i receiver c last hsending
    have hcarried : (if last then Router.returned else Router.idle).carried = [] := by cases last <;> rfl
    have htoward : ∀ i, (if last then Router.returned else Router.idle).toward i = [] := by cases last <;> exact fun _ => rfl
    dsimp only
    split
    · refine h.loop rfl (fun m hm => ?_) (fun _ => rfl) fun i hi m rest' hm => ⟨rest', ?_⟩
      · rcases hm with hm | hm | hm
        · exact Or.inl hm
        · rw [hcarried] at hm
          cases hm
        · exact Or.inr (Or.inr hm)
      · rw [← hm]
        unfold Listener.pending
        rw [hsending, htoward]
        rfl
    · rename_i k
      split
      · refine h.loop (List.append_nil _) (fun m hm => ?_) (fun i => ?_) fun i hi m rest' hm => ⟨rest', ?_⟩
        · rcases hm with hm | hm | ⟨i, hm⟩
          · exact Or.inl hm
          · change _ ∈ (if last then Router.returned else Router.idle).carried at hm
            rw [hcarried] at hm
            cases hm
          · by_cases hik : i = k
            · subst hik
              rw [put_self] at hm
              rcases List.mem_append.1 hm with hm | hm
              · exact Or.inr (Or.inr ⟨i, hm⟩)
              · exact Or.inr (Or.inl (by rw [hsending]; exact hm))
            · rw [put_other hik] at hm
              exact Or.inr (Or.inr ⟨i, hm⟩)
        · by_cases hik : i = k
          · subst hik
            rw [put_self]
          · rw [put_other hik]
        · rw [← hm]
          by_cases hik : i = k
          · subst hik
            unfold Listener.pending
            rw [put_self, hsending]
            change _ = (s.conns i).decRx ++ [c] ++ (if last then Router.returned else Router.idle).toward i ++ s.commands
            rw [htoward]
            simp [Router.toward]
          · rw [pending_put_other hik]
            unfold Listener.pending
            rw [hsending, htoward]
            simp [Router.toward, Ne.symm hik]
      · rename_i hdead
        refine h.loop rfl (fun m hm => ?_) (fun _ => rfl) fun i hi m rest' hm => ⟨rest', ?_⟩
        · rcases hm with hm | hm | hm
          · exact Or.inl hm
          · rw [hcarried] at hm
            cases hm
          · exact Or.inr (Or.inr hm)
        · have hik : k ≠ i := by
            rintro rfl
            exact hdead (by rw [hi]; rfl)
          rw [← hm]
          unfold Listener.pending
          rw [hsending, htoward]
          simp [Router.toward, hik]
  · exact h

theorem Listener.Consent.poll (h : s.Consent) (hi : (s.conns i).phase ≠ .deciding)
    (hi' : (s.conns i).phase ≠ .decided true) : (s.poll i).Consent := by
  have hnil : ∀ x ∈ ([] : List Command), x ∈ (s.conns i).decRx := fun x hx => by cases hx
  unfold Listener.poll
  split
  · exact h.put_plain hnil (by simp) (by simp) (by simp)
  · split
    · exact h
    · rename_i cmd n rest hdecRx
      split
      · exact h.put_plain hnil (by simp) (by simp) (by simp)
      · refine h.put_plain (fun x hx => ?_) hi hi' (by simp)
        rw [hdecRx]
        exact List.mem_cons_of_mem _ hx

/-- An acceptance that is obeyed was issued after the offer. -/
theorem Listener.Consent.waitDecision (h : s.Consent) (hi : (s.conns i).phase = .deciding) : (s.waitDecision i).Consent := by
  have hnil : ∀ x ∈ ([] : List Command), x ∈ (s.conns i).decRx := fun x hx => by cases hx
  unfold Listener.waitDecision
  split
  · exact h.put_plain hnil (by simp) (by simp) (by simp)
  · split
    · exact h
    · rename_i n rest hdecRx
      refine h.put (fun x hx => ?_) (fun hp => by cases hp) (fun _ => ?_) (by simp)
      · rw [hdecRx]
        exact List.mem_cons_of_mem _ hx
      · obtain ⟨a, ha, hpending⟩ := h.deciding i hi
        have hmem : (NetCommand.acceptOffer, n) ∈ (s.conns i).decRx := by
          rw [hdecRx]
          exact List.mem_cons_self
        have hissued := h.issued n (Or.inr (Or.inr ⟨i, hmem⟩))
        refine ⟨n, a, ?_, ha, hissued⟩
        unfold Listener.pending at hpending
        rw [hdecRx] at hpending
        exact hpending n _ rfl
    · rename_i n rest hdecRx
      refine h.put_plain (fun x hx => ?_) (by simp) (by simp) (by simp)
      rw [hdecRx]
      exact List.mem_cons_of_mem _ hx
    · exact h.put_plain hnil (by simp) (by simp) (by simp)

theorem Listener.Consent.step (h : s.Consent) (hs : s.Sound) (e : ListenerEvent) (hclean : s.Clean e) :
    (s.step e).Consent := by
  have hnil : ∀ i, ∀ x ∈ ([] : List Command), x ∈ (s.conns i).decRx := fun i x hx => by cases hx
  cases e with
  | issue cmd => exact h.issue cmd
  | hangUp =>
    unfold Listener.step
    dsimp only
    split
    · rename_i hidle hcommands
      refine h.loop rfl (fun m hm => ?_) (fun _ => rfl) fun i hi m rest hm => ?_
      · rcases hm with hm | hm | hm
        · exact Or.inl hm
        · simp [Router.carried] at hm
        · exact Or.inr (Or.inr hm)
      · unfold Listener.pending at hm ⊢
        rw [hcommands] at hm ⊢
        rw [hidle]
        simp only [Router.toward, List.append_nil] at hm ⊢
        cases hdecRx : (s.conns i).decRx with
        | nil => simp [hdecRx] at hm
        | cons x l =>
          rw [hdecRx, List.cons_append, List.cons.injEq] at hm
          exact ⟨l, by rw [hm.1]⟩
    · exact h
  | route => exact h.route hs
  | acceptFails =>
    unfold Listener.step
    dsimp only
    split
    · rename_i hidle
      refine h.loop rfl (fun m hm => ?_) (fun _ => rfl) fun i hi m rest hm => ⟨rest, ?_⟩
      · rcases hm with hm | hm | hm
        · exact Or.inl hm
        · cases hm
        · exact Or.inr (Or.inr hm)
      · rw [← hm]
        unfold Listener.pending
        rw [hidle]
        rfl
    · exact h
  | connect i =>
    unfold Listener.step
    dsimp only
    split
    · exact h.put_plain (hnil i) (by simp) (by simp) (by simp)
    · exact h
  | acquire i =>
    unfold Listener.step
    dsimp only
    split
    · split
      · exact h.put_plain (hnil i) (by simp) (by simp) (by simp)
      · have hput : (s.put i ⟨.admitted, []⟩ [.acquired i]).Consent :=
          h.put_plain (hnil i) (by simp) (by simp) (by simp)
        exact ⟨hput.issued, hput.deciding, hput.decided, hput.sent⟩
    · exact h
  | register i =>
    unfold Listener.step
    dsimp only
    split
    · have hput : (s.put i ⟨.reading, []⟩ []).Consent := h.put_plain (hnil i) (by simp) (by simp) (by simp)
      exact ⟨hput.issued, hput.deciding, hput.decided, hput.sent⟩
    · exact h
  | poll i =>
    unfold Listener.step
    dsimp only
    split
    · rename_i hi
      exact h.poll (by simp [hi]) (by simp [hi])
    · rename_i hi
      exact h.poll (by simp [hi]) (by simp [hi])
    · exact h
  | decline i =>
    unfold Listener.step
    dsimp only
    split
    · exact h.put_plain (hnil i) (by simp) (by simp) (by simp)
    · exact h
  | offerRead i =>
    unfold Listener.step
    dsimp only
    split
    · exact h.put_plain (fun x hx => hx) (by simp) (by simp) (by simp)
    · exact h
  | emitOffer i =>
    unfold Listener.step
    dsimp only
    split
    · rename_i hi
      refine h.put (fun x hx => hx) (fun _ => ⟨s.history.length, List.getElem?_concat_length, fun n rest hn => ?_⟩)
        (fun hp => by cases hp) (by simp)
      have hsame : (s.put i ⟨.deciding, (s.conns i).decRx⟩ [.offer i]).pending i = s.pending i := pending_put_self rfl
      rw [hsame] at hn
      have hhead := hclean hi
      rw [hn] at hhead
      exact absurd rfl hhead
    · exact h
  | waitDecision i =>
    unfold Listener.step
    dsimp only
    split
    · rename_i hi
      exact h.waitDecision hi
    · exact h
  | sendDecision i =>
    unfold Listener.step
    dsimp only
    split
    · rename_i accept hi
      cases accept with
      | true =>
        refine h.put (fun x hx => hx) (fun hp => by cases hp) (fun hp => by cases hp) fun j hj => ?_
        simp only [List.mem_singleton, Entry.decision.injEq, and_true] at hj
        subst hj
        exact h.decided j hi
      | false => exact h.put_plain (hnil i) (by simp) (by simp) (by simp)
    · exact h
  | leave i =>
    unfold Listener.step
    dsimp only
    split
    all_goals
      first
        | exact h.put_plain (hnil i) (by simp) (by simp) (by simp)
        | exact h
  | clearCmd i =>
    unfold Listener.step
    dsimp only
    split
    · have hput : (s.put i ⟨.cleared, []⟩ []).Consent := h.put_plain (hnil i) (by simp) (by simp) (by simp)
      exact ⟨hput.issued, hput.deciding, hput.decided, hput.sent⟩
    · exact h
  | release i =>
    unfold Listener.step
    dsimp only
    split
    · have hput : (s.put i ⟨.gone, []⟩ [.released i]).Consent := h.put_plain (hnil i) (by simp) (by simp) (by simp)
      exact ⟨hput.issued, hput.deciding, hput.decided, hput.sent⟩
    · exact h

/-! ### Consent -/

/-- At any time at most one connection owns the transfer, and only the owner has received commands; where no acceptance is
waiting for a connection when its offer is emitted, a transfer is accepted only by an `AcceptOffer` that the user has
issued after this offer. -/
theorem consent_follows_offer (events : List ListenerEvent) :
    (∀ i j, ((run Listener.step .start events).conns i).phase.holds = true →
      ((run Listener.step .start events).conns j).phase.holds = true → i = j) ∧
    (∀ before i later, (run Listener.step .start events).history = before ++ .acquired i :: later →
      run Entry.after none before = none) ∧
    (∀ before i cmd later, (run Listener.step .start events).history = before ++ .received i cmd :: later →
      run Entry.after none before = some i) ∧
    (Along Listener.step Listener.Clean .start events →
      ∀ k i, (run Listener.step .start events).history[k]? = some (.decision i true) →
        ∃ n < k, Accepted (run Listener.step .start events).history i n) := by
  have h : (run Listener.step .start events).Sound := run_inv Listener.Sound (fun _ e hs => hs.step e) listener_sound
  refine ⟨fun i j hi hj => h.unique hi hj, fun before i later heq => ?_, fun before i cmd later heq => ?_, fun hclean => ?_⟩
  · have horder := h.orderly
    rw [heq, along_append] at horder
    exact horder.2.1
  · have horder := h.orderly
    rw [heq, along_append] at horder
    exact horder.2.1
  · have hconsent : (run Listener.step .start events).Sound ∧ (run Listener.step .start events).Consent :=
      run_along (fun s : Listener => s.Sound ∧ s.Consent) (fun s e hs he => ⟨hs.1.step e, hs.2.step hs.1 e he⟩)
        ⟨listener_sound, listener_consent⟩ hclean
    exact hconsent.2.sent

namespace Sym

/-- An offer that nobody answers in time, and the acceptance that comes too late. -/
def missedOffer : List ListenerEvent :=
  [.connect 0, .acquire 0, .register 0, .offerRead 0, .emitOffer 0, .leave 0, .clearCmd 0, .release 0, .issue .acceptOffer]

/-- The next peer, whose channel is registered and whose offer is read when the command is routed. -/
def nextOffer : List ListenerEvent :=
  [.connect 1, .acquire 1, .register 1, .offerRead 1, .route, .route, .route, .emitOffer 1, .waitDecision 1,
    .sendDecision 1]

end Sym

/-- A late acceptance of one offer accepts the next one. -/
theorem consent_follows_offer_fails :
    (run Listener.step .start (Sym.missedOffer ++ Sym.nextOffer)).history =
        [.acquired 0, .offer 0, .released 0, .issued .acceptOffer, .acquired 1, .offer 1, .received 1 .acceptOffer,
          .decision 1 true] ∧
      ¬ ∀ k i, (run Listener.step .start (Sym.missedOffer ++ Sym.nextOffer)).history[k]? = some (.decision i true) →
        ∃ n < k, Accepted (run Listener.step .start (Sym.missedOffer ++ Sym.nextOffer)).history i n := by
  have hsent : (run Listener.step .start (Sym.missedOffer ++ Sym.nextOffer)).history[7]? = some (.decision 1 true) := by
    decide
  have hnone : ¬ ∃ n < 7, ∃ a < n,
      (run Listener.step .start (Sym.missedOffer ++ Sym.nextOffer)).history[a]? = some (.offer 1) ∧
      (run Listener.step .start (Sym.missedOffer ++ Sym.nextOffer)).history[n]? = some (.issued .acceptOffer) := by
    decide
  exact ⟨by decide, fun h => hnone (h 7 1 hsent)⟩

end FileSec.Peer
