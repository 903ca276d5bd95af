import FileSec.Build

/-!
# Runs of a vault

A vault on a machine, with the process that may have it open: commits, garbage collections, reopenings and crashes, in
any order and with any failures.  A crash in the middle of a call leaves what the call leaves when the machine fails
from there on, so crashes come between calls.
-/

namespace FileSec

open CrashDir Prog

variable {P : Prims}

/-- The machine and the reader the process holds, if it has the vault open. -/
structure World (P : Prims) where
  host : Host P
  reader : Option (VaultReaderV2 P)

/-- What can happen. -/
inductive Event where
  | commit (c : CommitCall)
  | collectGarbage (io : GcIo)
  /-- Drop the reader and open the vault again. -/
  | reopen
  /-- Each file falls back by some versions, and the process is gone. -/
  | crash (top : VaultFile → Nat) (blobs : Str → Nat)

/-- No crash. -/
def Event.Calm : Event → Prop
  | .crash .. => False
  | _ => True

/-- Use the reader, if there is one. -/
def World.onReader {α : Type} (w : World P) (p : SessionM P α) : World P :=
  match w.reader with
  | none => w
  | some r => ⟨(exec p ⟨r, w.host⟩).2.host, some (exec p ⟨r, w.host⟩).2.reader⟩

/-- The machine after a crash. -/
def Host.crash (h : Host P) (top : VaultFile → Nat) (blobs : Str → Nat) : Host P :=
  { h with top := h.top.crash top, blobs := h.blobs.crash blobs }

/-- One event. -/
def World.step (identity : Identity) (w : World P) : Event → World P
  | .commit c => w.onReader (commitWith c.limit c.edits c.io)
  | .collectGarbage io => w.onReader (FileSec.collectGarbage io)
  | .reopen => { w with reader := (openVault P w.host.top.shown identity).toOption }
  | .crash top blobs => ⟨w.host.crash top blobs, none⟩

/-- A run. -/
def World.run (identity : Identity) (w : World P) (events : List Event) : World P := events.foldl (World.step identity) w

variable {identity : Identity} {w : World P}

/-- What holds at the start and after each event holds after a run. -/
theorem World.run_induction (inv : World P → Prop) {events : List Event} (h : inv w)
    (hstep : ∀ w, ∀ e ∈ events, inv w → inv (w.step identity e)) : inv (w.run identity events) := by
  induction events generalizing w with
  | nil => exact h
  | cons e events ih =>
    exact ih (hstep w e (by simp) h) fun w' e' he' => hstep w' e' (by simp [he'])

/-- The world after an event that uses the reader. -/
theorem World.onReader_induction (inv : World P → Prop) {α : Type} {p : SessionM P α} (h : inv w)
    (hp : ∀ r, w.reader = some r → wp p (fun _ s => inv ⟨s.host, some s.reader⟩) ⟨r, w.host⟩) : inv (w.onReader p) := by
  unfold World.onReader
  cases hr : w.reader with
  | none => exact h
  | some r => exact hp r hr

end FileSec
