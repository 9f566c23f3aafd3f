import Reckoner.Tape

/-!
# A tape and its inboxes

A tape that entries reach directly, through a tray that anyone may fill, and through the recorder's inbox
that a machine's completed calculations are sent to.
-/

namespace Reckoner

/-- A tape with a tray and a recorder. -/
structure Intake (τ : Type) where
  tape : Tape τ
  tray : Inbox τ
  recorder : Inbox τ

namespace Intake

variable {τ : Type}

/-- What can happen around a tape. -/
inductive Event (τ : Type)
  /-- An entry is put on the tape. -/
  | record (e : Entry τ)
  /-- An entry is put into the tray. -/
  | send (e : Entry τ)
  /-- The recorder is told of a completed calculation. -/
  | complete (e : Entry τ)
  /-- The tape takes over what is in the tray. -/
  | drain
  /-- The tape takes over what the recorder sent. -/
  | drainRecorder
  /-- The recorder's inbox is closed. -/
  | disconnect
  /-- The tape is erased. -/
  | clear

/-- A blank tape with empty inboxes. -/
def blank (limit : Nat) : Intake τ :=
  ⟨Tape.blank limit, Inbox.empty, Inbox.empty⟩

/-- The state after an event. -/
def step (s : Intake τ) : Event τ → Intake τ
  | .record e => { s with tape := s.tape.record e }
  | .send e => { s with tray := s.tray.send e }
  | .complete e => { s with recorder := s.recorder.send e }
  | .drain =>
    { s with tape := s.tape.recordAll s.tray.waiting, tray := { s.tray with waiting := [] } }
  | .drainRecorder =>
    { s with
      tape := s.tape.recordAll s.recorder.waiting
      recorder := { s.recorder with waiting := [] } }
  | .disconnect => { s with recorder := s.recorder.close }
  | .clear => { s with tape := s.tape.erase }

/-- The state after some events. -/
def run (s : Intake τ) (events : List (Event τ)) : Intake τ :=
  events.foldl step s

/-- How many entries the tape takes from its tray. -/
def drainCount (s : Intake τ) : Nat :=
  s.tape.countKept s.tray.waiting

/-- How many entries the tape takes from the recorder, as long as its inbox is open. -/
def drainRecorderCount? (s : Intake τ) : Option Nat :=
  if s.recorder.isOpen then some (s.tape.countKept s.recorder.waiting) else none

end Intake
end Reckoner
