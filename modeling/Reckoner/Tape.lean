/-!
# The tape

A record of completed calculations, newest first, that holds a limited number of them. Entries reach it
directly or wait in an inbox until they are taken over, in the order they were sent.
-/

namespace Reckoner

/-- A calculation on the tape, with a stamp that says when it was made. -/
structure Entry (τ : Type) where
  expression : String
  result : String
  stamp : τ
  deriving DecidableEq, Repr

namespace Entry

variable {τ : Type}

/-- Whether there is anything to keep: neither expression nor result may be empty. -/
def isComplete (e : Entry τ) : Bool :=
  e.expression != "" && e.result != ""

end Entry

/-- A tape with room for `limit` entries, newest first. -/
structure Tape (τ : Type) where
  limit : Nat
  entries : List (Entry τ)

/-- Entries on their way to a tape, oldest first, until the inbox is closed. -/
structure Inbox (τ : Type) where
  waiting : List (Entry τ)
  isOpen : Bool

namespace Inbox

variable {τ : Type}

/-- An open inbox without entries. -/
def empty : Inbox τ := ⟨[], true⟩

/-- Puts an entry behind those that wait; a closed inbox loses it. -/
def send (inbox : Inbox τ) (e : Entry τ) : Inbox τ :=
  if inbox.isOpen then { inbox with waiting := inbox.waiting ++ [e] } else inbox

/-- Puts entries in order behind those that wait. -/
def sendAll (inbox : Inbox τ) (es : List (Entry τ)) : Inbox τ :=
  es.foldl send inbox

/-- Closes the inbox, with the loss of what waits in it. -/
def close (_ : Inbox τ) : Inbox τ := ⟨[], false⟩

end Inbox

namespace Tape

variable {τ : Type}

/-- The room on a tape unless told otherwise. -/
def defaultLimit : Nat := 50

/-- A tape without entries. -/
def blank (limit : Nat) : Tape τ := ⟨limit, []⟩

/-- Whether an entry would be kept. -/
def accepts (t : Tape τ) (e : Entry τ) : Bool :=
  e.isComplete && t.limit != 0

/-- Puts an entry in front, if there is anything to keep and any room at all; the oldest entries over the
limit are lost. -/
def record (t : Tape τ) (e : Entry τ) : Tape τ :=
  if t.accepts e then { t with entries := (e :: t.entries).take t.limit } else t

/-- Takes over entries in order. -/
def recordAll (t : Tape τ) (es : List (Entry τ)) : Tape τ :=
  es.foldl record t

/-- How many entries would be kept on the way through. -/
def countKept (t : Tape τ) (es : List (Entry τ)) : Nat :=
  es.countP t.accepts

/-- The newest entry. -/
def latest? (t : Tape τ) : Option (Entry τ) :=
  t.entries.head?

/-- The entry with a number in the listing, which counts from one at the newest; zero also means the
newest. -/
def numbered? (t : Tape τ) (n : Nat) : Option (Entry τ) :=
  t.entries[n - 1]?

/-- The tape without entries. -/
def erase (t : Tape τ) : Tape τ :=
  { t with entries := [] }

end Tape
end Reckoner
