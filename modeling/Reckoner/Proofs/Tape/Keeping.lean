import Reckoner.Tape

/-!
# What a tape keeps

A tape is cut to its limit whenever an entry is put in front, which comes to the same as keeping everything and
looking at the newest entries alone: a tape that `Holds` the newest of some things holds the newest of one more
after `record`, and of any number more after `recordAll`. The entries are seen through a view, since what they are
compared with need not be stamped.
-/

namespace Reckoner

variable {τ α : Type}

namespace Inbox

@[simp] theorem send_isOpen (inbox : Inbox τ) (e : Entry τ) : (inbox.send e).isOpen = inbox.isOpen := by
  unfold send
  split <;> rfl

theorem send_waiting (inbox : Inbox τ) (e : Entry τ) :
    (inbox.send e).waiting = inbox.waiting ++ if inbox.isOpen then [e] else [] := by
  unfold send
  split <;> simp

theorem sendAll_of_isOpen {inbox : Inbox τ} (h : inbox.isOpen = true) (es : List (Entry τ)) :
    inbox.sendAll es = { inbox with waiting := inbox.waiting ++ es } := by
  induction es generalizing inbox with
  | nil => simp [sendAll]
  | cons e es ih =>
    have hsend : inbox.send e = { inbox with waiting := inbox.waiting ++ [e] } := if_pos h
    calc inbox.sendAll (e :: es)
        = (inbox.send e).sendAll es := rfl
      _ = { inbox.send e with waiting := (inbox.send e).waiting ++ es } := ih (by rw [hsend]; exact h)
      _ = { inbox with waiting := inbox.waiting ++ e :: es } := by simp [hsend]

end Inbox

namespace Tape

variable {t : Tape τ} {view : Entry τ → α} {seen : List α}

/-- The tape holds, seen through a view, the newest of some things, as many as it has room for. -/
def Holds (t : Tape τ) (view : Entry τ → α) (seen : List α) : Prop :=
  t.entries.map view = seen.take t.limit

@[simp] theorem recordAll_cons (t : Tape τ) (e : Entry τ) (es : List (Entry τ)) :
    t.recordAll (e :: es) = (t.record e).recordAll es :=
  rfl

@[simp] theorem record_limit (t : Tape τ) (e : Entry τ) : (t.record e).limit = t.limit := by
  unfold record
  split <;> rfl

@[simp] theorem recordAll_limit (t : Tape τ) (es : List (Entry τ)) : (t.recordAll es).limit = t.limit := by
  induction es generalizing t with
  | nil => rfl
  | cons e es ih => rw [recordAll_cons, ih, record_limit]

theorem blank_holds (limit : Nat) (view : Entry τ → α) : (blank limit).Holds view [] := by
  simp [Holds, blank]

theorem erase_holds (t : Tape τ) (view : Entry τ → α) : t.erase.Holds view [] := by
  simp [Holds, erase]

theorem Holds.record (h : t.Holds view seen) (e : Entry τ) :
    (t.record e).Holds view (if e.isComplete then view e :: seen else seen) := by
  unfold Holds at h ⊢
  rw [record_limit, Tape.record, accepts]
  by_cases hcomplete : e.isComplete = true
  · cases hlimit : t.limit with
    | zero => simpa [hcomplete, hlimit] using h
    | succ n => simp [hcomplete, h, hlimit, List.take_take]
  · simpa [hcomplete] using h

theorem Holds.recordAll (h : t.Holds view seen) (es : List (Entry τ)) :
    (t.recordAll es).Holds view (((es.filter Entry.isComplete).map view).reverse ++ seen) := by
  induction es generalizing t seen with
  | nil => exact h
  | cons e es ih =>
    have hrest := ih (h.record e)
    by_cases hcomplete : e.isComplete = true <;> simpa [hcomplete] using hrest

end Tape
end Reckoner
