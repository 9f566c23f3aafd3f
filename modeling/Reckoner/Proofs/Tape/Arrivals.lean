import Mathlib.Algebra.Order.Group.Multiset
import Mathlib.Data.List.DropRight
import Mathlib.Tactic.Abel
import Reckoner.Proofs.Tape.Keeping
import Reckoner.Tape.Intake

/-!
# What arrives on a tape

An account of the events around a tape that looks at no state. An entry arrives when it is recorded, or when the feed
that it was sent to is drained; until then it waits behind those sent before it, and it is lost if its feed is closed
first. A tape that is cut to its limit at every step holds the newest complete entries of this account since it was last
cleared, in whatever order the events come (`tape_holds_arrivals`), and whatever was put in is accounted for once.
-/

namespace Reckoner.Intake

variable {τ : Type} {limit : Nat} {events : List (Event τ)} {ev : Event τ} {s : Intake τ}

/-! ### The account -/

/-- Where entries wait for a tape. -/
inductive Feed
  | tray
  | recorder

namespace Event

def entry? : Event τ → Option (Entry τ)
  | .record e | .send e | .complete e => some e
  | _ => none

def isClear : Event τ → Bool
  | .clear => true
  | _ => false

end Event

namespace Feed

def inbox (s : Intake τ) : Feed → Inbox τ
  | .tray => s.tray
  | .recorder => s.recorder

def sent? : Feed → Event τ → Option (Entry τ)
  | .tray, .send e | .recorder, .complete e => some e
  | _, _ => none

def isDrain : Feed → Event τ → Bool
  | .tray, .drain | .recorder, .drainRecorder => true
  | _, _ => false

def isEnd : Feed → Event τ → Bool
  | .recorder, .disconnect => true
  | _, _ => false

/-- What waits in a feed: what was sent to it since it was last drained, and nothing once it is closed. -/
def waiting (feed : Feed) (events : List (Event τ)) : List (Entry τ) :=
  if events.any feed.isEnd then [] else (events.rtakeWhile (!feed.isDrain ·)).filterMap feed.sent?

end Feed

/-- What reaches the tape with an event, given the events before it. -/
def arriving (before : List (Event τ)) : Event τ → List (Entry τ)
  | .record e => [e]
  | .drain => Feed.tray.waiting before
  | .drainRecorder => Feed.recorder.waiting before
  | _ => []

/-- What is lost with an event, given the events before it. -/
def losing (before : List (Event τ)) : Event τ → List (Entry τ)
  | .disconnect => Feed.recorder.waiting before
  | .complete e => if before.any Feed.recorder.isEnd then [e] else []
  | _ => []

/-- The entries that some events come with one after the other, given the events before all of them. -/
def throughout (entries : List (Event τ) → Event τ → List (Entry τ)) (before : List (Event τ)) :
    List (Event τ) → List (Entry τ)
  | [] => []
  | ev :: rest => entries before ev ++ throughout entries (before ++ [ev]) rest

/-- What reached the tape since it was last cleared. -/
def arrivals (events : List (Event τ)) : List (Entry τ) :=
  throughout arriving (events.rdropWhile (!·.isClear)) (events.rtakeWhile (!·.isClear))

/-! ### One more event -/

theorem Feed.waiting_concat (feed : Feed) (events : List (Event τ)) (ev : Event τ) :
    feed.waiting (events ++ [ev]) =
      if feed.isEnd ev || feed.isDrain ev then []
      else feed.waiting events ++ if events.any feed.isEnd then [] else (feed.sent? ev).toList := by
  by_cases hend : feed.isEnd ev = true
  · simp [waiting, hend]
  by_cases hclosed : events.any feed.isEnd = true
  · simp [waiting, hclosed]
  by_cases hdrain : feed.isDrain ev = true
  · simp [waiting, hdrain, List.rtakeWhile_concat_neg]
  · cases hsent : feed.sent? ev <;> simp [waiting, hend, hclosed, hdrain, hsent, List.rtakeWhile_concat_pos]

theorem throughout_concat (entries : List (Event τ) → Event τ → List (Entry τ)) (before events : List (Event τ))
    (ev : Event τ) :
    throughout entries before (events ++ [ev]) = throughout entries before events ++ entries (before ++ events) ev := by
  induction events generalizing before with
  | nil => simp [throughout]
  | cons first rest ih => simp [throughout, ih]

theorem arrivals_concat (events : List (Event τ)) (ev : Event τ) :
    arrivals (events ++ [ev]) = if ev.isClear then [] else arrivals events ++ arriving events ev := by
  by_cases hclear : ev.isClear = true
  · simp [arrivals, hclear, List.rtakeWhile_concat_neg, throughout]
  · have hevents : events.rdropWhile (!·.isClear) ++ events.rtakeWhile (!·.isClear) = events :=
      List.rdropWhile_append_rtakeWhile
    rw [arrivals, List.rdropWhile_concat_pos _ _ _ (by simp [hclear]),
      List.rtakeWhile_concat_pos _ _ _ (by simp [hclear]), throughout_concat, hevents, if_neg hclear]
    rfl

/-! ### The state follows the account -/

/-- What an event does to a feed's inbox. -/
theorem Feed.inbox_step (feed : Feed) (s : Intake τ) (ev : Event τ) :
    feed.inbox (s.step ev) =
      if feed.isEnd ev then (feed.inbox s).close
      else if feed.isDrain ev then { feed.inbox s with waiting := [] }
      else (feed.sent? ev).elim (feed.inbox s) (feed.inbox s).send := by
  cases feed <;> cases ev <;> rfl

/-- A state is what an account of the events says. -/
structure Follows (limit : Nat) (events : List (Event τ)) (s : Intake τ) : Prop where
  limit : s.tape.limit = limit
  tape : s.tape.Holds id ((arrivals events).filter Entry.isComplete).reverse
  isOpen : ∀ feed : Feed, (feed.inbox s).isOpen = !events.any feed.isEnd
  waiting : ∀ feed : Feed, (feed.inbox s).waiting = feed.waiting events

theorem blank_follows (limit : Nat) : Follows limit ([] : List (Event τ)) (blank limit) where
  limit := rfl
  tape := Tape.blank_holds limit id
  isOpen feed := by cases feed <;> rfl
  waiting feed := by cases feed <;> rfl

namespace Follows

theorem step_tape (h : Follows limit events s) (ev : Event τ) :
    (s.step ev).tape = if ev.isClear then s.tape.erase else s.tape.recordAll (arriving events ev) := by
  cases ev with
  | drain =>
    rw [arriving, ← h.waiting .tray]
    rfl
  | drainRecorder =>
    rw [arriving, ← h.waiting .recorder]
    rfl
  | _ => rfl

theorem step (h : Follows limit events s) (ev : Event τ) : Follows limit (events ++ [ev]) (s.step ev) where
  limit := by
    rw [h.step_tape]
    split
    · exact h.limit
    · rw [Tape.recordAll_limit, h.limit]
  tape := by
    rw [h.step_tape, arrivals_concat]
    split
    · exact Tape.erase_holds s.tape id
    · simpa using h.tape.recordAll (arriving events ev)
  isOpen feed := by
    rw [Feed.inbox_step]
    by_cases hend : feed.isEnd ev = true
    · simp [hend, Inbox.close]
    by_cases hdrain : feed.isDrain ev = true
    · simp [hend, hdrain, h.isOpen]
    · cases hsent : feed.sent? ev <;> simp [hend, hdrain, h.isOpen]
  waiting feed := by
    rw [Feed.inbox_step, Feed.waiting_concat]
    by_cases hend : feed.isEnd ev = true
    · simp [hend, Inbox.close]
    by_cases hdrain : feed.isDrain ev = true
    · simp [hdrain, hend]
    · cases hsent : feed.sent? ev <;> by_cases hclosed : events.any feed.isEnd = true <;>
        simp [hend, hdrain, hclosed, Inbox.send_waiting, h.isOpen, h.waiting]

theorem run (h : Follows limit events s) (more : List (Event τ)) : Follows limit (events ++ more) (s.run more) := by
  induction more generalizing events s with
  | nil => simpa [Intake.run] using h
  | cons ev more ih =>
    have hmore := ih (h.step ev)
    rw [List.append_assoc] at hmore
    exact hmore

/-- What is taken from a feed, if it is drained. -/
theorem countKept (h : Follows limit events s) (es : List (Entry τ)) :
    s.tape.countKept es = if limit = 0 then 0 else es.countP Entry.isComplete := by
  have haccepts : s.tape.accepts = fun e => e.isComplete && limit != 0 := by
    funext e
    rw [Tape.accepts, h.limit]
  rw [Tape.countKept, haccepts]
  cases limit <;> simp

end Follows

/-! ### Everything is accounted for once -/

/-- What an event puts in and what waited before it have arrived with it, are lost with it, or wait behind it. -/
theorem balance_step (events : List (Event τ)) (ev : Event τ) :
    (ev.entry?.toList ++ (Feed.tray.waiting events ++ Feed.recorder.waiting events)).Perm
      (arriving events ev ++ losing events ev ++
        (Feed.tray.waiting (events ++ [ev]) ++ Feed.recorder.waiting (events ++ [ev]))) := by
  simp only [Feed.waiting_concat, arriving, losing, Event.entry?]
  cases ev with
  | record e => simp [Feed.isEnd, Feed.isDrain, Feed.sent?]
  | send e => simpa [Feed.isEnd, Feed.isDrain, Feed.sent?] using List.perm_middle.symm
  | complete e =>
    have hcomm := List.perm_append_singleton e (Feed.tray.waiting events ++ Feed.recorder.waiting events)
    by_cases hclosed : events.any Feed.recorder.isEnd = true
    · simp [hclosed, Feed.isEnd, Feed.isDrain, Feed.sent?]
    · simpa [hclosed, Feed.isEnd, Feed.isDrain, Feed.sent?] using hcomm.symm
  | drain => simp [Feed.isEnd, Feed.isDrain, Feed.sent?]
  | drainRecorder => simpa [Feed.isEnd, Feed.isDrain, Feed.sent?] using List.perm_append_comm
  | disconnect => simpa [Feed.isEnd, Feed.isDrain, Feed.sent?] using List.perm_append_comm
  | clear => simp [Feed.isEnd, Feed.isDrain, Feed.sent?]

theorem balance (events : List (Event τ)) :
    (events.filterMap Event.entry?).Perm (throughout arriving [] events ++ throughout losing [] events ++
      (Feed.tray.waiting events ++ Feed.recorder.waiting events)) := by
  induction events using List.reverseRecOn with
  | nil => simp [throughout, Feed.waiting]
  | append_singleton events ev ih =>
    have hentry : [ev].filterMap Event.entry? = ev.entry?.toList := by cases h : ev.entry? <;> simp [h]
    have hstep := Multiset.coe_eq_coe.mpr (balance_step events ev)
    rw [← Multiset.coe_eq_coe] at ih ⊢
    rw [List.filterMap_append, hentry, throughout_concat, throughout_concat, List.nil_append]
    simp only [← Multiset.coe_add] at ih hstep ⊢
    -- what the event puts in joins what waited before it
    rw [ih, add_assoc, add_comm _ (ev.entry?.toList : Multiset (Entry τ)), hstep]
    abel

/-- **What a tape holds**, whatever records, sends, completions, drains, disconnections and clearings came in whatever
order: the newest complete entries that arrived since it was last cleared, as many as it has room for. What was not
drained waits, what was put in has arrived once, is lost or waits, and a drain counts the complete entries it takes. -/
theorem tape_holds_arrivals (limit : Nat) (events : List (Event τ)) :
    let s := (blank limit).run events
    s.tape.entries = ((arrivals events).filter Entry.isComplete).reverse.take limit ∧
      s.tape.entries.length ≤ limit ∧
      (∀ feed : Feed, (feed.inbox s).waiting = feed.waiting events) ∧
      (events.filterMap Event.entry?).Perm (throughout arriving [] events ++ throughout losing [] events ++
        (Feed.tray.waiting events ++ Feed.recorder.waiting events)) ∧
      s.drainCount = (if limit = 0 then 0 else (arriving events .drain).countP Entry.isComplete) ∧
      s.drainRecorderCount? =
        if events.any Feed.recorder.isEnd then none
        else some (if limit = 0 then 0 else (arriving events .drainRecorder).countP Entry.isComplete) := by
  intro s
  have hs : Follows limit events s := (blank_follows limit).run events
  have htape : s.tape.entries = ((arrivals events).filter Entry.isComplete).reverse.take limit := by
    have hholds := hs.tape
    rwa [Tape.Holds, List.map_id, hs.limit] at hholds
  refine ⟨htape, ?_, hs.waiting, balance events, ?_, ?_⟩
  · rw [htape]
    exact List.length_take_le limit _
  · rw [drainCount, hs.countKept]
    exact congrArg (fun es => if limit = 0 then 0 else es.countP Entry.isComplete) (hs.waiting .tray)
  · have hopen : s.recorder.isOpen = !events.any Feed.recorder.isEnd := hs.isOpen .recorder
    have hwaiting : s.recorder.waiting = arriving events .drainRecorder := hs.waiting .recorder
    rw [drainRecorderCount?, hopen, hs.countKept, hwaiting]
    cases events.any Feed.recorder.isEnd <;> rfl

end Reckoner.Intake
