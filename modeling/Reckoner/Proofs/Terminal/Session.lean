import Mathlib.Data.List.DropRight
import Reckoner.Proofs.Machine.Completions
import Reckoner.Proofs.Tape.Keeping
import Reckoner.Terminal

/-!
# The tape of a session

Between two lines of a session nothing waits in the inbox (`Settled`): the keystrokes of a line are followed by a
`collect`, and those of a recall have no `equals` among them, so that they complete nothing. A line that does not
erase the tape therefore acts as if its keystrokes were pressed and what they complete taken over at once
(`respond_of_ne_erase`). Over the lines since the tape was erased this adds up to the newest calculations of that
time, as many as there is room for (`tape_holds_newest`).
-/

namespace Reckoner

def Entry.completion (e : Entry UInt64) : Completion :=
  ⟨e.expression, e.result⟩

namespace Terminal

variable {t : Terminal} {now : UInt64} {line : String} {lines : List (UInt64 × String)}

/-- The terminal after lines, each with the time it comes at, unless one of them ends the session. -/
def after? (t : Terminal) : List (UInt64 × String) → Option Terminal
  | [] => some t
  | (now, line) :: rest => (t.respond now line).bind fun (next, _) => next.after? rest

/-- The keystrokes that a line presses. -/
def pressed (t : Terminal) (line : String) : List Keystroke :=
  match Command.ofLine line with
  | .keys line => Keystroke.ofLine line
  | .recall number => ((t.collect.recalled? number).map fun e => Keystroke.retyping e.expression).getD []
  | .quit | .list | .erase => []

/-- The keystrokes that lines press, up to the one that ends the session. -/
def pressedBy (t : Terminal) : List (UInt64 × String) → List Keystroke
  | [] => []
  | (now, line) :: rest =>
    t.pressed line ++ ((t.respond now line).map fun (next, _) => next.pressedBy rest).getD []

theorem after?_append (t : Terminal) (lines more : List (UInt64 × String)) :
    t.after? (lines ++ more) = (t.after? lines).bind (·.after? more) := by
  induction lines generalizing t with
  | nil => rfl
  | cons line rest ih =>
    obtain ⟨now, line⟩ := line
    simp only [List.cons_append, after?, Option.bind_assoc]
    congr 1
    funext answer
    exact ih answer.1

/-! ### Between two lines -/

/-- A terminal with given settings as it is between two lines. -/
structure Settled (settings : Settings) (withoutTape : Bool) (t : Terminal) : Prop where
  machine : t.machine.Consistent
  inbox : t.inbox = .empty
  limit : t.tape.limit = settings.history.limit
  keepsTape : t.keepsTape = (settings.history.enabled && !withoutTape)

variable {settings : Settings} {withoutTape : Bool}

theorem start_settled (settings : Settings) (withoutTape : Bool) :
    Settled settings withoutTape (start settings withoutTape) :=
  ⟨Machine.initial_consistent, rfl, rfl, rfl⟩

theorem collect_of_empty (h : t.inbox = .empty) : t.collect = t := by
  obtain ⟨machine, tape, inbox, keepsTape, groupThousands⟩ := t
  cases h
  rfl

theorem press_nil (t : Terminal) (now : UInt64) : t.press now [] = t := by
  simp [press, Machine.run, Machine.completions, Inbox.sendAll]

/-- What some keystrokes send to the inbox. -/
def sent (t : Terminal) (now : UInt64) (keys : List Keystroke) : List (Entry UInt64) :=
  (if t.keepsTape then t.machine.reports keys else []).map (entry now)

theorem map_completion_entry (now : UInt64) (cs : List Completion) :
    (cs.map (entry now)).map Entry.completion = cs := by
  rw [List.map_map]
  exact List.map_id cs

namespace Settled

theorem inbox_press (h : Settled settings withoutTape t) (now : UInt64) (keys : List Keystroke) :
    (t.press now keys).inbox = ⟨t.sent now keys, true⟩ := by
  have hopen : t.inbox.isOpen = true := by
    rw [h.inbox]
    rfl
  rw [press, Inbox.sendAll_of_isOpen hopen, Machine.completions_eq_reports h.machine, h.inbox]
  rfl

theorem tape_collect_press (h : Settled settings withoutTape t) (now : UInt64) (keys : List Keystroke) :
    (t.press now keys).collect.tape = t.tape.recordAll (t.sent now keys) := by
  rw [collect, h.inbox_press]
  rfl

theorem collect_press (h : Settled settings withoutTape t) (now : UInt64) (keys : List Keystroke) :
    Settled settings withoutTape (t.press now keys).collect where
  machine := Machine.run_induction Machine.press_consistent h.machine keys
  inbox := by
    rw [collect, h.inbox_press]
    rfl
  limit := by
    rw [h.tape_collect_press, Tape.recordAll_limit]
    exact h.limit
  keepsTape := h.keepsTape

/-- Keystrokes without an `equals` leave nothing to take over. -/
theorem collect_press_of_not_mem (h : Settled settings withoutTape t) (now : UInt64) {keys : List Keystroke}
    (hkeys : Keystroke.equals ∉ keys) : (t.press now keys).collect = t.press now keys := by
  apply collect_of_empty
  simp [h.inbox_press, sent, Machine.reports_of_not_mem hkeys, Inbox.empty]

theorem isComplete_of_mem_sent (h : Settled settings withoutTape t) {keys : List Keystroke} {e : Entry UInt64}
    (he : e ∈ t.sent now keys) : e.isComplete = true := by
  obtain ⟨c, hc, rfl⟩ := List.mem_map.mp he
  by_cases hkeeps : t.keepsTape = true
  · rw [if_pos hkeeps, ← Machine.completions_eq_reports h.machine] at hc
    obtain ⟨hexpression, hresult⟩ := Machine.ne_empty_of_mem_completions hc
    simp [Entry.isComplete, entry, hexpression, hresult]
  · rw [if_neg hkeeps] at hc
    cases hc

theorem erase (h : Settled settings withoutTape t) : Settled settings withoutTape { t with tape := t.tape.erase } :=
  ⟨h.machine, h.inbox, h.limit, h.keepsTape⟩

/-! ### One line -/

theorem respond_of_erase (h : Settled settings withoutTape t) (now : UInt64) (hline : Command.ofLine line = .erase) :
    t.respond now line = some ({ t with tape := t.tape.erase }, ["history cleared"]) := by
  rw [respond, collect_of_empty h.inbox, hline, perform]

/-- A line that does not erase the tape acts as its keystrokes do, followed by a `collect`. -/
theorem respond_of_ne_erase (h : Settled settings withoutTape t) (now : UInt64)
    (hquit : Command.ofLine line ≠ .quit) (herase : Command.ofLine line ≠ .erase) :
    ∃ written, t.respond now line = some ((t.press now (t.pressed line)).collect, written) := by
  have hidle : (t.press now []).collect = t := by rw [press_nil, collect_of_empty h.inbox]
  rw [respond, pressed, collect_of_empty h.inbox]
  match hline : Command.ofLine line with
  | .quit => exact absurd hline hquit
  | .erase => exact absurd hline herase
  | .list => exact ⟨listing t.tape, by simp [perform, hidle]⟩
  | .keys line => exact ⟨_, rfl⟩
  | .recall number =>
    cases hrecalled : t.recalled? number with
    | none => exact ⟨_, by simp [perform, hrecalled, hidle]; rfl⟩
    | some e =>
      -- nothing is taken over behind a recall, and nothing has to be
      have hcollected := h.collect_press_of_not_mem now (Keystroke.equals_not_mem_retyping e.expression)
      exact ⟨_, by simp [perform, hrecalled, hcollected]; rfl⟩

theorem exists_respond (h : Settled settings withoutTape t) (now : UInt64) (hquit : Command.ofLine line ≠ .quit) :
    ∃ next written, t.respond now line = some (next, written) ∧ Settled settings withoutTape next := by
  by_cases herase : Command.ofLine line = .erase
  · exact ⟨_, _, h.respond_of_erase now herase, h.erase⟩
  · obtain ⟨written, hrespond⟩ := h.respond_of_ne_erase now hquit herase
    exact ⟨_, written, hrespond, h.collect_press now _⟩

theorem holds_collect_press (h : Settled settings withoutTape t) {seen : List Completion}
    (hseen : t.tape.Holds Entry.completion seen) (now : UInt64) (keys : List Keystroke) :
    (t.press now keys).collect.tape.Holds Entry.completion
      ((if t.keepsTape then t.machine.reports keys else []).reverse ++ seen) := by
  rw [h.tape_collect_press]
  have hholds := hseen.recordAll (t.sent now keys)
  rwa [List.filter_eq_self.mpr fun e he => h.isComplete_of_mem_sent he, sent, map_completion_entry] at hholds

/-! ### Many lines -/

theorem exists_after? (h : Settled settings withoutTape t) (hquit : ∀ line ∈ lines, Command.ofLine line.2 ≠ .quit) :
    ∃ next, t.after? lines = some next ∧ Settled settings withoutTape next := by
  induction lines generalizing t with
  | nil => exact ⟨t, rfl, h⟩
  | cons line rest ih =>
    obtain ⟨now, line⟩ := line
    obtain ⟨hline, hrest⟩ := List.forall_mem_cons.mp hquit
    obtain ⟨mid, written, hrespond, hmid⟩ := h.exists_respond now hline
    obtain ⟨next, hafter, hnext⟩ := ih hmid hrest
    exact ⟨next, by rw [after?, hrespond]; exact hafter, hnext⟩

/-- As long as the tape is not erased, it takes over what the keystrokes of the lines complete. -/
theorem holds_after? (h : Settled settings withoutTape t) {seen : List Completion}
    (hseen : t.tape.Holds Entry.completion seen) (hquit : ∀ line ∈ lines, Command.ofLine line.2 ≠ .quit)
    (herase : ∀ line ∈ lines, Command.ofLine line.2 ≠ .erase) :
    ∃ next, t.after? lines = some next ∧ Settled settings withoutTape next ∧
      next.machine = t.machine.run (t.pressedBy lines) ∧
      next.tape.Holds Entry.completion
        ((if t.keepsTape then t.machine.reports (t.pressedBy lines) else []).reverse ++ seen) := by
  induction lines generalizing t seen with
  | nil => exact ⟨t, rfl, h, rfl, by simpa [pressedBy, Machine.reports] using hseen⟩
  | cons line rest ih =>
    obtain ⟨now, line⟩ := line
    rw [List.forall_mem_cons] at hquit herase
    obtain ⟨written, hrespond⟩ := h.respond_of_ne_erase now hquit.1 herase.1
    obtain ⟨next, hafter, hnext, hmachine, hholds⟩ :=
      ih (h.collect_press now (t.pressed line)) (h.holds_collect_press hseen now _) hquit.2 herase.2
    have hmid : (t.press now (t.pressed line)).collect.machine = t.machine.run (t.pressed line) := rfl
    have hkeeps : (t.press now (t.pressed line)).collect.keepsTape = t.keepsTape := rfl
    have hkeys : t.pressedBy ((now, line) :: rest) =
        t.pressed line ++ (t.press now (t.pressed line)).collect.pressedBy rest := by
      simp [pressedBy, hrespond]
    refine ⟨next, by rw [after?, hrespond]; exact hafter, hnext, ?_, ?_⟩
    · rw [hmachine, hkeys, Machine.run_append, hmid]
    · rw [hkeys, Machine.reports_append]
      rw [hmid, hkeeps] at hholds
      by_cases hkept : t.keepsTape = true <;> simpa [hkept] using hholds

end Settled

/-! ### The lines since the tape was erased -/

def erases (line : UInt64 × String) : Bool :=
  decide (Command.ofLine line.2 = .erase)

/-- The lines up to the last one that erases the tape. -/
def upToErase (lines : List (UInt64 × String)) : List (UInt64 × String) :=
  lines.rdropWhile (!erases ·)

/-- The lines behind the last one that erases the tape, or all of them. -/
def sinceErase (lines : List (UInt64 × String)) : List (UInt64 × String) :=
  lines.rtakeWhile (!erases ·)

theorem upToErase_append_sinceErase (lines : List (UInt64 × String)) : upToErase lines ++ sinceErase lines = lines :=
  List.rdropWhile_append_rtakeWhile

theorem ne_erase_of_mem_sinceErase {line : UInt64 × String} (h : line ∈ sinceErase lines) :
    Command.ofLine line.2 ≠ .erase := by
  simpa [erases] using List.mem_rtakeWhile_imp h

/-- At the start of a session, and once the tape is erased, the tape holds nothing. -/
theorem holds_after?_upToErase (hquit : ∀ line ∈ lines, Command.ofLine line.2 ≠ .quit) :
    ∃ erased, (start settings withoutTape).after? (upToErase lines) = some erased ∧
      Settled settings withoutTape erased ∧ erased.tape.Holds Entry.completion [] := by
  induction lines using List.reverseRecOn with
  | nil => exact ⟨_, rfl, start_settled settings withoutTape, Tape.blank_holds _ _⟩
  | append_singleton lines line ih =>
    rw [List.forall_mem_append] at hquit
    by_cases herases : erases line = true
    · obtain ⟨mid, hmid, hsettled⟩ := (start_settled settings withoutTape).exists_after? hquit.1
      have hline : Command.ofLine line.2 = .erase := of_decide_eq_true herases
      rw [upToErase, List.rdropWhile_concat_neg _ _ _ (by simp [herases]), after?_append, hmid]
      refine ⟨{ mid with tape := mid.tape.erase }, ?_, hsettled.erase, Tape.erase_holds _ _⟩
      simp [after?, hsettled.respond_of_erase line.1 hline]
    · rw [upToErase, List.rdropWhile_concat_pos _ _ _ (by simp [herases])]
      exact ih hquit.1

/-- **The tape holds the newest calculations**: whatever the lines of a session, newest first and each once, what the
keystrokes since the tape was last erased should report, as far as there is room. It holds nothing if none are kept. -/
theorem tape_holds_newest (settings : Settings) (withoutTape : Bool)
    (hquit : ∀ line ∈ lines, Command.ofLine line.2 ≠ .quit) :
    ∃ erased t, (start settings withoutTape).after? (upToErase lines) = some erased ∧
      (start settings withoutTape).after? lines = some t ∧
      t.machine = erased.machine.run (erased.pressedBy (sinceErase lines)) ∧
      t.tape.entries.map Entry.completion =
        if settings.history.enabled && !withoutTape then
          (erased.machine.reports (erased.pressedBy (sinceErase lines))).reverse.take settings.history.limit
        else [] := by
  obtain ⟨erased, herased, hsettled, hblank⟩ := holds_after?_upToErase hquit
  have hsince : ∀ line ∈ sinceErase lines, Command.ofLine line.2 ≠ .quit := fun line hline =>
    hquit line ((List.rtakeWhile_suffix _ lines).subset hline)
  obtain ⟨t, hafter, ht, hmachine, hholds⟩ :=
    hsettled.holds_after? hblank hsince fun line hline => ne_erase_of_mem_sinceErase hline
  refine ⟨erased, t, herased, ?_, hmachine, ?_⟩
  · calc (start settings withoutTape).after? lines
        = (start settings withoutTape).after? (upToErase lines ++ sinceErase lines) := by
          rw [upToErase_append_sinceErase]
      _ = erased.after? (sinceErase lines) := by
          rw [after?_append, herased]
          rfl
      _ = some t := hafter
  · rw [Tape.Holds, ht.limit, hsettled.keepsTape, List.append_nil] at hholds
    rw [hholds]
    split_ifs <;> simp

/-- Room for two: the calculation before the erasing line is gone, zero is not kept, and the tape has lost the oldest
of the three since then. -/
theorem tape_after_recall :
    let settings : Settings := { Settings.default with history := ⟨true, 2⟩ }
    let lines : List (UInt64 × String) :=
      [(1, "1+1="), (2, "history clear"), (3, "2*3="), (4, "0="), (5, "recall"), (6, "="), (7, "+1=")]
    (∀ line ∈ lines, Command.ofLine line.2 ≠ .quit) ∧
      ∃ t, (start settings false).after? lines = some t ∧
        t.tape.entries.map Entry.completion = [⟨"6+1", "7"⟩, ⟨"2×3", "6"⟩] := by
  intro settings lines
  have hquit : ∀ line ∈ lines, Command.ofLine line.2 ≠ .quit := by decide +kernel
  have hreports : ((start settings false).after? (upToErase lines)).map
      (fun erased => erased.machine.reports (erased.pressedBy (sinceErase lines))) =
        some [⟨"2×3", "6"⟩, ⟨"2×3", "6"⟩, ⟨"6+1", "7"⟩] := by decide +kernel
  obtain ⟨erased, t, herased, hafter, -, htape⟩ := tape_holds_newest settings false hquit
  rw [herased, Option.map_some, Option.some.injEq] at hreports
  rw [hreports] at htape
  exact ⟨hquit, t, hafter, htape⟩

end Terminal
end Reckoner
