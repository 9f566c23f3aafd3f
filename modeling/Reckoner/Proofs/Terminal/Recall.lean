import Mathlib
import Reckoner.Proofs.Terminal.Session
import Reckoner.Proofs.Text.Kinds
import Reckoner.Proofs.Text.Words

/-!
# Recalling by number

The listing numbers the entries of the tape from one at the newest, and a recall by one of these numbers types the
formula that stands under it again (`recall_matches_listing`). A number behind the last of them recalls nothing, also
where it is too large to be read. Zero is not among the numbers of the listing, and yet it recalls the newest entry
(`not_forall_recall_unlisted`).
-/

namespace Reckoner

namespace Settings

theorem count?_lt {otherwise n : Nat} {node : Option Toml.Node} (hotherwise : otherwise < limitBound)
    (h : count? otherwise node = some n) : n < limitBound := by
  rw [count?.eq_def] at h
  split at h
  · cases h
    exact hotherwise
  · split at h
    · split_ifs at h with hrange
      cases h
      omega
    · cases h
  · cases h

theorem history?_limit_lt {s : TapeSettings} {node : Option Toml.Node} (h : history? node = some s) :
    s.limit < limitBound := by
  obtain ⟨members, -, h⟩ := Option.bind_eq_some_iff.mp h
  split at h
  · obtain ⟨enabled, -, h⟩ := Option.bind_eq_some_iff.mp h
    obtain ⟨limit, hlimit, h⟩ := Option.bind_eq_some_iff.mp h
    cases h
    exact count?_lt (by decide) hlimit
  · cases h

/-- The limit of a tape is in bounds, whatever the document it is read from. -/
theorem limit_lt_limitBound {document : String} {s : Settings} (h : ofToml document = .ok s) :
    s.history.limit < limitBound := by
  rw [ofToml] at h
  split at h
  · rename_i hread
    cases h
    obtain ⟨fields, -, hfields⟩ := Option.bind_eq_some_iff.mp hread
    obtain ⟨members, -, h⟩ := Option.bind_eq_some_iff.mp hfields
    split at h
    · obtain ⟨logLevel, -, h⟩ := Option.bind_eq_some_iff.mp h
      obtain ⟨history, hhistory, h⟩ := Option.bind_eq_some_iff.mp h
      obtain ⟨groups, -, h⟩ := Option.bind_eq_some_iff.mp h
      cases h
      exact history?_limit_lt hhistory
    · cases h
  · cases h

end Settings
namespace Command

theorem number?_toString (n : Nat) : number? (toString n) = if n < numberBound then some n else none := by
  have hchars : (toString n).toList = Nat.toDigits 10 n := by simp
  have hdigits : ∀ c ∈ Nat.toDigits 10 n, c.isDigit = true :=
    fun c hc => Nat.isDigit_of_mem_toDigits (by decide) le_rfl hc
  have hplus : ∀ rest, Nat.toDigits 10 n ≠ '+' :: rest := by
    intro rest h
    have hplus := hdigits '+' (by simp [h])
    cases hplus
  rw [number?, hchars]
  split
  · rename_i rest h
    exact absurd h (hplus rest)
  · simp [Nat.ofDigitChars_ten_toDigits, Nat.toDigits_ne_nil, List.all_eq_true.mpr hdigits]

theorem ofLine_recall_toString (n : Nat) : ofLine ("recall " ++ toString n) = .recall (some (toString n)) := by
  have hne : toString n ≠ "" := by
    intro h
    have hchars := congrArg String.toList h
    simp [Nat.toDigits_ne_nil] at hchars
  have hblank : ∀ c ∈ (toString n).toList, Text.isBlank c = false := by
    intro c hc
    have hdigit : c ∈ Nat.toDigits 10 n := by simpa using hc
    exact Text.isBlank_eq_false_of_isDigit (Nat.isDigit_of_mem_toDigits (by decide) le_rfl hdigit)
  have hspace : "recall " = "recall" ++ String.singleton ' ' := by decide +kernel
  have hrecall : Text.words "recall" = ["recall"] := by decide +kernel
  have hwords : Text.words ("recall " ++ toString n) = ["recall", toString n] := by
    rw [hspace, Text.words_append _ _ (by decide), hrecall, Text.words_of_forall_not_blank hne hblank]
    rfl
  rw [ofLine, hwords]
  rfl

end Command

namespace Terminal

variable {settings : Settings} {withoutTape : Bool} {t next : Terminal} {now : UInt64} {line : String}
  {written : List String} {lines : List (UInt64 × String)}

/-! ### What holds throughout a session -/

/-- What every answered line keeps holds at the end of lines. -/
theorem after?_induction {P : Terminal → Prop}
    (hstep : ∀ {t next now line written}, P t → t.respond now line = some (next, written) → P next) (h : P t)
    (hafter : t.after? lines = some next) : P next := by
  induction lines generalizing t with
  | nil =>
    cases hafter
    exact h
  | cons line rest ih =>
    obtain ⟨⟨mid, written⟩, hrespond, hrest⟩ := Option.bind_eq_some_iff.mp hafter
    exact ih (hstep h hrespond) hrest

theorem respond_of_quit (t : Terminal) (now : UInt64) (hline : Command.ofLine line = .quit) :
    t.respond now line = none := by
  rw [respond, hline, perform]

/-- A terminal between two lines, whose tape has not outgrown its limit. -/
def Bounded (settings : Settings) (withoutTape : Bool) (t : Terminal) : Prop :=
  Settled settings withoutTape t ∧ ∃ seen, t.tape.Holds Entry.completion seen

theorem Bounded.respond (h : Bounded settings withoutTape t) (hrespond : t.respond now line = some (next, written)) :
    Bounded settings withoutTape next := by
  obtain ⟨hsettled, seen, hseen⟩ := h
  by_cases hquit : Command.ofLine line = .quit
  · rw [respond_of_quit t now hquit] at hrespond
    cases hrespond
  by_cases herase : Command.ofLine line = .erase
  · rw [hsettled.respond_of_erase now herase] at hrespond
    cases hrespond
    exact ⟨hsettled.erase, [], Tape.erase_holds _ _⟩
  · obtain ⟨_, hpressed⟩ := hsettled.respond_of_ne_erase now hquit herase
    rw [hpressed] at hrespond
    cases hrespond
    exact ⟨hsettled.collect_press now _, _, hsettled.holds_collect_press hseen now _⟩

theorem bounded_of_after? (hafter : (start settings withoutTape).after? lines = some t) :
    Bounded settings withoutTape t :=
  after?_induction Bounded.respond ⟨start_settled settings withoutTape, [], Tape.blank_holds _ _⟩ hafter

theorem Bounded.length_le (h : Bounded settings withoutTape t) : t.tape.entries.length ≤ settings.history.limit := by
  obtain ⟨hsettled, seen, hseen⟩ := h
  rw [← hsettled.limit, ← List.length_map Entry.completion, hseen]
  exact List.length_take_le _ _

/-! ### Listing and recalling -/

theorem length_listing (tape : Tape UInt64) : (listing tape).length = tape.entries.length + 1 := by
  rw [listing]
  split <;> simp_all

/-- The listing has the entries in order behind its heading. -/
theorem getElem?_listing {tape : Tape UInt64} {i : Nat} {e : Entry UInt64} (h : tape.entries[i]? = some e) :
    (listing tape)[i + 1]? = some (listLine (i + 1) e) := by
  have hne : tape.entries.isEmpty = false := by
    rw [List.isEmpty_eq_false_iff]
    rintro hnil
    simp [hnil] at h
  rw [listing, hne]
  simp [h]

/-- Keystrokes without an `equals` change nothing but the machine. -/
theorem Settled.press_of_not_mem (h : Settled settings withoutTape t) (now : UInt64) {keys : List Keystroke}
    (hkeys : Keystroke.equals ∉ keys) : t.press now keys = { t with machine := t.machine.run keys } := by
  have hinbox : (t.press now keys).inbox = t.inbox := by
    rw [h.inbox_press, h.inbox, sent, Machine.reports_of_not_mem hkeys]
    simp [Inbox.empty]
  calc t.press now keys
      = { t with machine := t.machine.run keys, inbox := (t.press now keys).inbox } := rfl
    _ = { t with machine := t.machine.run keys } := by rw [hinbox]

/-- The terminal once a formula is typed again. -/
def retyped (t : Terminal) (expression : String) : Terminal :=
  { t with machine := t.machine.run (Keystroke.retyping expression) }

theorem Settled.perform_recall (h : Settled settings withoutTape t) (now : UInt64) (number : Option String) :
    t.perform now (.recall number) = some
      (match t.recalled? number with
        | some e => (t.retyped e.expression, (t.retyped e.expression).display)
        | none => (t, "no such history entry" :: t.display)) := by
  rw [perform]
  cases t.recalled? number with
  | none => rfl
  | some e => simp only [h.press_of_not_mem now (Keystroke.equals_not_mem_retyping e.expression), retyped]

theorem Settled.respond_eq (h : Settled settings withoutTape t) (now : UInt64) (line : String) :
    t.respond now line = t.perform now (Command.ofLine line) := by
  rw [Terminal.respond, collect_of_empty h.inbox]

theorem recalled?_none (t : Terminal) : t.recalled? none = t.tape.entries[0]? :=
  List.head?_eq_getElem?

theorem recalled?_toString (t : Terminal) (n : Nat) :
    t.recalled? (some (toString n)) = if n < Command.numberBound then t.tape.entries[n - 1]? else none := by
  rw [recalled?, Command.number?_toString]
  split <;> rfl

/-- **Recall and listing number alike**: whatever the lines of a session, a recall by one of the numbers of the listing
types the formula under that number again and changes nothing else, and a number behind them recalls nothing. Without
a number the newest entry is recalled, and so it is by zero. -/
theorem recall_matches_listing (hlimit : settings.history.limit < Settings.limitBound)
    (hafter : (start settings withoutTape).after? lines = some t) (now : UInt64) :
    ∃ written, t.respond now "history" = some (t, written) ∧ written.length = t.tape.entries.length + 1 ∧
      (∀ n : Nat, 1 ≤ n → n ≤ t.tape.entries.length → ∃ e, t.tape.entries[n - 1]? = some e ∧
        written[n]? = some (listLine n e) ∧
        t.respond now ("recall " ++ toString n) = some (t.retyped e.expression, (t.retyped e.expression).display)) ∧
      (∀ n : Nat, t.tape.entries.length < n →
        t.respond now ("recall " ++ toString n) = some (t, "no such history entry" :: t.display)) ∧
      t.respond now "recall" = t.respond now "recall 1" ∧ t.respond now "recall 0" = t.respond now "recall 1" := by
  have hbounded := bounded_of_after? hafter
  have hsettled := hbounded.1
  have hroom : t.tape.entries.length < Command.numberBound := lt_of_le_of_lt hbounded.length_le hlimit
  have hrecall : ∀ n : Nat, t.respond now ("recall " ++ toString n) = t.perform now (.recall (some (toString n))) := by
    intro n
    rw [hsettled.respond_eq, Command.ofLine_recall_toString]
  have hbare : Command.ofLine "recall" = .recall none := by decide +kernel
  have hone : "recall 1" = "recall " ++ toString 1 := by decide +kernel
  have hzero : "recall 0" = "recall " ++ toString 0 := by decide +kernel
  refine ⟨listing t.tape, ?_, length_listing t.tape, ?_, ?_, ?_, ?_⟩
  · rw [hsettled.respond_eq, show Command.ofLine "history" = .list by decide +kernel, perform]
  · intro n hpos hle
    obtain ⟨i, rfl⟩ : ∃ i, n = i + 1 := ⟨n - 1, by omega⟩
    have he : t.tape.entries[i]? = some t.tape.entries[i] := List.getElem?_eq_getElem (by omega)
    refine ⟨_, he, getElem?_listing he, ?_⟩
    rw [hrecall, hsettled.perform_recall, recalled?_toString, if_pos (by omega), Nat.add_sub_cancel, he]
  · intro n hlt
    have hnone : t.tape.entries[n - 1]? = none := List.getElem?_eq_none (by omega)
    rw [hrecall, hsettled.perform_recall, recalled?_toString, hnone, ite_self]
  · rw [hone, hrecall, hsettled.respond_eq, hbare, hsettled.perform_recall, hsettled.perform_recall, recalled?_none,
      recalled?_toString]
    rfl
  · rw [hzero, hone, hrecall, hrecall, hsettled.perform_recall, hsettled.perform_recall, recalled?_toString,
      recalled?_toString]
    rfl

/-- With room for two, the second of three calculations stands last in the listing, and there is no third. -/
theorem recall_second :
    let settings : Settings := { Settings.default with history := ⟨true, 2⟩ }
    let lines : List (UInt64 × String) := [(1, "1+1="), (2, "5*5="), (3, "9-2=")]
    settings.history.limit < Settings.limitBound ∧ ∃ t, (start settings false).after? lines = some t ∧
      t.respond 4 "history" = some (t, ["last 2 of at most 2:", "  1. 9−2 = 7", "  2. 5×5 = 25"]) ∧
      t.respond 4 ("recall " ++ toString 2) = some (t.retyped "5×5", (t.retyped "5×5").display) ∧
      t.respond 4 ("recall " ++ toString 3) = some (t, "no such history entry" :: t.display) := by
  intro settings lines
  have hread : Settings.ofToml "[history]\nlimit = 2\n" = .ok settings := by rfl
  have htape : ((start settings false).after? lines).map (fun t => t.tape.entries.map Entry.completion) =
      some [⟨"9−2", "7"⟩, ⟨"5×5", "25"⟩] := by decide +kernel
  have hlisting : ((start settings false).after? lines).bind (fun t => (t.respond 4 "history").map (·.2)) =
      some ["last 2 of at most 2:", "  1. 9−2 = 7", "  2. 5×5 = 25"] := by decide +kernel
  obtain ⟨t, hafter, htape⟩ := Option.map_eq_some_iff.mp htape
  have hlimit := Settings.limit_lt_limitBound hread
  obtain ⟨written, hhistory, -, hnumbered, hbehind, -⟩ := recall_matches_listing hlimit hafter 4
  have hlength : t.tape.entries.length = 2 := by simpa using congrArg List.length htape
  obtain ⟨e, he, -, hrecall⟩ := hnumbered 2 (by decide) (by omega)
  have hexpression : e.expression = "5×5" := by
    have hsecond := congrArg (fun completions => (completions[1]?).map Completion.expression) htape
    simpa [he, Entry.completion] using hsecond
  rw [hafter, Option.bind_some, hhistory, Option.map_some, Option.some.injEq] at hlisting
  rw [hexpression] at hrecall
  exact ⟨hlimit, t, hafter, by rw [hhistory, ← hlisting], hrecall, hbehind 3 (by omega)⟩

/-- Nothing stands under zero in the listing. -/
theorem not_forall_recall_unlisted :
    ¬∀ (settings : Settings) (withoutTape : Bool) (lines : List (UInt64 × String)) (t : Terminal) (now : UInt64),
        settings.history.limit < Settings.limitBound → (start settings withoutTape).after? lines = some t →
          ∀ n : Nat, ¬(1 ≤ n ∧ n ≤ t.tape.entries.length) →
            t.respond now ("recall " ++ toString n) = some (t, "no such history entry" :: t.display) := by
  intro h
  have hanswer : ((start Settings.default false).after? [(1, "1+1=")]).bind
      (fun t => (t.respond 2 ("recall " ++ toString 0)).map (·.2)) = some ["  1+1", "= 1+1"] := by decide +kernel
  obtain ⟨t, hafter, hanswer⟩ := Option.bind_eq_some_iff.mp hanswer
  rw [h _ _ _ t 2 (by decide) hafter 0 (by omega)] at hanswer
  simp at hanswer

end Terminal
end Reckoner
