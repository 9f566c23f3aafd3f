import Mathlib.Data.List.Chain
import Reckoner.Evaluation.Walk

/-!
# Runs and paths

A run that ends in what is said of it (`Ends`), put together from its parts, and the way a walk has gone meanwhile
(`Path`): what a single step may do is said there once, and a `Trip` is a path that comes back to the level on which it
began. A step past a token is a trip, and so is a trip on the next level with the level taken and given back.
-/

open Reckoner.Expr

namespace Reckoner.Walk

variable {α β : Type} {tokens : List Token} {w w' : Walk}

/-! ### Runs that end -/

/-- Given so many ticks, the run from `w` ends, given more of them in the same way, and that way is as said. -/
def Ends (ticks : Nat) (run : Nat → Walking α) (w : Walk) (post : Except EvalError α → Walk → Prop) : Prop :=
  ∃ outcome w', (∀ n, ticks ≤ n → run n w = some (outcome, w')) ∧ post outcome w'

namespace Ends

variable {ticks : Nat} {run : Nat → Walking α} {post : Except EvalError α → Walk → Prop}

theorem of_eq {outcome : Except EvalError α} (hrun : ∀ n, run n w = some (outcome, w')) (h : post outcome w') :
    Ends ticks run w post :=
  ⟨outcome, w', fun n _ => hrun n, h⟩

theorem pure {a : α} (h : post (.ok a) w) : Ends ticks (fun _ => Pure.pure a) w post :=
  of_eq (fun _ => rfl) h

theorem fail (h : post (.error .invalidExpression) w) : Ends ticks (fun _ => Walk.fail) w post :=
  of_eq (fun _ => rfl) h

theorem mono {post' : Except EvalError α → Walk → Prop} (h : Ends ticks run w post)
    (himp : ∀ outcome w', post outcome w' → post' outcome w') : Ends ticks run w post' := by
  obtain ⟨outcome, w', hrun, hpost⟩ := h
  exact ⟨outcome, w', hrun, himp _ _ hpost⟩

theorem of_le {ticks' : Nat} (h : Ends ticks run w post) (hticks : ticks ≤ ticks') : Ends ticks' run w post := by
  obtain ⟨outcome, w', hrun, hpost⟩ := h
  exact ⟨outcome, w', fun n hn => hrun n (hticks.trans hn), hpost⟩

/-- One more tick is spent on what the run consists of. -/
theorem tick {body : Nat → Walking α} (h : Ends ticks body w post) (hrun : ∀ n, run (n + 1) = body n) :
    Ends (ticks + 1) run w post := by
  obtain ⟨outcome, w', hbody, hpost⟩ := h
  refine ⟨outcome, w', fun n hn => ?_, hpost⟩
  obtain ⟨n, rfl⟩ : ∃ m, n = m + 1 := ⟨n - 1, by omega⟩
  rw [hrun]
  exact hbody n (by omega)

/-- A failure ends the whole run, and what follows a value goes on from where that one was left. -/
theorem bind {more : Nat → α → Walking β} {post' : Except EvalError β → Walk → Prop} (h : Ends ticks run w post)
    (hok : ∀ a w', post (.ok a) w' → Ends ticks (fun n => more n a) w' post')
    (herror : ∀ e w', post (.error e) w' → post' (.error e) w') : Ends ticks (fun n => run n >>= more n) w post' := by
  obtain ⟨outcome, w', hrun, hpost⟩ := h
  have hbind : ∀ n, ticks ≤ n → (run n >>= more n) w = ExceptT.bindCont (more n) outcome w' := by
    intro n hn
    show (run n w).bind (fun out => ExceptT.bindCont (more n) out.1 out.2) = _
    rw [hrun n hn]
    rfl
  cases outcome with
  | ok a =>
    obtain ⟨outcome, w'', hmore, hpost'⟩ := hok a w' hpost
    refine ⟨outcome, w'', fun n hn => ?_, hpost'⟩
    show (run n >>= more n) w = _
    rw [hbind n hn]
    exact hmore n hn
  | error e => exact ⟨.error e, w', hbind, herror e w' hpost⟩

theorem look_bind {more : Nat → Option Token → Walking α}
    (h : Ends ticks (fun n => more n tokens[w.cursor.position]?) w post) :
    Ends ticks (fun n => look tokens >>= more n) w post :=
  h

theorem step_bind {more : Nat → Unit → Walking α} (h : Ends ticks (fun n => more n ()) w.stepped post) :
    Ends ticks (fun n => step >>= more n) w post :=
  h

theorem next_bind {more : Nat → Option Token → Walking α}
    (h : Ends ticks (fun n => more n tokens[w.cursor.position]?)
      (if tokens[w.cursor.position]?.isSome then w.stepped else w) post) :
    Ends ticks (fun n => next tokens >>= more n) w post := by
  have hnext : next tokens w = some (.ok tokens[w.cursor.position]?,
      if tokens[w.cursor.position]?.isSome then w.stepped else w) := by
    show (if tokens[w.cursor.position]?.isSome then step >>= fun _ => Pure.pure tokens[w.cursor.position]?
      else Pure.pure tokens[w.cursor.position]? : Walking _) w = _
    cases tokens[w.cursor.position]? <;> rfl
  obtain ⟨outcome, w', hmore, hpost⟩ := h
  refine ⟨outcome, w', fun n hn => ?_, hpost⟩
  show (next tokens w).bind (fun out => ExceptT.bindCont (more n) out.1 out.2) = _
  rw [hnext]
  exact hmore n hn

theorem expect_bind {isExpected : Token → Bool} {more : Nat → Unit → Walking α}
    (hexpected : ∀ t, tokens[w.cursor.position]? = some t → isExpected t = true →
      Ends ticks (fun n => more n ()) w.stepped post)
    (hother : ∀ t, tokens[w.cursor.position]? = some t → isExpected t = false →
      post (.error .invalidExpression) w.stepped)
    (hend : tokens[w.cursor.position]? = none → post (.error .invalidExpression) w) :
    Ends ticks (fun n => expect tokens isExpected >>= more n) w post := by
  simp only [expect, bind_assoc]
  apply next_bind
  cases hlook : tokens[w.cursor.position]? with
  | none => exact of_eq (fun _ => rfl) (hend hlook)
  | some t =>
    cases ht : isExpected t with
    | false =>
      simp only [ht]
      exact of_eq (fun _ => rfl) (hother t hlook ht)
    | true =>
      simp only [ht, if_true, pure_bind]
      exact hexpected t hlook ht

end Ends

/-! ### Paths -/

/-- From `w` on, a walk has gone from place to place without going back, going past the last token, using more levels
than there are or fewer than `floor`. -/
inductive Path (tokens : List Token) (floor : Nat) (w : Walk) : Walk → Prop
  | refl : Path tokens floor w w
  | goTo {w' : Walk} {c : Cursor} (h : Path tokens floor w w') (hback : w'.cursor.position ≤ c.position)
      (hend : c.position ≤ tokens.length) (hfloor : floor ≤ c.depth) (hmax : c.depth ≤ maxLevels) :
      Path tokens floor w (w'.goTo c)

namespace Path

variable {floor : Nat}

theorem trans {w'' : Walk} (h : Path tokens floor w w') (h' : Path tokens floor w' w'') : Path tokens floor w w'' := by
  induction h' with
  | refl => exact h
  | goTo _ hback hend hfloor hmax ih => exact ih.goTo hback hend hfloor hmax

theorem mono {floor' : Nat} (h : Path tokens floor w w') (hle : floor' ≤ floor) : Path tokens floor' w w' := by
  induction h with
  | refl => exact .refl
  | goTo _ hback hend hfloor hmax ih => exact ih.goTo hback hend (hle.trans hfloor) hmax

theorem position_le (h : Path tokens floor w w') : w.cursor.position ≤ w'.cursor.position := by
  induction h with
  | refl => exact le_refl _
  | goTo _ hback _ _ _ ih => exact ih.trans hback

theorem position_le_length (h : Path tokens floor w w') (hw : w.cursor.position ≤ tokens.length) :
    w'.cursor.position ≤ tokens.length := by
  induction h with
  | refl => exact hw
  | goTo _ _ hend _ _ _ => exact hend

theorem forall_places (h : Path tokens floor w w')
    (hw : ∀ c ∈ w.places, floor ≤ c.depth ∧ c.depth ≤ maxLevels ∧ c.position ≤ tokens.length) :
    ∀ c ∈ w'.places, floor ≤ c.depth ∧ c.depth ≤ maxLevels ∧ c.position ≤ tokens.length := by
  induction h with
  | refl => exact hw
  | goTo _ _ hend hfloor hmax ih => exact List.forall_mem_cons.mpr ⟨⟨hfloor, hmax, hend⟩, ih⟩

theorem isChain_places (h : Path tokens floor w w')
    (hw : w.places.IsChain fun later earlier => earlier.position ≤ later.position) :
    w'.places.IsChain fun later earlier => earlier.position ≤ later.position := by
  induction h with
  | refl => exact hw
  | goTo _ hback _ _ _ ih => exact List.isChain_cons_cons.mpr ⟨hback, ih⟩

end Path

/-- A path that comes back to the level on which it began. -/
structure Trip (tokens : List Token) (w w' : Walk) : Prop where
  path : Path tokens w.cursor.depth w w'
  depth_eq : w'.cursor.depth = w.cursor.depth

namespace Trip

theorem refl : Trip tokens w w :=
  ⟨.refl, rfl⟩

theorem trans {w'' : Walk} (h : Trip tokens w w') (h' : Trip tokens w' w'') : Trip tokens w w'' :=
  ⟨h.path.trans (h.depth_eq ▸ h'.path), h'.depth_eq.trans h.depth_eq⟩

theorem stepped {t : Token} (hlook : tokens[w.cursor.position]? = some t) (hmax : w.cursor.depth ≤ maxLevels) :
    Trip tokens w w.stepped :=
  ⟨Path.refl.goTo (Nat.le_succ _) (List.getElem?_eq_some_iff.mp hlook).1 (le_refl _) hmax, w.stepped_depth⟩

/-- A signed operand on a level of its own. -/
theorem raised (hmax : w.cursor.depth < maxLevels) (hposition : w.cursor.position ≤ tokens.length)
    (h : Trip tokens w.raised w') : ∃ w'', w'.lowered? = some w'' ∧ w''.cursor.position = w'.cursor.position ∧
      Trip tokens w w'' := by
  have hdepth : w'.cursor.depth = w.cursor.depth + 1 := h.depth_eq.trans w.raised_depth
  have hraised : Path tokens w.cursor.depth w w.raised := Path.refl.goTo (le_refl _) hposition (Nat.le_succ _) hmax
  have hpath := hraised.trans (h.path.mono (Nat.le_succ _))
  refine ⟨w'.goTo { w'.cursor with depth := w.cursor.depth }, ?_, rfl, ?_, rfl⟩
  · rw [lowered?, hdepth]
  · exact hpath.goTo (le_refl _) (hpath.position_le_length hposition) (le_refl _) hmax.le

end Trip

end Reckoner.Walk
