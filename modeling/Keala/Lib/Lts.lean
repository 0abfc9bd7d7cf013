/-!
Transition systems given by a partial step function, their runs, and the rule
that lifts what one step preserves to whole runs.
-/

universe u v

/-- States, events, and where an event leads from a state in which it can
happen. -/
structure Lts (σ : Type u) (ε : Type v) where
  start : σ
  step : σ → ε → Option σ

namespace Lts

variable {σ : Type u} {ε : Type v} (L : Lts σ ε)

/-- The states that runs reach whose every step meets a condition. -/
inductive Reach (cond : σ → ε → Prop) : σ → Prop
  | start : Reach cond L.start
  | step {s t : σ} {e : ε} (h : Reach cond s) (hcond : cond s e) (hstep : L.step s e = some t) :
      Reach cond t

def Reachable : σ → Prop := L.Reach fun _ _ => True

variable {L}

/-- What holds at the start and is kept by each step of a run holds along it. -/
theorem Reach.invariant {cond : σ → ε → Prop} {Inv : σ → Prop} (hstart : Inv L.start)
    (hstep : ∀ s e t, Inv s → cond s e → L.step s e = some t → Inv t) {s : σ}
    (h : L.Reach cond s) : Inv s := by
  induction h with
  | start => exact hstart
  | step _ hcond hs ih => exact hstep _ _ _ ih hcond hs

theorem Reachable.invariant {Inv : σ → Prop} (hstart : Inv L.start)
    (hstep : ∀ s e t, Inv s → L.step s e = some t → Inv t) {s : σ} (h : L.Reachable s) : Inv s :=
  Reach.invariant hstart (fun s e t hs _ => hstep s e t hs) h

variable (L)

def runFrom : σ → List ε → Option σ
  | s, [] => some s
  | s, e :: es => (L.step s e).bind fun t => runFrom t es

variable {L}

theorem Reach.runFrom {cond : σ → ε → Prop} {s t : σ} {es : List ε} (h : L.Reach cond s)
    (hcond : ∀ u, ∀ e ∈ es, cond u e) (hrun : L.runFrom s es = some t) : L.Reach cond t := by
  induction es generalizing s with
  | nil => cases hrun; exact h
  | cons e es ih =>
      obtain ⟨mid, hmid, hrest⟩ := Option.bind_eq_some_iff.mp hrun
      obtain ⟨hfirst, hlater⟩ : (∀ u, cond u e) ∧ ∀ u, ∀ e ∈ es, cond u e :=
        ⟨fun u => hcond u e List.mem_cons_self, fun u e he => hcond u e (List.mem_cons_of_mem _ he)⟩
      exact ih (.step h (hfirst s) hmid) hlater hrest

theorem Reachable.runFrom {s t : σ} {es : List ε} (h : L.Reachable s)
    (hrun : L.runFrom s es = some t) : L.Reachable t :=
  Reach.runFrom h (fun _ _ _ => trivial) hrun

/-- A list of events that can happen from the start leads to a reachable state. -/
theorem reachable_of_run {t : σ} (es : List ε) (h : L.runFrom L.start es = some t) :
    L.Reachable t :=
  Reachable.runFrom .start h

/-- What each step of a run makes of the events before it and the state they lead to. -/
theorem runFrom_invariant {Inv : List ε → σ → Prop} (hstart : Inv [] L.start)
    (hstep : ∀ es s e t, Inv es s → L.step s e = some t → Inv (es ++ [e]) t) {es : List ε} {s : σ}
    (hrun : L.runFrom L.start es = some s) : Inv es s := by
  have hfrom : ∀ gone now, Inv gone now → L.runFrom now es = some s → Inv (gone ++ es) s := by
    clear hrun
    induction es with
    | nil =>
        intro gone now hnow hrun
        cases hrun
        rwa [List.append_nil]
    | cons e es ih =>
        intro gone now hnow hrun
        obtain ⟨mid, hmid, hrest⟩ := Option.bind_eq_some_iff.mp hrun
        rw [List.append_cons]
        exact ih (gone ++ [e]) mid (hstep gone now e mid hnow hmid) hrest
  exact hfrom [] L.start hstart hrun

/-- What does not hold at the start of a run and holds at its end is brought about
by one of its steps. -/
theorem runFrom_becomes {P : σ → Prop} {s t : σ} {es : List ε} (hrun : L.runFrom s es = some t)
    (hs : ¬P s) (ht : P t) : ∃ first e rest u v, es = first ++ e :: rest ∧
      L.runFrom s first = some u ∧ L.step u e = some v ∧ ¬P u ∧ P v := by
  induction es generalizing s with
  | nil =>
      cases hrun
      exact absurd ht hs
  | cons e es ih =>
      obtain ⟨mid, hmid, hrest⟩ := Option.bind_eq_some_iff.mp hrun
      by_cases hnow : P mid
      · exact ⟨[], e, es, s, mid, rfl, rfl, hmid, hs, hnow⟩
      · obtain ⟨first, e', rest, u, v, rfl, hfirst, hlater⟩ := ih hrest hnow
        refine ⟨e :: first, e', rest, u, v, rfl, ?_, hlater⟩
        rw [runFrom, hmid]
        exact hfirst

end Lts
