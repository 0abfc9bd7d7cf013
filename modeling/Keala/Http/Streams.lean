/-!
The pump of `src/utils/streams.ts`: a fresh stream that reads a response body
as its consumer demands and reports its end through one hook.
-/

namespace Keala.Http

inductive BodyKind
  | absent
  | readable
  | locked
  deriving DecidableEq

inductive ReadResult
  | chunk
  | done
  | error

structure Pump where
  finished : Bool
  /-- The pumped stream is closed, errored or cancelled. -/
  closed : Bool
  /-- A `pull` awaits its read. -/
  parked : Bool

def Pump.fresh : Pump := ⟨false, false, false⟩

inductive PumpEvent
  | pull
  | read (result : ReadResult)
  | cancel

/-- `finish`; the flag says whether `onFinish` is called. -/
def Pump.finish (p : Pump) : Pump × Bool := ({ p with finished := true }, !p.finished)

/-- One callback of the underlying source. -/
def Pump.step (p : Pump) : PumpEvent → Option (Pump × Bool)
  | .pull => if p.parked || p.closed then none else some ({ p with parked := true }, false)
  | .read result =>
      if p.parked then
        match result with
        | .done => some { p with parked := false, closed := true }.finish
        | .error => some { p with parked := false, closed := true }.finish
        | .chunk =>
            -- `enqueue` throws on a stream that its consumer has closed
            if p.closed then some { p with parked := false }.finish
            else some ({ p with parked := false }, false)
      else none
  | .cancel => if p.closed then none else some { p with closed := true }.finish

/-- The hook is called when the pump finishes, and the pump finishes once. -/
theorem Pump.step_finished {p p' : Pump} {e : PumpEvent} {hook : Bool}
    (hstep : p.step e = some (p', hook)) :
    hook = true ∧ p.finished = false ∧ p'.finished = true ∨
      hook = false ∧ p'.finished = p.finished := by
  have hfinish : ∀ q : Pump, q.finished = p.finished → q.finish = (p', hook) →
      hook = true ∧ p.finished = false ∧ p'.finished = true ∨
        hook = false ∧ p'.finished = p.finished := by
    intro q hq heq
    obtain ⟨rfl, rfl⟩ := Prod.mk.inj heq
    cases hfin : p.finished with
    | false => exact .inl ⟨by rw [hq, hfin]; rfl, rfl, rfl⟩
    | true => exact .inr ⟨by rw [hq, hfin]; rfl, rfl⟩
  cases e with
  | pull =>
      rw [Pump.step] at hstep
      split at hstep
      · cases hstep
      · cases hstep
        exact .inr ⟨rfl, rfl⟩
  | cancel =>
      rw [Pump.step] at hstep
      split at hstep
      · cases hstep
      · exact hfinish { p with closed := true } rfl (Option.some.inj hstep)
  | read result =>
      rw [Pump.step.eq_def] at hstep
      dsimp only at hstep
      split at hstep
      · cases result with
        | done =>
            exact hfinish { p with parked := false, closed := true } rfl (Option.some.inj hstep)
        | error =>
            exact hfinish { p with parked := false, closed := true } rfl (Option.some.inj hstep)
        | chunk =>
            dsimp only at hstep
            split at hstep
            · exact hfinish { p with parked := false } rfl (Option.some.inj hstep)
            · cases hstep
              exact .inr ⟨rfl, rfl⟩
      · cases hstep

end Keala.Http
