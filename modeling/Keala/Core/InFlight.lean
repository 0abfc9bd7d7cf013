import Keala.Core.ServeEvents

/-!
Deadlines and response bodies, and the accounting of in-flight requests: every
admitted request releases its slot exactly once.
-/

namespace Keala.Core

open Keala.Http

variable {config : AppConfig} {st st' mid : ServeState} {r : RequestId}

/-! ### The deadline -/

/-- A request whose timer can fire has a handler that has not settled. -/
theorem ServeInv.pending_of_timer (h : ServeInv config st) (ht : (st.serving r).timer = true)
    (htasks : st.microtasks = []) : (st.serving r).stage = .pending := by
  obtain ⟨-, hdone, hidle, -⟩ := (h.standing r).timer ht
  have hnot : ¬(st.serving r).stage.Queued := by
    intro hq
    obtain ⟨t, hmem, -⟩ := h.queued.task r hq
    rw [htasks] at hmem
    exact absurd hmem List.not_mem_nil
  cases hstage : (st.serving r).stage with
  | idle => exact absurd hstage hidle
  | pending => rfl
  | reacting => exact absurd (.inl hstage) hnot
  | relaying => exact absurd (.inr hstage) hnot
  | done => exact absurd hstage hdone

/-- The race is decided, and the slot of the context says so. -/
theorem Sound.answerDeadline (h : Sound config st) (hnew : (st.serving r).Unsettled)
    {c : ContextId} (hc : (st.serving r).context = some c) (s : Serving)
    (hcontext : s.context = some c) (hanswer : s.answer = some .deadline)
    (hnew' : s.Unsettled) :
    Sound config
      { st.setServing r s with
        deadlineAnswered := Function.update st.deadlineAnswered c true } := by
  have hmine : (st.serving r).Keeps c := hnew.keeps hc
  have hback : ∀ c', s.Keeps c' → (st.serving r).Keeps c' := by
    intro c' hc'
    have heq : c = c' := Option.some.inj (hcontext.symm.trans hc'.1)
    exact heq ▸ hmine
  have hgone : ∀ s : Serving, s.Unsettled → ¬s.Gone := fun s hs hg =>
    absurd (hs.retired.symm.trans hg.1) (by decide)
  have hcontexts := h.contexts.setServing hback
  refine ⟨h.gate, h.counted,
    ⟨hcontexts.nodup, hcontexts.pooled, hcontexts.kept, hcontexts.alone⟩, ?_, ?_, ?_, h.callbacks⟩
  · exact forall_setServing (P := fun q s => st.returns q = if s.Gone then 1 else 0)
      (by rw [h.returned r, if_neg (hgone _ hnew), if_neg (hgone _ hnew')]) fun q _ => h.returned q
  · exact forall_setServing (P := fun _ s => s.parting = true → s.retired = true)
      (fun hp => absurd (hnew'.parting.symm.trans hp) (by decide)) fun q _ => h.parted q
  · refine forall_setServing (P := fun _ s => ∀ c', s.Keeps c' →
      (Function.update st.deadlineAnswered c true c' = true ↔ s.answer = some .deadline)) ?_ ?_
    · intro c' hc'
      have heq : c = c' := Option.some.inj (hcontext.symm.trans hc'.1)
      rw [← heq, Function.update_self]
      exact iff_of_true rfl hanswer
    · intro q hq c' hc'
      have hne : c' ≠ c := by
        rintro rfl
        exact hq (h.contexts.alone q r c' hc' hmine)
      rw [Function.update_of_ne hne]
      exact h.flags q c' hc'

theorem deadline_advance (h : ServeInv config st) (ht : (st.serving r).timer = true)
    (htasks : st.microtasks = []) : Advance config r st (st.deadline config r) := by
  have hstanding := h.standing r
  have hstage := h.pending_of_timer ht htasks
  obtain ⟨honce, -, -, hon⟩ := hstanding.timer ht
  obtain ⟨hnew, hcontext, hphase⟩ := hstanding.opened (.inl hstage)
  obtain ⟨c, hc⟩ := Option.ne_none_iff_exists'.mp hcontext
  rw [honce, if_neg Bool.false_ne_true] at hphase
  have heq : st.deadline config r =
      { st.setServing r (st.serving r).timedOut with
        deadlineAnswered := Function.update st.deadlineAnswered c true }.releaseInFlight config
          r := by
    rw [ServeState.deadline]
    dsimp only
    rw [if_neg (by rw [honce]; exact Bool.false_ne_true), ServeState.markDeadline, hc]
    rfl
  have hnew' : (st.serving r).timedOut.Unsettled :=
    ⟨hnew.hold, hnew.released, hnew.retirement, hnew.retired, hnew.parting⟩
  have hsound := h.sound.answerDeadline hnew hc (st.serving r).timedOut hc rfl hnew'
  have hself : (st.deadline config r).serving r = (st.serving r).timedOut := by
    rw [heq]
    exact setServing_serving_self st r _
  have hother : ∀ q, q ≠ r → (st.deadline config r).serving q = st.serving q := by
    intro q hq
    rw [heq]
    exact setServing_serving_ne st hq _
  refine ⟨?_, hother, ?_, ?_, ?_, fun _ => ?_⟩
  · rw [heq]
    exact hsound.releaseInFlight hphase
  · rw [heq]
    exact (releaseInFlight_touches config _ r).phase
  · have hreleased : (st.deadline config r).lifecycle.phase r = .released := by
      rw [heq]
      exact releaseInFlight_phase_self config _ r
    rw [hreleased, hself]
    exact .of_open (.inl hstage) hnew' hcontext rfl (iff_of_true rfl rfl)
      (fun hf => by cases hf) fun _ => hon
  · refine h.queued.congr (by rw [heq]; rfl) ?_
    intro q
    by_cases hq : q = r
    · rw [hq, hself]
      rfl
    · rw [hother q hq]
  · rw [hself]
    rfl

/-! ### Bodies -/

theorem hold_advance (h : ServeInv config st) {p p' : Pump} {e : PumpEvent} {hook : Bool}
    (hp : (st.serving r).hold = some p) (hstep : p.step e = some (p', hook)) :
    Advance config r st
      (let st := st.setServing r { st.serving r with hold := some p' }
      if hook then st.releaseHold config r else st) := by
  have hnot : ¬(st.serving r).Unsettled := fun hnew =>
    absurd (hnew.hold.symm.trans hp) (by simp)
  obtain ⟨hslot, hbody⟩ := (h.standing r).settled ((h.standing r).settled_of hnot).1
  have hheld := hslot.held p hp
  have hself := setServing_serving_self st r { st.serving r with hold := some p' }
  have htouches := setServing_touches st r { st.serving r with hold := some p' }
  have hsound : Sound config (st.setServing r { st.serving r with hold := some p' }) :=
    h.sound.setServing ⟨rfl, Iff.rfl, rfl, rfl⟩
  rcases Pump.step_finished hstep with ⟨rfl, hopen, hfinished⟩ | ⟨rfl, hfinished⟩
  · have hreleased : (st.serving r).released = false := hheld.symm.trans hopen
    have hrunning := hslot.running ⟨by rw [hp]; simp, hreleased⟩
    have hgiven := Settles.releaseHold hsound hrunning (by rw [hself]; exact hreleased) (by
      rw [hself]
      intro q hq
      cases hq
      exact hfinished)
    obtain ⟨hsound', htouches', ⟨hold, released, hserving⟩, hslot'⟩ := hgiven
    rw [hself] at hserving
    refine .settled h hnot hsound' (htouches.trans htouches') ?_ hslot' ?_
    · show SameRace _ (((st.setServing r _).releaseHold config r).serving r)
      rw [hserving]
      exact ⟨rfl, rfl, rfl, rfl⟩
    · show (((st.setServing r _).releaseHold config r).serving r).Body
      rw [hserving]
      exact hbody
  · refine .settled h hnot hsound htouches ?_ ?_ ?_
    · show SameRace _ ((st.setServing r _).serving r)
      rw [hself]
      exact ⟨rfl, rfl, rfl, rfl⟩
    · show ((st.setServing r _).serving r).Slot (st.lifecycle.phase r)
      rw [hself]
      refine ⟨?_, fun hh => hslot.running ⟨by rw [hp]; simp, hh.2⟩,
        fun hh => hslot.released fun hh' => hh ⟨by simp, hh'.2⟩⟩
      intro q hq
      cases hq
      exact hfinished.trans hheld
    · show ((st.setServing r _).serving r).Body
      rw [hself]
      exact hbody

/-- A retirement moves on beside a settled slot. -/
theorem Advance.retires (h : ServeInv config st) (hnot : ¬(st.serving r).Unsettled)
    (s : Serving) (hs : ∃ retirement, s = { st.serving r with retirement })
    (ha : Retires config r (st.setServing r s) st') : Advance config r st st' := by
  obtain ⟨hslot, -⟩ := (h.standing r).settled ((h.standing r).settled_of hnot).1
  obtain ⟨retirement, rfl⟩ := hs
  obtain ⟨hsound, htouches, hphase, ⟨retirement', retired, parting, hserving⟩, hbody⟩ := ha
  rw [setServing_serving_self] at hserving
  refine .settled h hnot hsound ((setServing_touches st r _).trans htouches) ?_ ?_ hbody
  · rw [hserving]
    exact ⟨rfl, rfl, rfl, rfl⟩
  · rw [hphase, hserving]
    exact ⟨hslot.held, hslot.running, hslot.released⟩

theorem retirement_advance (h : ServeInv config st) {p p' : Pump} {e : PumpEvent} {hook : Bool}
    (hp : (st.serving r).retirement = some p) (hstep : p.step e = some (p', hook))
    (branches : Bool) :
    Advance config r st
      (let st := st.setServing r { st.serving r with retirement := some p' }
      if hook then st.retire r branches else st) := by
  have hnot : ¬(st.serving r).Unsettled := fun hnew =>
    absurd (hnew.retirement.symm.trans hp) (by simp)
  obtain ⟨-, hbody⟩ := (h.standing r).settled ((h.standing r).settled_of hnot).1
  have hself := setServing_serving_self st r { st.serving r with retirement := some p' }
  have hsound : Sound config (st.setServing r { st.serving r with retirement := some p' }) :=
    h.sound.setServing ⟨rfl, Iff.rfl, rfl, rfl⟩
  refine .retires h hnot _ ⟨some p', rfl⟩ ?_
  rcases Pump.step_finished hstep with ⟨rfl, hopen, hfinished⟩ | ⟨rfl, hfinished⟩
  · refine .retire hsound (by rw [hself]; exact (hbody p hp).symm.trans hopen) ?_ branches
    rw [hself]
    intro q hq
    cases hq
    exact hfinished
  · refine ⟨hsound, .refl r _, rfl, ⟨_, _, _, rfl⟩, ?_⟩
    show ((st.setServing r _).serving r).Body
    rw [hself]
    intro q hq
    cases hq
    exact hfinished.trans (hbody p hp)

theorem branchesSettled_advance (h : ServeInv config st)
    (hparting : (st.serving r).parting = true) : Advance config r st
      ((st.setServing r { st.serving r with parting := false }).release r) := by
  have hnot : ¬(st.serving r).Unsettled := fun hnew =>
    absurd (hnew.parting.symm.trans hparting) (by decide)
  obtain ⟨-, hbody⟩ := (h.standing r).settled ((h.standing r).settled_of hnot).1
  have hsame : st.setServing r (st.serving r) = st := by
    show { st with serving := Function.update st.serving r (st.serving r) } = st
    rw [Function.update_eq_self]
  refine .retires h hnot (st.serving r) ⟨_, rfl⟩ ?_
  rw [hsame]
  exact .parting h.sound hparting hbody

/-! ### Runs -/

theorem ServeInv.step (h : ServeInv config st) {e : ServeEvent}
    (hstep : serveStep config st e = some st') : ServeInv config st' ∧ Remembers st st' := by
  cases e with
  | gate e =>
      obtain ⟨lc, hlc, rfl⟩ := Option.map_eq_some_iff.mp hstep
      exact ⟨h.admission hlc, fun _ hz => hz⟩
  | serve r served =>
      rw [serveStep] at hstep
      split at hstep
      · next hr =>
          cases hstep
          exact h.advance (serveRequest_advance h hr.1 hr.2 served)
      · cases hstep
  | settles r value =>
      rw [serveStep] at hstep
      split at hstep
      · next hr =>
          cases hstep
          exact h.advance (settles_advance h hr value)
      · cases hstep
  | microtask branches =>
      rw [serveStep] at hstep
      split at hstep
      · cases hstep
      · next r value rest hhead =>
          cases hstep
          exact h.advance (react_advance h hhead branches)
      · next r rest hhead =>
          cases hstep
          exact h.advance (relay_advance h hhead)
  | deadline r =>
      rw [serveStep] at hstep
      split at hstep
      · next ht =>
          cases hstep
          exact h.advance (deadline_advance h ht.1 (List.isEmpty_iff.mp ht.2))
      · cases hstep
  | hold r e =>
      obtain ⟨⟨p', hook⟩, hbind, rfl⟩ := Option.map_eq_some_iff.mp hstep
      obtain ⟨p, hp, hpump⟩ := Option.bind_eq_some_iff.mp hbind
      exact h.advance (hold_advance h hp hpump)
  | retirement r e branches =>
      obtain ⟨⟨p', hook⟩, hbind, rfl⟩ := Option.map_eq_some_iff.mp hstep
      obtain ⟨p, hp, hpump⟩ := Option.bind_eq_some_iff.mp hbind
      exact h.advance (retirement_advance h hp hpump branches)
  | branchesSettled r =>
      rw [serveStep] at hstep
      split at hstep
      · next hp =>
          cases hstep
          exact h.advance (branchesSettled_advance h hp)
      · cases hstep

theorem createApplication_inv (config : AppConfig) : ServeInv config createApplication := by
  have hidle : ∀ r, createApplication.serving r = .idle := fun _ => rfl
  have hnone : ∀ r c, ¬(createApplication.serving r).Keeps c := by
    intro r c hc
    cases hc.1
  refine ⟨⟨createLifecycle_inv config.overload, fun _ => rfl, ⟨List.nodup_nil, ?_, ?_, ?_⟩,
    ?_, ?_, ?_, rfl⟩, ?_, ⟨List.nodup_nil, ?_, ?_⟩⟩
  · intro c hc
    exact absurd hc List.not_mem_nil
  · intro r c hc
    exact absurd hc (hnone r c)
  · intro r q c hc _
    exact absurd hc (hnone r c)
  · intro r
    exact (if_neg (by rw [hidle]; decide)).symm
  · intro r hp
    cases hp
  · intro r c hc
    exact absurd hc (hnone r c)
  · intro r
    refine ⟨fun _ => ⟨rfl, by simp [createApplication, createLifecycle]⟩, ?_, ?_, ?_, ?_, ?_⟩
    · rintro (hs | hs) <;> cases hs
    · rintro (hs | hs) <;> cases hs
    · intro _
      exact iff_of_false (by rw [hidle]; decide) (by rw [hidle]; decide)
    · intro ht
      cases ht
    · intro hz
      cases hz
  · intro t ht
    exact absurd ht List.not_mem_nil
  · rintro r (hq | hq) <;> cases hq

theorem serve_inv (h : (application config).Reachable st) : ServeInv config st :=
  h.invariant (createApplication_inv config) fun _ _ _ hs hstep => (hs.step hstep).1

/-! ### The accounting -/

theorem Serving.Slot.unfinished {s : Serving} {phase : Phase} (h : s.Slot phase)
    (hh : s.Holding) : ∃ p, s.hold = some p ∧ p.finished = false := by
  obtain ⟨p, hp⟩ := Option.ne_none_iff_exists'.mp hh.1
  exact ⟨p, hp, (h.held p hp).trans hh.2⟩

/-- The slot of a settled request is in use for the sake of its body. -/
theorem Serving.Slot.holding {s : Serving} (h : s.Slot .running) : s.Holding := by
  by_contra hnot
  exact absurd (h.released hnot) (by decide)

/-- What the release of an admitted request waits for: its dispatch, its handler or
its deadline, or the end of its body. -/
def Serving.Due (s : Serving) : Prop :=
  s.stage = .idle ∨
    (s.stage = .pending ∨ s.stage = .reacting) ∧ s.answer ≠ some .deadline ∨
    ∃ p, s.hold = some p ∧ p.finished = false

/-- An admitted request has been released, or its release is to come. -/
theorem Standing.due {s : Serving} {phase : Phase} (h : Standing config s phase)
    (hphase : phase = .running) : s.Due := by
  subst hphase
  have settled : s.stage = .relaying ∨ s.stage = .done →
      ∃ p, s.hold = some p ∧ p.finished = false := by
    intro hstage
    have hslot := (h.settled hstage).1
    exact hslot.unfinished hslot.holding
  cases hstage : s.stage with
  | idle => exact .inl hstage
  | pending =>
      refine .inr (.inl ⟨.inl hstage, fun hz => ?_⟩)
      exact absurd (h.zombie hz).2.1 (by decide)
  | reacting =>
      refine .inr (.inl ⟨.inr hstage, fun hz => ?_⟩)
      exact absurd (h.zombie hz).2.1 (by decide)
  | relaying => exact .inr (.inr (settled (.inl hstage)))
  | done => exact .inr (.inr (settled (.inr hstage)))

/-- The one request whose decrements are counted. -/
theorem ServeInv.admitted_cases (h : ServeInv config st) (r : RequestId) :
    (st.lifecycle.Admitted r →
      st.decrements r = 1 ∧ st.lifecycle.phase r = .released ∨
        st.decrements r = 0 ∧ st.lifecycle.Holds r) ∧
      (¬st.lifecycle.Admitted r → st.decrements r = 0) := by
  have hcount := h.sound.counted r
  refine ⟨?_, ?_⟩
  · rintro (hholds | hreleased)
    · refine .inr ⟨?_, hholds⟩
      rw [hcount, if_neg]
      intro hreleased
      rcases hholds with hrun | ⟨hwait, -⟩
      · exact absurd (hreleased.symm.trans hrun) (by decide)
      · exact absurd (hreleased.symm.trans hwait) (by decide)
    · exact .inl ⟨by rw [hcount, if_pos hreleased], hreleased⟩
  · intro hnot
    rw [hcount, if_neg fun hreleased => hnot (.inr hreleased)]

/-- A deadline has answered: its request is released and keeps its context. -/
theorem ServeInv.zombie (h : ServeInv config st)
    (hz : (st.serving r).answer = some .deadline) : st.decrements r = 1 ∧ st.returns r = 0 := by
  obtain ⟨hnew, hphase, -⟩ := (h.standing r).zombie hz
  refine ⟨by rw [h.sound.counted r, if_pos hphase], ?_⟩
  rw [h.sound.returned r, if_neg]
  exact fun hgone => absurd (hnew.retired.symm.trans hgone.1) (by decide)

def fullConfig : AppConfig where
  overload := some smallOverload
  requestTimeout := 5
  pooling := true

/-- A request answered by its deadline whose handler settles late, and one whose
body is held by a drain until its consumer cancels with a pull parked. -/
def drainingRun : List ServeEvent :=
  [.gate (.arrive 0), .serve 0 .async, .deadline 0, .gate (.arrive 1), .serve 1 .async,
    .gate .close, .gate (.subscribe 7), .settles 0 ⟨.readable, false⟩, .microtask false,
    .microtask false, .settles 1 ⟨.readable, false⟩, .microtask false, .microtask false,
    .hold 1 .pull, .hold 1 .cancel, .hold 1 (.read .error)]

end Keala.Core
