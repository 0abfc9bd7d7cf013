import Keala.Core.ServeSteps

/-!
The invariant of a serving application along its runs: where each request stands,
and that the slot it was admitted to is released exactly once.
-/

namespace Keala.Core

open Keala.Http

variable {config : AppConfig} {st st' mid : ServeState} {r : RequestId}

/-! ### Microtasks -/

def Microtask.stage : Microtask → Stage
  | .react _ _ => .reacting
  | .relay _ => .relaying

def Stage.Queued (stage : Stage) : Prop := stage = .reacting ∨ stage = .relaying

structure Queued (st : ServeState) : Prop where
  nodup : (st.microtasks.map Microtask.request).Nodup
  stage : ∀ t ∈ st.microtasks, (st.serving t.request).stage = t.stage
  task : ∀ r, (st.serving r).stage.Queued → ∃ t ∈ st.microtasks, t.request = r

theorem Microtask.stage_queued (t : Microtask) : t.stage.Queued := by
  cases t with
  | react r value => exact .inl rfl
  | relay r => exact .inr rfl

theorem Queued.not_mem (h : Queued st) (hr : ¬(st.serving r).stage.Queued) {t : Microtask}
    (ht : t ∈ st.microtasks) : t.request ≠ r := by
  rintro rfl
  rw [h.stage t ht] at hr
  exact hr t.stage_queued

theorem Queued.congr (h : Queued st) (htasks : st'.microtasks = st.microtasks)
    (hstage : ∀ q, (st'.serving q).stage = (st.serving q).stage) : Queued st' := by
  refine ⟨htasks ▸ h.nodup, ?_, ?_⟩
  · intro t ht
    rw [hstage]
    exact h.stage t (htasks ▸ ht)
  · intro q hq
    rw [hstage] at hq
    rw [htasks]
    exact h.task q hq

/-- A request comes to a new stage: its old reaction has left the queue, and its
new one, if any, is the last. -/
theorem Queued.turn (h : Queued st) {rest : List Microtask} (hsub : rest.Sublist st.microtasks)
    (hrest : ∀ t ∈ rest, t.request ≠ r)
    (hother : ∀ t ∈ st.microtasks, t.request ≠ r → t ∈ rest)
    (hserving : ∀ q, q ≠ r → st'.serving q = st.serving q) (added : Option Microtask)
    (htasks : st'.microtasks = rest ++ added.toList)
    (hadded : ∀ t ∈ added, t.request = r ∧ t.stage = (st'.serving r).stage)
    (hsome : (st'.serving r).stage.Queued → added.isSome) : Queued st' := by
  refine ⟨?_, ?_, ?_⟩
  · rw [htasks, List.map_append]
    refine List.Nodup.append ((hsub.map _).nodup h.nodup) ?_ ?_
    · cases added with
      | none => exact List.nodup_nil
      | some t => exact List.nodup_singleton _
    · intro q hq hq'
      obtain ⟨t, ht, rfl⟩ := List.mem_map.mp hq
      obtain ⟨t', ht', heq⟩ := List.mem_map.mp hq'
      have hmine := (hadded t' (Option.mem_toList.mp ht')).1
      exact hrest t ht (heq.symm.trans hmine)
  · intro t ht
    rw [htasks] at ht
    rcases List.mem_append.mp ht with ht | ht
    · rw [hserving _ (hrest t ht)]
      exact h.stage t (hsub.subset ht)
    · obtain ⟨hr, hstage⟩ := hadded t (Option.mem_toList.mp ht)
      rw [hr, hstage]
  · intro q hq
    rw [htasks]
    by_cases heq : q = r
    · subst heq
      obtain ⟨t, rfl⟩ := Option.isSome_iff_exists.mp (hsome hq)
      exact ⟨t, List.mem_append_right _ (List.mem_singleton_self t), (hadded t rfl).1⟩
    · rw [hserving q heq] at hq
      obtain ⟨t, ht, rfl⟩ := h.task q hq
      exact ⟨t, List.mem_append_left _ (hother t ht heq), rfl⟩

/-- Between two stages without a reaction the queue stays. -/
theorem Queued.idle (h : Queued st) (hr : ¬(st.serving r).stage.Queued)
    (hserving : ∀ q, q ≠ r → st'.serving q = st.serving q)
    (htasks : st'.microtasks = st.microtasks) (hr' : ¬(st'.serving r).stage.Queued) :
    Queued st' :=
  h.turn (List.Sublist.refl _) (fun _ ht => h.not_mem hr ht) (fun _ ht _ => ht) hserving none
    (by rw [htasks, Option.toList_none, List.append_nil]) (fun _ ht => by cases ht)
    fun hq => absurd hq hr'

/-- The head of the queue runs. -/
theorem Queued.pop (h : Queued st) {t : Microtask} {rest : List Microtask}
    (hhead : st.microtasks = t :: rest)
    (hserving : ∀ q, q ≠ t.request → st'.serving q = st.serving q)
    (added : Option Microtask) (htasks : st'.microtasks = rest ++ added.toList)
    (hadded : ∀ t' ∈ added, t'.request = t.request ∧ t'.stage = (st'.serving t.request).stage)
    (hsome : (st'.serving t.request).stage.Queued → added.isSome) : Queued st' := by
  have hnodup := h.nodup
  rw [hhead, List.map_cons, List.nodup_cons] at hnodup
  refine h.turn ?_ ?_ ?_ hserving added htasks hadded hsome
  · rw [hhead]
    exact List.sublist_cons_self t rest
  · intro t' ht' heq
    exact hnodup.1 (heq ▸ List.mem_map_of_mem ht')
  · intro t' ht' hne
    rw [hhead] at ht'
    rcases List.mem_cons.mp ht' with rfl | ht'
    · exact absurd rfl hne
    · exact ht'

/-! ### Stages -/

structure Standing (config : AppConfig) (s : Serving) (phase : Phase) : Prop where
  idle : s.stage = .idle → s = .idle ∧ phase ≠ .released
  opened : s.stage = .pending ∨ s.stage = .reacting →
    s.Unsettled ∧ s.context ≠ none ∧ phase = if s.onceDone then .released else .running
  settled : s.stage = .relaying ∨ s.stage = .done → s.Slot phase ∧ s.Body
  race : s.stage ≠ .done → (s.onceDone = true ↔ s.answer = some .deadline)
  timer : s.timer = true →
    s.onceDone = false ∧ s.stage ≠ .done ∧ s.stage ≠ .idle ∧ 0 < config.requestTimeout
  zombie : s.answer = some .deadline →
    s.Unsettled ∧ phase = .released ∧ 0 < config.requestTimeout

structure ServeInv (config : AppConfig) (st : ServeState) : Prop where
  sound : Sound config st
  standing : ∀ r, Standing config (st.serving r) (st.lifecycle.phase r)
  queued : Queued st

def Remembers (st st' : ServeState) : Prop :=
  ∀ r, (st.serving r).answer = some .deadline → (st'.serving r).answer = some .deadline

structure Advance (config : AppConfig) (r : RequestId) (st st' : ServeState) : Prop where
  sound : Sound config st'
  serving : ∀ q, q ≠ r → st'.serving q = st.serving q
  phase : ∀ q, q ≠ r → st'.lifecycle.phase q = st.lifecycle.phase q
  standing : Standing config (st'.serving r) (st'.lifecycle.phase r)
  queued : Queued st'
  answer : (st.serving r).answer = some .deadline → (st'.serving r).answer = some .deadline

theorem ServeInv.advance (h : ServeInv config st) (ha : Advance config r st st') :
    ServeInv config st' ∧ Remembers st st' := by
  refine ⟨⟨ha.sound, ?_, ha.queued⟩, ?_⟩
  · intro q
    by_cases heq : q = r
    · exact heq ▸ ha.standing
    · rw [ha.serving q heq, ha.phase q heq]
      exact h.standing q
  · intro q hq
    by_cases heq : q = r
    · subst heq
      exact ha.answer hq
    · rw [ha.serving q heq]
      exact hq

theorem Serving.Unsettled.slot {s : Serving} (h : s.Unsettled) : s.Slot .released := by
  refine ⟨?_, fun hh => absurd h.hold hh.1, fun _ => rfl⟩
  intro p hp
  exact absurd (h.hold.symm.trans hp) (by simp)

theorem Serving.Unsettled.body {s : Serving} (h : s.Unsettled) : s.Body := by
  intro p hp
  exact absurd (h.retirement.symm.trans hp) (by simp)

theorem Serving.Unsettled.keeps {s : Serving} (h : s.Unsettled) {c : ContextId}
    (hc : s.context = some c) : s.Keeps c :=
  ⟨hc, fun hgone => absurd (h.retired.symm.trans hgone.1) (by decide)⟩

/-! ### The gate -/

theorem Standing.spared {lc lc' : LifecycleState} (hs : Spared lc lc') {s : Serving}
    (h : Standing config s (lc.phase r)) : Standing config s (lc'.phase r) := by
  have hkeep : ∀ P : Prop, [Decidable P] → lc.phase r = (if P then .released else .running) →
      lc'.phase r = if P then .released else .running := by
    intro P _ heq
    split
    · next hP =>
        rw [if_pos hP] at heq
        exact (hs.released r).mpr heq
    · next hP =>
        rw [if_neg hP] at heq
        exact hs.running r heq
  refine ⟨?_, ?_, ?_, h.race, h.timer, ?_⟩
  · intro hidle
    exact ⟨(h.idle hidle).1, fun hrel => (h.idle hidle).2 ((hs.released r).mp hrel)⟩
  · intro hopen
    obtain ⟨hnew, hcontext, hphase⟩ := h.opened hopen
    exact ⟨hnew, hcontext, hkeep _ hphase⟩
  · intro hsettled
    obtain ⟨hslot, hbody⟩ := h.settled hsettled
    exact ⟨⟨hslot.held, fun hh => hs.running r (hslot.running hh),
      fun hh => (hs.released r).mpr (hslot.released hh)⟩, hbody⟩
  · intro hanswer
    obtain ⟨hnew, hphase, hon⟩ := h.zombie hanswer
    exact ⟨hnew, (hs.released r).mpr hphase, hon⟩

theorem ServeInv.admission (h : ServeInv config st) {e : GateEvent} {lc : LifecycleState}
    (hstep : admissionStep config.overload st.lifecycle e = some lc) :
    ServeInv config
      { st with lifecycle := lc, subscribed := st.subscribed ++ registered st.lifecycle e } := by
  obtain ⟨hspared, hcallbacks⟩ := admissionStep_frame hstep
  refine ⟨⟨h.sound.gate.admissionStep hstep, ?_, ?_, h.sound.returned, h.sound.parted,
    h.sound.flags, ?_⟩, fun r => (h.standing r).spared hspared, ?_⟩
  · intro r
    rw [h.sound.counted r]
    exact if_congr (hspared.released r).symm rfl rfl
  · exact ⟨h.sound.contexts.nodup, h.sound.contexts.pooled, h.sound.contexts.kept,
      h.sound.contexts.alone⟩
  · exact hcallbacks.trans (by rw [h.sound.callbacks])
  · exact ⟨h.queued.nodup, h.queued.stage, h.queued.task⟩

end Keala.Core
