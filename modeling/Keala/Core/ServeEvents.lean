import Keala.Core.ServeRuns

/-!
The events of a serving application up to the settlement of a request: dispatch,
the reaction to it and the reaction of its race.
-/

namespace Keala.Core

open Keala.Http

variable {config : AppConfig} {st st' mid : ServeState} {r : RequestId}

/-! ### Dispatch -/

structure Acquires (config : AppConfig) (r : RequestId) (st st' : ServeState) : Prop where
  sound : Sound config st'
  touches : Touches r st st'
  phase : st'.lifecycle.phase r = st.lifecycle.phase r
  serving : ∃ c, st'.serving r = { Serving.idle with context := some c }

/-- A context that nobody has goes to a request that has none. -/
theorem Acquires.of_free (h : Sound config st) (hidle : st.serving r = .idle) {c : ContextId}
    {pool : List ContextId} {constructed : ℕ} (hpool : pool.Sublist st.pool) (hc : c ∉ pool)
    (hfree : ∀ q c', (st.serving q).Keeps c' → c' ≠ c) (hlt : c < constructed)
    (hle : st.constructed ≤ constructed) :
    Acquires config r st
      { st.setServing r { st.serving r with context := some c } with
        pool
        constructed
        deadlineAnswered := Function.update st.deadlineAnswered c false } := by
  have hback : ∀ q c', ((st.setServing r { st.serving r with context := some c }).serving q).Keeps
      c' → q = r ∧ c' = c ∨ q ≠ r ∧ (st.serving q).Keeps c' := by
    intro q
    refine forall_setServing
      (P := fun q s => ∀ c', s.Keeps c' → q = r ∧ c' = c ∨ q ≠ r ∧ (st.serving q).Keeps c') ?_ ?_ q
    · intro c' hc'
      exact .inl ⟨rfl, (Option.some.inj hc'.1).symm⟩
    · intro q hq c' hc'
      exact .inr ⟨hq, hc'⟩
  refine ⟨⟨h.gate, h.counted, ⟨hpool.nodup h.contexts.nodup, ?_, ?_, ?_⟩, ?_, ?_, ?_, h.callbacks⟩,
    ⟨(setServing_touches st r _).serving, fun _ _ => rfl, rfl⟩, rfl,
    ⟨c, (setServing_serving_self st r _).trans (by rw [hidle])⟩⟩
  · intro c' hc'
    exact Nat.lt_of_lt_of_le (h.contexts.pooled c' (hpool.subset hc')) hle
  · intro q c' hq
    rcases hback q c' hq with ⟨-, rfl⟩ | ⟨-, hq⟩
    · exact ⟨hlt, hc⟩
    · obtain ⟨hbuilt, hout⟩ := h.contexts.kept q c' hq
      exact ⟨Nat.lt_of_lt_of_le hbuilt hle, fun hin => hout (hpool.subset hin)⟩
  · intro q q' c' hq hq'
    rcases hback q c' hq with ⟨rfl, rfl⟩ | ⟨-, hold⟩
    · rcases hback q' c' hq' with ⟨rfl, -⟩ | ⟨-, hold'⟩
      · rfl
      · exact absurd rfl (hfree q' c' hold')
    · rcases hback q' c' hq' with ⟨-, rfl⟩ | ⟨-, hold'⟩
      · exact absurd rfl (hfree q c' hold)
      · exact h.contexts.alone q q' c' hold hold'
  · exact forall_setServing (P := fun q s => st.returns q = if s.Gone then 1 else 0)
      (h.returned r) fun q _ => h.returned q
  · exact forall_setServing (P := fun _ s => s.parting = true → s.retired = true)
      (h.parted r) fun q _ => h.parted q
  · intro q c' hq
    show Function.update st.deadlineAnswered c false c' = true ↔ _
    rcases hback q c' hq with ⟨rfl, rfl⟩ | ⟨hne, hold⟩
    · rw [Function.update_self]
      show false = true ↔ ((st.setServing q _).serving q).answer = _
      rw [setServing_serving_self, hidle]
      exact iff_of_false (by decide) (by simp [Serving.idle])
    · rw [Function.update_of_ne (hfree q c' hold)]
      show _ ↔ ((st.setServing r _).serving q).answer = _
      rw [setServing_serving_ne st hne]
      exact h.flags q c' hold

theorem acquire_acquires (h : Sound config st) (hidle : st.serving r = .idle) :
    Acquires config r st (st.acquire config r) := by
  rw [ServeState.acquire]
  split
  · next c hc =>
      have hlast : st.pool.getLast? = some c := by
        split at hc
        · exact hc
        · cases hc
      obtain ⟨init, heq⟩ := List.getLast?_eq_some_iff.mp hlast
      have hnodup := h.contexts.nodup
      have hmem : c ∈ st.pool := List.mem_of_getLast? hlast
      rw [heq] at hnodup
      refine .of_free h hidle (List.dropLast_sublist st.pool) ?_ ?_ (h.contexts.pooled c hmem)
        (Nat.le_refl _)
      · rw [heq, List.dropLast_concat]
        intro hin
        exact (List.nodup_append.mp hnodup).2.2 c hin c (List.mem_singleton_self c) rfl
      · rintro q c' hq rfl
        exact (h.contexts.kept q c' hq).2 hmem
  · refine .of_free h hidle (List.Sublist.refl _) ?_ ?_ (Nat.lt_succ_self _) (Nat.le_succ _)
    · intro hin
      exact absurd (h.contexts.pooled _ hin) (Nat.lt_irrefl _)
    · rintro q c' hq rfl
      exact absurd (h.contexts.kept q _ hq).1 (Nat.lt_irrefl _)

/-- The slot `deadlineAnswered` of a request that is not settled tells whether its
deadline has answered. -/
theorem Sound.answered_iff (h : Sound config st) (hnew : (st.serving r).Unsettled)
    (hcontext : (st.serving r).context ≠ none) :
    st.answered r = true ↔ (st.serving r).answer = some .deadline := by
  obtain ⟨c, hc⟩ := Option.ne_none_iff_exists'.mp hcontext
  rw [ServeState.answered, hc]
  exact h.flags r c (hnew.keeps hc)

structure Handled (config : AppConfig) (r : RequestId) (st st' : ServeState) : Prop where
  sound : Sound config st'
  touches : Touches r st st'
  serving : ∃ hold released retirement retired parting,
    st'.serving r = { st.serving r with hold, released, retirement, retired, parting }
  slot : (st'.serving r).Slot (st'.lifecycle.phase r)
  body : (st'.serving r).Body

theorem settleNativeHandle_handled (h : Sound config st) (hr : st.lifecycle.phase r = .running)
    (hnew : (st.serving r).Unsettled) (hanswered : st.answered r = false) (value : Reply)
    (branches : Bool) :
    Handled config r st (st.settleNativeHandle config r value branches) := by
  have hguard : st.guardedSettle config r value = st.settle config r value := by
    rw [ServeState.guardedSettle, if_neg]
    intro hzombie
    exact absurd (hanswered.symm.trans hzombie.2) (by decide)
  have hsettled := settle_settles h hr hnew value
  rw [ServeState.settleNativeHandle, hguard]
  generalize st.settle config r value = settled at hsettled ⊢
  obtain ⟨mid, value'⟩ := settled
  obtain ⟨hsound, htouches, ⟨hold, released, hserving⟩, hslot⟩ := hsettled
  dsimp only at hsound htouches hserving hslot ⊢
  split
  · have hretires := retireWithBody_retires hsound (by rw [hserving]; exact hnew.retirement)
      (by rw [hserving]; exact hnew.retired) value' branches
    obtain ⟨hsound', htouches', hphase, ⟨retirement, retired, parting, hserving'⟩, hbody⟩ :=
      hretires
    refine ⟨hsound', htouches.trans htouches', ⟨hold, released, retirement, retired, parting, ?_⟩,
      ?_, hbody⟩
    · rw [hserving', hserving]
    · rw [hphase, hserving']
      exact ⟨hslot.held, hslot.running, hslot.released⟩
  · refine ⟨hsound, htouches, ⟨hold, released, _, _, _, hserving⟩, hslot, ?_⟩
    rw [hserving]
    exact hnew.body

/-! ### The stages after a handler -/

structure SameRace (s s' : Serving) : Prop where
  stage : s'.stage = s.stage
  onceDone : s'.onceDone = s.onceDone
  timer : s'.timer = s.timer
  answer : s'.answer = s.answer

theorem Handled.race (h : Handled config r st st') : SameRace (st.serving r) (st'.serving r) := by
  obtain ⟨_, _, _, _, _, hserving⟩ := h.serving
  rw [hserving]
  exact ⟨rfl, rfl, rfl, rfl⟩

theorem Serving.Unsettled.withStage {s : Serving} (h : s.Unsettled) (stage : Stage) :
    { s with stage }.Unsettled :=
  ⟨h.hold, h.released, h.retirement, h.retired, h.parting⟩

theorem Serving.Slot.withStage {s : Serving} {phase : Phase} (h : s.Slot phase) (stage : Stage) :
    { s with stage }.Slot phase :=
  ⟨h.held, h.running, h.released⟩

/-- The handler has not settled. -/
theorem Standing.of_open {s : Serving} {phase : Phase}
    (hstage : s.stage = .pending ∨ s.stage = .reacting) (hnew : s.Unsettled)
    (hcontext : s.context ≠ none) (hphase : phase = if s.onceDone then .released else .running)
    (hrace : s.onceDone = true ↔ s.answer = some .deadline)
    (htimer : s.timer = true → s.onceDone = false ∧ 0 < config.requestTimeout)
    (hon : s.answer = some .deadline → 0 < config.requestTimeout) : Standing config s phase where
  idle := fun hidle => by
    rw [hidle] at hstage
    rcases hstage with hstage | hstage <;> cases hstage
  opened := fun _ => ⟨hnew, hcontext, hphase⟩
  settled := fun hsettled => by
    rcases hstage with hstage | hstage <;> rw [hstage] at hsettled <;>
      rcases hsettled with hsettled | hsettled <;> cases hsettled
  race := fun _ => hrace
  timer := fun ht => by
    refine ⟨(htimer ht).1, ?_, ?_, (htimer ht).2⟩ <;>
      rcases hstage with hstage | hstage <;> rw [hstage] <;> decide
  zombie := fun hzombie => ⟨hnew, by rw [hphase, if_pos (hrace.mpr hzombie)], hon hzombie⟩

/-- The handler has settled, and the race has not seen it. -/
theorem Standing.of_relaying {s : Serving} {phase : Phase} (hstage : s.stage = .relaying)
    (hslot : s.Slot phase) (hbody : s.Body) (hrace : s.onceDone = true ↔ s.answer = some .deadline)
    (hon : 0 < config.requestTimeout) (htimer : s.timer = true → s.onceDone = false)
    (hzombie : s.answer = some .deadline → s.Unsettled) : Standing config s phase where
  idle := fun hidle => by rw [hstage] at hidle; cases hidle
  opened := fun hopen => by rw [hstage] at hopen; rcases hopen with hopen | hopen <;> cases hopen
  settled := fun _ => ⟨hslot, hbody⟩
  race := fun _ => hrace
  timer := fun ht => ⟨htimer ht, by rw [hstage]; decide, by rw [hstage]; decide, hon⟩
  zombie := fun hz => ⟨hzombie hz, hslot.released fun hh => hh.1 (hzombie hz).hold, hon⟩

/-- Nothing of the race is left. -/
theorem Standing.of_done {s : Serving} {phase : Phase} (hstage : s.stage = .done)
    (hslot : s.Slot phase) (hbody : s.Body) (htimer : s.timer = false)
    (hzombie : s.answer = some .deadline → s.Unsettled ∧ 0 < config.requestTimeout) :
    Standing config s phase where
  idle := fun hidle => by rw [hstage] at hidle; cases hidle
  opened := fun hopen => by rw [hstage] at hopen; rcases hopen with hopen | hopen <;> cases hopen
  settled := fun _ => ⟨hslot, hbody⟩
  race := fun hne => absurd hstage hne
  timer := fun ht => by rw [htimer] at ht; cases ht
  zombie := fun hz =>
    ⟨(hzombie hz).1, hslot.released fun hh => hh.1 (hzombie hz).1.hold, (hzombie hz).2⟩

/-- The body or the branches of a settled request move. -/
theorem Standing.settle {s s' : Serving} {phase phase' : Phase} (h : Standing config s phase)
    (hrace : SameRace s s') (hsettled : s.stage = .relaying ∨ s.stage = .done)
    (hslot : s'.Slot phase') (hbody : s'.Body) (hnot : s.answer ≠ some .deadline) :
    Standing config s' phase' where
  idle := fun hidle => by
    rw [hrace.stage] at hidle
    rw [hidle] at hsettled
    rcases hsettled with hsettled | hsettled <;> cases hsettled
  opened := fun hopen => by
    rw [hrace.stage] at hopen
    rcases hsettled with hsettled | hsettled <;> rw [hsettled] at hopen <;>
      rcases hopen with hopen | hopen <;> cases hopen
  settled := fun _ => ⟨hslot, hbody⟩
  race := by
    rw [hrace.stage, hrace.onceDone, hrace.answer]
    exact h.race
  timer := by
    rw [hrace.timer, hrace.onceDone, hrace.stage]
    exact h.timer
  zombie := fun hzombie => absurd (hrace.answer ▸ hzombie) hnot

/-- Nothing of a settled response moves before the handler has settled. -/
theorem Standing.settled_of {s : Serving} {phase : Phase} (h : Standing config s phase)
    (hnot : ¬s.Unsettled) :
    (s.stage = .relaying ∨ s.stage = .done) ∧ s.answer ≠ some .deadline := by
  refine ⟨?_, fun hzombie => hnot (h.zombie hzombie).1⟩
  cases hstage : s.stage with
  | idle =>
      rw [(h.idle hstage).1] at hnot
      exact absurd ⟨rfl, rfl, rfl, rfl, rfl⟩ hnot
  | pending => exact absurd (h.opened (.inl hstage)).1 hnot
  | reacting => exact absurd (h.opened (.inr hstage)).1 hnot
  | relaying => exact .inl rfl
  | done => exact .inr rfl

theorem Advance.settled (h : ServeInv config st) (hnot : ¬(st.serving r).Unsettled)
    (hsound : Sound config st') (htouches : Touches r st st')
    (hrace : SameRace (st.serving r) (st'.serving r))
    (hslot : (st'.serving r).Slot (st'.lifecycle.phase r)) (hbody : (st'.serving r).Body) :
    Advance config r st st' := by
  obtain ⟨hsettled, hanswer⟩ := (h.standing r).settled_of hnot
  refine ⟨hsound, htouches.serving, htouches.phase,
    (h.standing r).settle hrace hsettled hslot hbody hanswer,
    h.queued.congr htouches.microtasks ?_, fun hzombie => absurd hzombie hanswer⟩
  intro q
  by_cases heq : q = r
  · rw [heq, hrace.stage]
  · rw [htouches.serving q heq]

theorem Serving.idle_unsettled : Serving.idle.Unsettled := ⟨rfl, rfl, rfl, rfl, rfl⟩

/-! ### Serving -/

/-- The dispatch has settled at once. -/
theorem Advance.sync (h : ServeInv config st) (hidle : st.serving r = .idle)
    (hsound : Sound config mid) (htouches : Touches r st mid)
    (hrace : SameRace .idle (mid.serving r))
    (hslot : (mid.serving r).Slot (mid.lifecycle.phase r)) (hbody : (mid.serving r).Body) :
    Advance config r st (mid.setStage r .done) := by
  have hdone : (mid.setStage r .done).serving r = { mid.serving r with stage := .done } :=
    setServing_serving_self mid r _
  have hall := htouches.trans (setServing_touches mid r { mid.serving r with stage := .done })
  refine ⟨hsound.setStage .done, hall.serving, hall.phase, ?_, ?_, ?_⟩
  · rw [hdone]
    refine .of_done rfl (hslot.withStage .done) hbody hrace.timer ?_
    intro hz
    cases hrace.answer.symm.trans hz
  · refine h.queued.idle ?_ hall.serving hall.microtasks ?_
    · rw [hidle]
      rintro (hq | hq) <;> cases hq
    · rw [hdone]
      rintro (hq | hq) <;> cases hq
  · intro hzombie
    rw [hidle] at hzombie
    cases hzombie

theorem serveRequest_advance (h : ServeInv config st) (hr : st.lifecycle.phase r = .running)
    (hstage : (st.serving r).stage = .idle) (served : Served) :
    Advance config r st (serveRequest config st r served) := by
  have hidle := ((h.standing r).idle hstage).1
  cases served with
  | hostRefused value =>
      obtain ⟨hsound, htouches, ⟨hold, released, hserving⟩, hslot⟩ :=
        settle_settles h.sound hr (hidle ▸ Serving.idle_unsettled) value
      rw [hidle] at hserving
      refine .sync h hidle hsound htouches ?_ hslot ?_
      · rw [hserving]
        exact ⟨rfl, rfl, rfl, rfl⟩
      · rw [hserving]
        exact Serving.idle_unsettled.body
  | sync value branches =>
      obtain ⟨hsound, htouches, hphase, c, hserving⟩ := acquire_acquires h.sound hidle
      have hnew : ((st.acquire config r).serving r).Unsettled := by
        rw [hserving]
        exact ⟨rfl, rfl, rfl, rfl, rfl⟩
      have hanswered : (st.acquire config r).answered r = false := by
        rw [← Bool.not_eq_true, hsound.answered_iff hnew (by rw [hserving]; simp), hserving]
        simp [Serving.idle]
      have hhandled := settleNativeHandle_handled hsound (hphase.trans hr) hnew hanswered value
        branches
      refine .sync h hidle hhandled.sound (htouches.trans hhandled.touches) ?_ hhandled.slot
        hhandled.body
      have hrace := hhandled.race
      rw [hserving] at hrace
      exact ⟨hrace.stage, hrace.onceDone, hrace.timer, hrace.answer⟩
  | async =>
      obtain ⟨hsound, htouches, hphase, c, hserving⟩ := acquire_acquires h.sound hidle
      have hall := htouches.trans (setServing_touches _ r
        { (st.acquire config r).serving r with
          stage := .pending, timer := decide (0 < config.requestTimeout) })
      have hself : (serveRequest config st r .async).serving r =
          { Serving.idle with
            stage := .pending, context := some c, timer := decide (0 < config.requestTimeout) } :=
        (setServing_serving_self _ r _).trans (by rw [hserving])
      refine ⟨hsound.setServing ⟨rfl, Iff.rfl, rfl, rfl⟩, hall.serving, hall.phase, ?_, ?_, ?_⟩
      · rw [hself]
        refine .of_open (.inl rfl) ⟨rfl, rfl, rfl, rfl, rfl⟩ (by simp) (hphase.trans hr)
          (by simp [Serving.idle]) (fun ht => ⟨rfl, of_decide_eq_true ht⟩) ?_
        intro hz
        cases hz
      · refine h.queued.idle ?_ hall.serving hall.microtasks ?_
        · rw [hidle]
          rintro (hq | hq) <;> cases hq
        · rw [hself]
          rintro (hq | hq) <;> cases hq
      · intro hzombie
        rw [hidle] at hzombie
        cases hzombie

/-! ### Microtasks -/

theorem settles_advance (h : ServeInv config st) (hstage : (st.serving r).stage = .pending)
    (value : Reply) : Advance config r st
      { st.setStage r .reacting with microtasks := st.microtasks ++ [.react r value] } := by
  have hself : (st.setStage r .reacting).serving r = { st.serving r with stage := .reacting } :=
    setServing_serving_self st r _
  have hother := (setServing_touches st r { st.serving r with stage := .reacting }).serving
  have hstanding := h.standing r
  have hnot : ¬(st.serving r).stage.Queued := by
    rw [hstage]
    rintro (hq | hq) <;> cases hq
  refine ⟨(h.sound.setStage .reacting).setMicrotasks _, hother, fun _ _ => rfl, ?_, ?_, ?_⟩
  · show Standing config ((st.setStage r .reacting).serving r) (st.lifecycle.phase r)
    rw [hself]
    obtain ⟨hnew, hcontext, hphase⟩ := hstanding.opened (.inl hstage)
    exact .of_open (.inr rfl) (hnew.withStage .reacting) hcontext hphase
      (hstanding.race (by rw [hstage]; decide))
      (fun ht => ⟨(hstanding.timer ht).1, (hstanding.timer ht).2.2.2⟩)
      fun hz => (hstanding.zombie hz).2.2
  · refine h.queued.turn (List.Sublist.refl _) (fun _ ht => h.queued.not_mem hnot ht)
      (fun _ ht _ => ht) hother (some (.react r value)) rfl ?_ (fun _ => rfl)
    intro t ht
    cases ht
    exact ⟨rfl, (congrArg Serving.stage hself).symm⟩
  · intro hzombie
    show ((st.setStage r .reacting).serving r).answer = _
    rw [hself]
    exact hzombie

/-- What the reaction to a dispatch does before its request moves on: a zombie
changes nothing. -/
theorem react_handled (h : ServeInv config st) (hstage : (st.serving r).stage = .reacting)
    (rest : List Microtask) (value : Reply) (branches : Bool) :
    ∃ mid, Handled config r { st with microtasks := rest } mid ∧
      ((st.serving r).answer = some .deadline → mid.serving r = st.serving r) ∧
      { st with microtasks := rest }.react config r value branches =
        if 0 < config.requestTimeout then
          { mid.setStage r .relaying with microtasks := rest ++ [.relay r] }
        else mid.setStage r .done := by
  have hsound := h.sound.setMicrotasks rest
  obtain ⟨hnew, hcontext, hphase⟩ := (h.standing r).opened (.inr hstage)
  have hflag := hsound.answered_iff hnew hcontext
  rw [ServeState.react]
  cases hanswered : ServeState.answered { st with microtasks := rest } r with
  | true =>
      have hzombie : (st.serving r).answer = some .deadline := hflag.mp hanswered
      obtain ⟨-, hreleased, hon⟩ := (h.standing r).zombie hzombie
      have hstay : (if config.pooling = true ∧ true = true then { st with microtasks := rest }
          else { st with microtasks := rest }.settleNativeHandle config r value branches) =
          { st with microtasks := rest } := by
        split
        · rfl
        · next hpool =>
            rw [ServeState.settleNativeHandle, ServeState.guardedSettle,
              if_pos ⟨hon, hanswered⟩]
            exact if_neg fun hp => hpool ⟨hp, rfl⟩
      refine ⟨{ st with microtasks := rest }, ⟨hsound, .refl r _, ⟨_, _, _, _, _, rfl⟩, ?_,
        hnew.body⟩, fun _ => rfl, ?_⟩
      · exact hreleased ▸ hnew.slot
      · rw [hstay]
  | false =>
      have hno : (st.serving r).answer ≠ some .deadline := by
        intro hz
        exact absurd (hanswered.symm.trans (hflag.mpr hz)) (by decide)
      have honce : (st.serving r).onceDone = false := by
        rw [← Bool.not_eq_true]
        exact fun ho => hno (((h.standing r).race (by rw [hstage]; decide)).mp ho)
      have hrunning : st.lifecycle.phase r = .running := by
        rw [hphase, honce]
        rfl
      have hhandled := settleNativeHandle_handled hsound hrunning hnew hanswered value branches
      refine ⟨_, hhandled, fun hz => absurd hz hno, ?_⟩
      have hgo : (if config.pooling = true ∧ false = true then { st with microtasks := rest }
          else { st with microtasks := rest }.settleNativeHandle config r value branches) =
          { st with microtasks := rest }.settleNativeHandle config r value branches :=
        if_neg fun hfalse => Bool.noConfusion hfalse.2
      rw [hgo, hhandled.touches.microtasks]

theorem react_advance (h : ServeInv config st) {value : Reply} {rest : List Microtask}
    (hhead : st.microtasks = .react r value :: rest) (branches : Bool) :
    Advance config r st ({ st with microtasks := rest }.react config r value branches) := by
  have hstage : (st.serving r).stage = .reacting :=
    h.queued.stage (.react r value) (hhead ▸ List.mem_cons_self)
  have hstanding := h.standing r
  have hrace := hstanding.race (by rw [hstage]; decide)
  obtain ⟨mid, hhandled, hzombie, heq⟩ := react_handled h hstage rest value branches
  have hsame := hhandled.race
  change SameRace (st.serving r) _ at hsame
  rw [heq]
  have hserving : ∀ stage q, q ≠ r → (mid.setStage r stage).serving q = st.serving q := by
    intro stage q hq
    rw [ServeState.setStage, setServing_serving_ne mid hq]
    exact hhandled.touches.serving q hq
  have hself : ∀ stage, (mid.setStage r stage).serving r = { mid.serving r with stage } :=
    fun stage => setServing_serving_self mid r _
  have hkept : ∀ stage, (st.serving r).answer = some .deadline →
      ((mid.setStage r stage).serving r).answer = some .deadline := by
    intro stage hz
    rw [hself, hsame.answer]
    exact hz
  have hslot := hhandled.slot
  split
  · next hon =>
      refine ⟨(hhandled.sound.setStage .relaying).setMicrotasks _, hserving _,
        hhandled.touches.phase, ?_, ?_, hkept _⟩
      · show Standing config ((mid.setStage r .relaying).serving r) (mid.lifecycle.phase r)
        rw [hself]
        refine .of_relaying rfl (hslot.withStage .relaying) hhandled.body ?_ hon ?_ ?_
        · show (mid.serving r).onceDone = true ↔ (mid.serving r).answer = _
          rw [hsame.onceDone, hsame.answer]
          exact hrace
        · intro ht
          exact hsame.onceDone.trans (hstanding.timer (hsame.timer ▸ ht)).1
        · intro hz
          have hz' : (st.serving r).answer = some .deadline := hsame.answer ▸ hz
          have hnew : (mid.serving r).Unsettled := hzombie hz' ▸ (hstanding.zombie hz').1
          exact hnew.withStage .relaying
      · refine h.queued.pop hhead (hserving _) (some (.relay r)) rfl ?_ fun _ => rfl
        intro t ht
        cases ht
        exact ⟨rfl, (congrArg Serving.stage (hself .relaying)).symm⟩
  · next hoff =>
      have htasks : (mid.setStage r .done).microtasks = rest := hhandled.touches.microtasks
      refine ⟨hhandled.sound.setStage .done, hserving _, hhandled.touches.phase, ?_, ?_, hkept _⟩
      · rw [hself]
        refine .of_done rfl (hslot.withStage .done) hhandled.body ?_ ?_
        · show (mid.serving r).timer = false
          rw [hsame.timer, ← Bool.not_eq_true]
          exact fun ht => hoff (hstanding.timer ht).2.2.2
        · intro hz
          exact absurd (hstanding.zombie (hsame.answer ▸ hz)).2.2 hoff
      · refine h.queued.pop hhead (hserving _) none (by rw [htasks]; simp)
          (fun _ ht => by cases ht) fun hq => ?_
        change ((mid.setStage r .done).serving r).stage.Queued at hq
        rw [hself] at hq
        rcases hq with hq | hq <;> cases hq

theorem relay_advance (h : ServeInv config st) {rest : List Microtask}
    (hhead : st.microtasks = .relay r :: rest) :
    Advance config r st ({ st with microtasks := rest }.relay r) := by
  have hstage : (st.serving r).stage = .relaying :=
    h.queued.stage (.relay r) (hhead ▸ List.mem_cons_self)
  have hstanding := h.standing r
  obtain ⟨hslot, hbody⟩ := hstanding.settled (.inl hstage)
  have hrace := hstanding.race (by rw [hstage]; decide)
  have hadvance : ∀ s : Serving, s.stage = .done →
      Sound config ({ st with microtasks := rest }.setServing r s) →
      Standing config s (st.lifecycle.phase r) →
      ((st.serving r).answer = some .deadline → s.answer = some .deadline) →
      Advance config r st ({ st with microtasks := rest }.setServing r s) := by
    intro s hdone hsound hstanding' hanswer
    have hself : ({ st with microtasks := rest }.setServing r s).serving r = s :=
      setServing_serving_self _ r s
    have hother := (setServing_touches { st with microtasks := rest } r s).serving
    refine ⟨hsound, hother, fun _ _ => rfl, ?_, ?_, ?_⟩
    · rw [hself]
      exact hstanding'
    · refine h.queued.pop hhead hother none (by simp [ServeState.setServing])
        (fun _ ht => by cases ht) fun hq => ?_
      change (({ st with microtasks := rest }.setServing r s).serving r).stage.Queued at hq
      rw [hself, hdone] at hq
      rcases hq with hq | hq <;> cases hq
    · rw [hself]
      exact hanswer
  have hsound := h.sound.setMicrotasks rest
  rw [ServeState.relay]
  dsimp only
  split
  · next honce =>
      have hoff : (st.serving r).timer = false := by
        rw [← Bool.not_eq_true]
        exact fun ht => absurd (honce.symm.trans (hstanding.timer ht).1) (by decide)
      refine hadvance _ rfl (hsound.setStage .done) ?_ id
      refine .of_done rfl (hslot.withStage .done) hbody hoff ?_
      intro hz
      exact ⟨(hstanding.zombie hz).1.withStage .done, (hstanding.zombie hz).2.2⟩
  · next honce =>
      have hno : (st.serving r).answer ≠ some .deadline := fun hz => honce (hrace.mpr hz)
      refine hadvance _ rfl ?_ ?_ fun hz => absurd hz hno
      · exact hsound.setServing ⟨rfl, iff_of_false (by simp) hno, rfl, rfl⟩
      · refine .of_done rfl ⟨hslot.held, hslot.running, hslot.released⟩ hbody rfl ?_
        intro hz
        cases hz

end Keala.Core
