import Keala.Core.ServeInvariant

/-!
The operations of serving: settling releases the slot or hands it to a held body,
and a context is given up once.
-/

namespace Keala.Core

open Keala.Http

variable {config : AppConfig} {st st' mid : ServeState} {r : RequestId}

/-! ### Settling -/

/-- Nothing of the settled response is under way. -/
structure Serving.Unsettled (s : Serving) : Prop where
  hold : s.hold = none
  released : s.released = false
  retirement : s.retirement = none
  retired : s.retired = false
  parting : s.parting = false

/-- A held body has not given the slot back. -/
def Serving.Holding (s : Serving) : Prop := s.hold ≠ none ∧ s.released = false

structure Serving.Slot (s : Serving) (phase : Phase) : Prop where
  held : ∀ p, s.hold = some p → p.finished = s.released
  running : s.Holding → phase = .running
  released : ¬s.Holding → phase = .released

structure Settles (config : AppConfig) (r : RequestId) (st st' : ServeState) : Prop where
  sound : Sound config st'
  touches : Touches r st st'
  serving : ∃ hold released,
    st'.serving r = { st.serving r with hold, released }
  slot : (st'.serving r).Slot (st'.lifecycle.phase r)

theorem Settles.release (h : Sound config st) (hr : st.lifecycle.phase r = .running)
    (hhold : (st.serving r).hold = none) : Settles config r st (st.releaseInFlight config r) where
  sound := h.releaseInFlight hr
  touches := releaseInFlight_touches config st r
  serving := ⟨_, _, rfl⟩
  slot := by
    rw [releaseInFlight_phase_self]
    refine ⟨?_, fun hh => absurd hhold hh.1, fun _ => rfl⟩
    intro p hp
    exact absurd (hhold.symm.trans hp) (by simp)

/-- The hold is given up: its body has finished, or could not be read. -/
theorem Settles.releaseHold (h : Sound config st) (hr : st.lifecycle.phase r = .running)
    (hreleased : (st.serving r).released = false)
    (hfinished : ∀ p, (st.serving r).hold = some p → p.finished = true) :
    Settles config r st (st.releaseHold config r) := by
  have hsound : Sound config (st.setServing r { st.serving r with released := true }) :=
    h.setServing ⟨rfl, Iff.rfl, rfl, rfl⟩
  have heq : ((st.setServing r { st.serving r with released := true }).releaseInFlight
      config r).serving r = { st.serving r with released := true } :=
    setServing_serving_self st r _
  rw [ServeState.releaseHold, if_neg (by rw [hreleased]; exact Bool.false_ne_true)]
  refine ⟨hsound.releaseInFlight hr, ?_, ⟨_, _, heq⟩, ?_⟩
  · exact (setServing_touches st r _).trans (releaseInFlight_touches config _ r)
  · rw [heq, releaseInFlight_phase_self]
    exact ⟨hfinished, fun hh => Bool.noConfusion hh.2, fun _ => rfl⟩

theorem Settles.hold (h : Sound config st) (hr : st.lifecycle.phase r = .running)
    (hreleased : (st.serving r).released = false) :
    Settles config r st (st.setServing r { st.serving r with hold := some .fresh }) where
  sound := h.setServing ⟨rfl, Iff.rfl, rfl, rfl⟩
  touches := setServing_touches st r _
  serving := ⟨_, _, setServing_serving_self st r _⟩
  slot := by
    rw [setServing_serving_self, setServing_lifecycle, hr]
    refine ⟨?_, fun _ => rfl, fun hh => absurd ⟨by simp, hreleased⟩ hh⟩
    intro p hp
    cases hp
    exact hreleased.symm

/-- Settling an admitted request releases its slot, at once or through a hold. -/
theorem settle_settles (h : Sound config st) (hr : st.lifecycle.phase r = .running)
    (hnew : (st.serving r).Unsettled) (value : Reply) :
    Settles config r st (st.settle config r value).1 := by
  rw [settle_eq h.gate, ServeState.settleRequest]
  split
  · rw [ServeState.holdBody]
    split
    · refine .releaseHold h hr hnew.released ?_
      intro p hp
      exact absurd (hnew.hold.symm.trans hp) (by simp)
    · exact .hold h hr hnew.released
  · exact .release h hr hnew.hold

/-! ### Contexts -/

/-- A context that its owner gives up goes into the pool, or to nobody. -/
theorem Sound.release (h : Sound config st) {s : Serving}
    (hcontext : s.context = (st.serving r).context)
    (hretired : s.retired = true) (hparting : s.parting = false) (hkeeps : ¬(st.serving r).Gone) :
    Sound config ((st.setServing r s).release r) := by
  have hgone : s.Gone := ⟨hretired, hparting⟩
  have hback : ∀ q c, ((st.setServing r s).serving q).Keeps c →
      q ≠ r ∧ (st.serving q).Keeps c := by
    intro q
    exact forall_setServing (P := fun q s => ∀ c, s.Keeps c → q ≠ r ∧ (st.serving q).Keeps c)
      (fun c hc => absurd hgone hc.2) (fun q hq c hc => ⟨hq, hc⟩) q
  have hcontexts : Owned ((st.setServing r s).release r) := by
    have hkept := h.contexts
    rw [ServeState.release]
    rw [setServing_serving_self, hcontext]
    cases hc : (st.serving r).context with
    | none =>
        exact ⟨hkept.nodup, hkept.pooled, fun q c hq => hkept.kept q c (hback q c hq).2,
          fun q q' c hq hq' => hkept.alone q q' c (hback q c hq).2 (hback q' c hq').2⟩
    | some c =>
        -- Nobody else keeps the context that is given back.
        have hmine : (st.serving r).Keeps c := ⟨hc, hkeeps⟩
        have hother : ∀ q c', ((st.setServing r s).serving q).Keeps c' → c' ≠ c := by
          rintro q c' hq rfl
          obtain ⟨hne, hq⟩ := hback q c' hq
          exact hne (hkept.alone q r c' hq hmine)
        -- A full pool drops it.
        have hmem : ∀ c' ∈ (if POOL_MAX ≤ st.pool.length then st.pool else st.pool ++ [c]),
            c' ∈ st.pool ∨ c' = c := by
          intro c' hc'
          split at hc'
          · exact .inl hc'
          · exact (List.mem_append.mp hc').imp_right List.mem_singleton.mp
        refine ⟨?_, ?_, ?_, fun q q' c hq hq' =>
          hkept.alone q q' c (hback q c hq).2 (hback q' c hq').2⟩
        · show (if POOL_MAX ≤ st.pool.length then st.pool else st.pool ++ [c]).Nodup
          split
          · exact hkept.nodup
          · refine hkept.nodup.append (List.nodup_singleton c) ?_
            exact List.disjoint_singleton.mpr (hkept.kept r c hmine).2
        · intro c' hc'
          rcases hmem c' hc' with hc' | rfl
          · exact hkept.pooled c' hc'
          · exact (hkept.kept r c' hmine).1
        · intro q c' hq
          have hkeep := hkept.kept q c' (hback q c' hq).2
          refine ⟨hkeep.1, ?_⟩
          intro hc'
          rcases hmem c' hc' with hc' | rfl
          · exact hkeep.2 hc'
          · exact hother q c' hq rfl
  refine ⟨h.gate, h.counted, hcontexts, ?_, ?_, ?_, h.callbacks⟩
  · refine forall_setServing
      (P := fun q s => Function.update st.returns r (st.returns r + 1) q = if s.Gone then 1 else 0)
      ?_ ?_
    · rw [Function.update_self, h.returned r, if_neg hkeeps, if_pos hgone]
    · intro q hq
      rw [Function.update_of_ne hq]
      exact h.returned q
  · exact forall_setServing (P := fun _ s => s.parting = true → s.retired = true)
      (fun _ => hretired) fun q _ => h.parted q
  · exact forall_setServing
      (P := fun _ s => ∀ c, s.Keeps c → (st.deadlineAnswered c = true ↔ s.answer = some .deadline))
      (fun c hc => absurd hgone hc.2) fun q _ => h.flags q

/-- The body that a retiring context waits for has not finished. -/
def Serving.Body (s : Serving) : Prop := ∀ p, s.retirement = some p → p.finished = s.retired

/-- A context has been retired, now or once its body and branches are through. -/
structure Retires (config : AppConfig) (r : RequestId) (st st' : ServeState) : Prop where
  sound : Sound config st'
  touches : Touches r st st'
  phase : st'.lifecycle.phase r = st.lifecycle.phase r
  serving : ∃ retirement retired parting,
    st'.serving r = { st.serving r with retirement, retired, parting }
  body : (st'.serving r).Body

theorem release_touches (st : ServeState) (r : RequestId) : Touches r st (st.release r) :=
  ⟨fun _ _ => rfl, fun _ _ => rfl, rfl⟩

theorem Retires.retire (h : Sound config st) (hretired : (st.serving r).retired = false)
    (hfinished : ∀ p, (st.serving r).retirement = some p → p.finished = true) (branches : Bool) :
    Retires config r st (st.retire r branches) := by
  have hparting : (st.serving r).parting = false := by
    rw [← Bool.not_eq_true]
    intro hp
    exact absurd ((h.parted r hp).symm.trans hretired) (by decide)
  have hkeeps : ¬(st.serving r).Gone := fun hgone =>
    absurd (hretired.symm.trans hgone.1) (by decide)
  rw [ServeState.retire, if_neg (by rw [hretired]; exact Bool.false_ne_true)]
  split
  · have hnot : ¬({ st.serving r with retired := true, parting := true } : Serving).Gone :=
      fun hgone => Bool.noConfusion hgone.2
    refine ⟨⟨h.gate, h.counted, ?_, ?_, ?_, ?_, h.callbacks⟩, setServing_touches st r _, rfl,
      ⟨_, _, _, setServing_serving_self st r _⟩, ?_⟩
    · exact h.contexts.setServing fun c hc => ⟨hc.1, hkeeps⟩
    · exact forall_setServing (P := fun q s => st.returns q = if s.Gone then 1 else 0)
        (by rw [if_neg hnot, h.returned r, if_neg hkeeps]) fun q _ => h.returned q
    · exact forall_setServing (P := fun _ s => s.parting = true → s.retired = true)
        (fun _ => rfl) fun q _ => h.parted q
    · exact forall_setServing
        (P := fun _ s => ∀ c, s.Keeps c →
          (st.deadlineAnswered c = true ↔ s.answer = some .deadline))
        (fun c hc => h.flags r c ⟨hc.1, hkeeps⟩) fun q _ => h.flags q
    · rw [setServing_serving_self]
      exact hfinished
  · have hserving : ((st.setServing r { st.serving r with retired := true }).release r).serving r =
        { st.serving r with retired := true } := setServing_serving_self st r _
    refine ⟨h.release rfl rfl hparting hkeeps,
      (setServing_touches st r _).trans (release_touches _ r), rfl, ⟨_, _, _, hserving⟩, ?_⟩
    rw [hserving]
    exact hfinished

theorem retireWithBody_retires (h : Sound config st) (hnew : (st.serving r).retirement = none)
    (hretired : (st.serving r).retired = false) (value : Reply) (branches : Bool) :
    Retires config r st (st.retireWithBody r value branches) := by
  have hnone : ∀ p, (st.serving r).retirement = some p → p.finished = true := by
    intro p hp
    exact absurd (hnew.symm.trans hp) (by simp)
  have hnow : Retires config r st (st.retire r branches) := .retire h hretired hnone branches
  rw [ServeState.retireWithBody]
  split
  · exact hnow
  · split
    · exact hnow
    · exact hnow
    · refine ⟨h.setServing ⟨rfl, Iff.rfl, rfl, rfl⟩, setServing_touches st r _, rfl,
        ⟨_, _, _, setServing_serving_self st r _⟩, ?_⟩
      rw [setServing_serving_self]
      intro p hp
      cases hp
      exact hretired.symm

/-- The branches of a retired context are through. -/
theorem Retires.parting (h : Sound config st) (hparting : (st.serving r).parting = true)
    (hbody : (st.serving r).Body) : Retires config r st
      ((st.setServing r { st.serving r with parting := false }).release r) := by
  have hserving : ((st.setServing r { st.serving r with parting := false }).release r).serving r =
      { st.serving r with parting := false } := setServing_serving_self st r _
  have hkeeps : ¬(st.serving r).Gone := fun hgone =>
    absurd (hparting.symm.trans hgone.2) (by decide)
  refine ⟨h.release rfl (h.parted r hparting) rfl hkeeps,
    (setServing_touches st r _).trans (release_touches _ r), rfl, ⟨_, _, _, hserving⟩, ?_⟩
  rw [hserving]
  exact hbody

end Keala.Core
