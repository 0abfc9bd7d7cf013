import Keala.Branches.PooledRequest
import Keala.Http.RepumpEnds

/-!
When a pooled context is returned. A running level whose `next` call was timely
has a running caller or is among the registered branches, as long as no level
fails over the branch of its own `next()`; so a request that has answered and
whose branches have settled runs no more.
-/

namespace Keala.Branches

open Keala.Http

variable {Chunk Err : Type} {chain : Chain} {s t : PooledRequest Chunk Err}

namespace PooledRequest

/-! ### Running branches -/

def Running (s : PooledRequest Chunk Err) (i : ℕ) : Prop := (s.levels i).phase.isRunning = true

theorem running_iff {i : ℕ} :
    s.Running i ↔ (s.levels i).phase = .calling ∨ (s.levels i).phase = .pending := by
  rw [Running]
  cases (s.levels i).phase <;> simp [Phase.isRunning]

theorem not_running_iff {i : ℕ} :
    ¬s.Running i ↔ (s.levels i).phase = .idle ∨ (s.levels i).phase = .settled := by
  rw [Running]
  cases (s.levels i).phase <;> simp [Phase.isRunning]

theorem running_congr {i : ℕ} (h : (t.levels i).phase = (s.levels i).phase) :
    t.Running i ↔ s.Running i := by
  rw [Running, Running, h]

/-- The branch of level `i` runs, and its `next()` call came before the level had settled. -/
def BranchRuns (s : PooledRequest Chunk Err) (i : ℕ) : Prop :=
  s.Running (i + 1) ∧ (s.levels (i + 1)).late = false

def Quiet (s : PooledRequest Chunk Err) : Prop := ∀ i, ¬s.BranchRuns i

/-! ### The levels -/

structure Nested (chain : Chain) (s : PooledRequest Chunk Err) : Prop where
  fresh : ∀ i, (s.levels i).phase = .idle → (s.levels i).advanced = false
  unstarted : ∀ i, (s.levels i).advanced = false → (s.levels (i + 1)).phase = .idle
  floating : ∀ i, (s.levels (i + 1)).phase = .pending →
    (s.levels i).floated = true ∧ (s.levels i).branchLive = true
  bounded : ∀ i, chain.handlers ≤ i → ¬s.Running i
  stopped : ∀ i, s.Running i → (s.levels i).late = true → (s.levels i).advanced = false
  covered : ∀ i, s.BranchRuns i → s.Running i ∨ .level (i + 1) ∈ s.branches

/-- A change of the flags that leaves each level where it is. -/
theorem Nested.flags (h : s.Nested chain)
    (hadvanced : ∀ i, (t.levels i).advanced = (s.levels i).advanced)
    (hlate : ∀ i, (t.levels i).late = (s.levels i).late)
    (hidle : ∀ i, (t.levels i).phase = .idle ↔ (s.levels i).phase = .idle)
    (hrunning : ∀ i, t.Running i ↔ s.Running i)
    (hfloating : ∀ i, (t.levels (i + 1)).phase = .pending →
      (t.levels i).floated = true ∧ (t.levels i).branchLive = true)
    (hbranches : s.branches ⊆ t.branches) : t.Nested chain where
  fresh i hphase := by
    rw [hadvanced]
    exact h.fresh i ((hidle i).mp hphase)
  unstarted i hbefore := by
    rw [hadvanced] at hbefore
    exact (hidle _).mpr (h.unstarted i hbefore)
  floating := hfloating
  bounded i hlast hrun := h.bounded i hlast ((hrunning i).mp hrun)
  stopped i hrun hlater := by
    rw [hadvanced]
    exact h.stopped i ((hrunning i).mp hrun) ((hlate i).symm.trans hlater)
  covered i hrun := by
    rcases h.covered i ⟨(hrunning _).mp hrun.1, (hlate _).symm.trans hrun.2⟩ with hcaller | hmem
    · exact .inl ((hrunning i).mpr hcaller)
    · exact .inr (hbranches hmem)

theorem Nested.congr (h : s.Nested chain) (hlevels : t.levels = s.levels)
    (hbranches : s.branches ⊆ t.branches) : t.Nested chain := by
  refine h.flags (fun i => by rw [hlevels]) (fun i => by rw [hlevels]) (fun i => by rw [hlevels])
    (fun i => by rw [Running, Running, hlevels]) ?_ hbranches
  rw [hlevels]
  exact h.floating

/-- A level settles; the branch of its `next()` is registered, if it runs. -/
theorem Nested.settle (h : s.Nested chain) {i : ℕ} (hrun : s.Running i)
    (hself : t.levels i = { s.levels i with phase := .settled })
    (hother : ∀ j, j ≠ i → t.levels j = s.levels j) (hbranches : s.branches ⊆ t.branches)
    (hregistered : s.BranchRuns i → .level (i + 1) ∈ t.branches) : t.Nested chain := by
  have hadvanced : ∀ j, (t.levels j).advanced = (s.levels j).advanced := by
    intro j
    by_cases hj : j = i
    · rw [hj, hself]
    · rw [hother j hj]
  have hnow : ¬t.Running i := by
    rw [not_running_iff, hself]
    exact .inr rfl
  have hstill : ∀ j, t.Running j → j ≠ i ∧ t.levels j = s.levels j := by
    intro j hj
    have hne : j ≠ i := by
      rintro rfl
      exact hnow hj
    exact ⟨hne, hother j hne⟩
  refine ⟨fun j hphase => ?_, fun j hbefore => ?_, fun j hpending => ?_, fun j hlast hj => ?_,
    fun j hj hlater => ?_, fun j hj => ?_⟩
  · have hne : j ≠ i := by
      rintro rfl
      rw [hself] at hphase
      cases hphase
    rw [hother j hne] at hphase ⊢
    exact h.fresh j hphase
  · rw [hadvanced] at hbefore
    have hidle := h.unstarted j hbefore
    have hne : j + 1 ≠ i := by
      rintro rfl
      exact not_running_iff.mpr (.inl hidle) hrun
    rw [hother _ hne]
    exact hidle
  · have hsame := (hstill (j + 1) (running_iff.mpr (.inr hpending))).2
    rw [hsame] at hpending
    have hfloating := h.floating j hpending
    by_cases hj : j = i
    · subst hj
      rw [hself]
      exact hfloating
    · rw [hother j hj]
      exact hfloating
  · exact h.bounded j hlast ((running_congr (by rw [(hstill j hj).2])).mp hj)
  · obtain ⟨-, hsame⟩ := hstill j hj
    rw [hsame] at hlater ⊢
    exact h.stopped j ((running_congr (by rw [hsame])).mp hj) hlater
  · obtain ⟨-, hsame⟩ := hstill (j + 1) hj.1
    have hbefore : s.BranchRuns j := by
      rw [BranchRuns, hsame] at hj
      exact ⟨(running_congr (by rw [hsame])).mp hj.1, hj.2⟩
    by_cases hji : j = i
    · subst hji
      exact .inr (hregistered hbefore)
    · rcases h.covered j hbefore with hcaller | hmem
      · exact .inl ((running_congr (by rw [hother j hji])).mpr hcaller)
      · exact .inr (hbranches hmem)

structure Called (chain : Chain) (s t : PooledRequest Chunk Err) (i : ℕ) : Prop where
  phase : (t.levels i).phase = (s.levels i).phase
  late : (t.levels i).late = (s.levels i).late
  advanced : (t.levels i).advanced = true
  started : (t.levels (i + 1)).phase = .calling ∧ i + 1 ≠ chain.handlers ∨
    (t.levels (i + 1)).phase = .settled
  unused : (t.levels (i + 1)).advanced = false
  timely : t.BranchRuns i → (s.levels i).phase ≠ .settled
  other : ∀ j, j ≠ i → j ≠ i + 1 → t.levels j = s.levels j
  rest : t = { s with levels := t.levels }

theorem Called.running {i : ℕ} (h : Called chain s t i) {j : ℕ} (hj : j ≠ i + 1) :
    t.Running j ↔ s.Running j := by
  by_cases hji : j = i
  · rw [hji]
    exact running_congr h.phase
  · exact running_congr (by rw [h.other j hji hj])

/-- No other branch runs than before. -/
theorem Called.branch {i : ℕ} (h : Called chain s t i) {j : ℕ} (hj : j ≠ i)
    (hrun : t.BranchRuns j) : s.BranchRuns j := by
  have hlate : (t.levels (j + 1)).late = (s.levels (j + 1)).late := by
    by_cases hnext : j + 1 = i
    · rw [hnext]
      exact h.late
    · rw [h.other (j + 1) hnext (by omega)]
  exact ⟨(h.running (by omega)).mp hrun.1, hlate.symm.trans hrun.2⟩

theorem Nested.call (h : s.Nested chain) {i : ℕ} (hcall : Called chain s t i)
    (hstarted : (s.levels i).phase ≠ .idle) (hbefore : (s.levels i).advanced = false)
    (hinside : i < chain.handlers) (hheld : ¬(s.Running i ∧ (s.levels i).late = true)) :
    t.Nested chain := by
  have hidle : (s.levels (i + 1)).phase = .idle := h.unstarted i hbefore
  -- nothing has run behind the new level
  have hbehind : (t.levels (i + 2)).phase = .idle := by
    rw [hcall.other (i + 2) (by omega) (by omega)]
    exact h.unstarted (i + 1) (h.fresh (i + 1) hidle)
  refine ⟨fun j hj => ?_, fun j hj => ?_, fun j hj => ?_, fun j hlast hj => ?_,
    fun j hj hlater => ?_, fun j hj => ?_⟩
  · by_cases hji : j = i
    · rw [hji, hcall.phase] at hj
      exact absurd hj hstarted
    · by_cases hj' : j = i + 1
      · rw [hj']
        exact hcall.unused
      · rw [hcall.other j hji hj'] at hj ⊢
        exact h.fresh j hj
  · by_cases hji : j = i
    · rw [hji, hcall.advanced] at hj
      cases hj
    · by_cases hj' : j = i + 1
      · rw [hj']
        exact hbehind
      · rw [hcall.other j hji hj'] at hj
        have hnone := h.unstarted j hj
        by_cases hnext : j + 1 = i
        · rw [hnext] at hnone
          exact absurd hnone hstarted
        · rw [hcall.other (j + 1) hnext (by omega)]
          exact hnone
  · have hji : j ≠ i := by
      rintro rfl
      rcases hcall.started with ⟨hcalling, -⟩ | hsettled
      · cases hcalling.symm.trans hj
      · cases hsettled.symm.trans hj
    have hj' : j ≠ i + 1 := by
      rintro rfl
      cases hbehind.symm.trans hj
    rw [hcall.other j hji hj']
    apply h.floating
    by_cases hnext : j + 1 = i
    · rw [hnext] at hj ⊢
      exact hcall.phase.symm.trans hj
    · rwa [hcall.other (j + 1) hnext (by omega)] at hj
  · by_cases hj' : j = i + 1
    · subst hj'
      rcases hcall.started with ⟨-, hmore⟩ | hsettled
      · omega
      · exact not_running_iff.mpr (.inr hsettled) hj
    · exact h.bounded j hlast ((hcall.running hj').mp hj)
  · by_cases hj' : j = i + 1
    · rw [hj']
      exact hcall.unused
    · have hrun := (hcall.running hj').mp hj
      by_cases hji : j = i
      · rw [hji] at hrun hlater
        exact absurd ⟨hrun, hcall.late.symm.trans hlater⟩ hheld
      · rw [hcall.other j hji hj'] at hlater ⊢
        exact h.stopped j hrun hlater
  · by_cases hji : j = i
    · rw [hji] at hj ⊢
      refine .inl ((running_congr hcall.phase).mpr ?_)
      by_contra hrun
      rcases not_running_iff.mp hrun with hnone | hsettled
      · exact hstarted hnone
      · exact hcall.timely hj hsettled
    · rcases h.covered j (hcall.branch hji hj) with hcaller | hmem
      · by_cases hj' : j = i + 1
        · rw [hj'] at hcaller
          exact absurd hcaller (not_running_iff.mpr (.inl hidle))
        · exact .inl ((hcall.running hj').mpr hcaller)
      · right
        rw [hcall.rest]
        exact hmem

/-! ### The operations -/

@[simp] theorem setLevel_self (s : PooledRequest Chunk Err) (i : ℕ) (level : LevelState) :
    (s.setLevel i level).levels i = level := Function.update_self ..

theorem setLevel_of_ne (s : PooledRequest Chunk Err) {i j : ℕ} (level : LevelState) (h : j ≠ i) :
    (s.setLevel i level).levels j = s.levels j := Function.update_of_ne h ..

theorem settleTail_levels (s : PooledRequest Chunk Err) (i : ℕ) (live : Bool) :
    (s.settleTail chain i live).levels = s.levels := by
  cases chain with
  | direct => rfl
  | composed n => cases live <;> rfl

theorem branches_subset_settleTail (s : PooledRequest Chunk Err) (i : ℕ) (live : Bool) :
    s.branches ⊆ (s.settleTail chain i live).branches := by
  cases chain with
  | direct => exact List.Subset.refl _
  | composed n =>
    cases live with
    | false => exact List.Subset.refl _
    | true => exact List.subset_append_left _ _

/-- A level settles with its settle tail, where that sees a live branch. -/
theorem Nested.settleTail (h : s.Nested chain) {i : ℕ} (hrun : s.Running i) (hact : s.mayAct i)
    {live : Bool}
    (hlive : (s.levels i).floated = true → (s.levels i).branchLive = true → live = true) :
    ((s.settleTail chain i live).setPhase i .settled).Nested chain := by
  have hlevels : (s.settleTail chain i live).levels = s.levels := settleTail_levels s i live
  apply h.settle hrun
  · rw [setPhase, setLevel_self, hlevels]
  · intro j hj
    rw [setPhase, setLevel_of_ne _ _ hj, hlevels]
  · exact branches_subset_settleTail s i live
  · intro hbranch
    have hpending : (s.levels (i + 1)).phase = .pending := by
      rcases running_iff.mp hbranch.1 with hcalling | hpending
      · exact absurd hcalling (of_decide_eq_true hact)
      · exact hpending
    obtain ⟨hfloated, hlive'⟩ := h.floating i hpending
    cases chain with
    | direct =>
      -- behind a direct handler is the tail alone
      exact absurd hbranch.1 (h.bounded (i + 1) (by show 1 ≤ i + 1; omega))
    | composed n =>
      show .level (i + 1) ∈ (if live then s.registerBranch (.level (i + 1)) else s).branches
      rw [if_pos (hlive hfloated hlive')]
      exact List.mem_append_right _ (List.mem_singleton_self _)

/-- A level fails, with no branch of its own running. -/
theorem Nested.fail (h : s.Nested chain) {i : ℕ} (hrun : s.Running i)
    (hheld : ¬s.Running (i + 1)) : (s.setPhase i .settled).Nested chain := by
  apply h.settle hrun
  · exact setLevel_self ..
  · intro j hj
    exact setLevel_of_ne _ _ hj
  · exact List.Subset.refl _
  · intro hbranch
    exact absurd hbranch.1 hheld

theorem called_next (s : PooledRequest Chunk Err) {i : ℕ} (h : (s.levels i).advanced = false) :
    Called chain s (s.next chain i) i := by
  have hne : i + 1 ≠ i := Nat.succ_ne_self i
  rw [PooledRequest.next, h, if_neg Bool.false_ne_true]
  split_ifs with hlast
  · have hself : (((s.setLevel i { s.levels i with advanced := true }).setLevel (i + 1)
        { phase := .settled }).float i).levels i =
        { s.levels i with advanced := true, floated := true, branchLive := true } := by
      rw [float, setLevel_self, setLevel_of_ne _ _ hne.symm, setLevel_self]
    have hstarted : (((s.setLevel i { s.levels i with advanced := true }).setLevel (i + 1)
        { phase := .settled }).float i).levels (i + 1) = { phase := .settled } := by
      rw [float, setLevel_of_ne _ _ hne, setLevel_self]
    refine ⟨by rw [hself], by rw [hself], by rw [hself], .inr (by rw [hstarted]),
      by rw [hstarted], fun hrun => ?_, fun j hj hj' => ?_, rfl⟩
    · rw [BranchRuns, Running, hstarted] at hrun
      cases hrun.1
    · rw [float, setLevel_of_ne _ _ hj, setLevel_of_ne _ _ hj', setLevel_of_ne _ _ hj]
  · have hself : ∀ level, ((s.setLevel i { s.levels i with advanced := true }).setLevel (i + 1)
        level).levels i = { s.levels i with advanced := true } := by
      intro level
      rw [setLevel_of_ne _ _ hne.symm, setLevel_self]
    refine ⟨by rw [hself], by rw [hself], by rw [hself], .inl ⟨by rw [setLevel_self], hlast⟩,
      by rw [setLevel_self], fun hrun => ?_, fun j hj hj' => ?_, rfl⟩
    · rw [BranchRuns, setLevel_self] at hrun
      exact of_decide_eq_false hrun.2
    · rw [setLevel_of_ne _ _ hj', setLevel_of_ne _ _ hj]

/-- A change of one level that leaves it where it is. -/
theorem Nested.set (h : s.Nested chain) {i : ℕ} {level : LevelState}
    (hadvanced : level.advanced = (s.levels i).advanced) (hlate : level.late = (s.levels i).late)
    (hidle : level.phase = .idle ↔ (s.levels i).phase = .idle)
    (hrunning : level.phase.isRunning = true ↔ s.Running i)
    (hflags : (s.levels (i + 1)).phase = .pending →
      level.floated = true ∧ level.branchLive = true)
    (hcaller : ∀ k, k + 1 = i → level.phase = .pending →
      (s.levels k).floated = true ∧ (s.levels k).branchLive = true) :
    (s.setLevel i level).Nested chain := by
  apply h.flags
  · intro j
    by_cases hj : j = i
    · rw [hj, setLevel_self, hadvanced]
    · rw [setLevel_of_ne _ _ hj]
  · intro j
    by_cases hj : j = i
    · rw [hj, setLevel_self, hlate]
    · rw [setLevel_of_ne _ _ hj]
  · intro j
    by_cases hj : j = i
    · rw [hj, setLevel_self, hidle]
    · rw [setLevel_of_ne _ _ hj]
  · intro j
    by_cases hj : j = i
    · rw [hj, Running, setLevel_self, hrunning]
    · rw [Running, setLevel_of_ne _ _ hj, Running]
  · intro j hpending
    by_cases hnext : j + 1 = i
    · rw [← hnext, setLevel_self] at hpending
      rw [setLevel_of_ne _ _ (by omega)]
      exact hcaller j hnext hpending
    · rw [setLevel_of_ne _ _ hnext] at hpending
      by_cases hj : j = i
      · rw [hj, setLevel_self]
        exact hflags (hj ▸ hpending)
      · rw [setLevel_of_ne _ _ hj]
        exact h.floating j hpending
  · exact List.Subset.refl _

theorem Nested.float (h : s.Nested chain) (i : ℕ) : (s.float i).Nested chain :=
  h.set rfl rfl Iff.rfl Iff.rfl (fun _ => ⟨rfl, rfl⟩) fun k hk hpending =>
    h.floating k (hk ▸ hpending)

/-- A level returns a promise, which floats where another level has called it. -/
theorem Nested.promises (h : s.Nested chain) {i : ℕ} (hcalling : (s.levels i).phase = .calling) :
    (if i = 0 then s.setPhase i .pending else (s.setPhase i .pending).float (i - 1)).Nested
      chain := by
  have hpend : ∀ {s : PooledRequest Chunk Err}, s.Nested chain → (s.levels i).phase = .calling →
      (∀ k, k + 1 = i → (s.levels k).floated = true ∧ (s.levels k).branchLive = true) →
      (s.setPhase i .pending).Nested chain := by
    intro s h hcalling hcaller
    refine h.set rfl rfl ?_ ?_ ?_ ?_
    · simp [hcalling]
    · simp [Running, hcalling, Phase.isRunning]
    · exact h.floating i
    · intro k hk _
      exact hcaller k hk
  split_ifs with hfirst
  · exact hpend h hcalling fun k hk => by omega
  · obtain ⟨k, rfl⟩ := Nat.exists_eq_succ_of_ne_zero hfirst
    have hne : k + 1 ≠ k := Nat.succ_ne_self k
    have hcomm : (s.setPhase (k + 1) .pending).float k = (s.float k).setPhase (k + 1) .pending := by
      simp only [PooledRequest.float, setPhase, setLevel_of_ne _ _ hne, setLevel_of_ne _ _ hne.symm]
      simp only [setLevel, Function.update_comm hne]
    show ((s.setPhase (k + 1) .pending).float k).Nested chain
    rw [hcomm]
    apply hpend (h.float k)
    · rw [PooledRequest.float, setLevel_of_ne _ _ hne]
      exact hcalling
    · intro j hj
      obtain rfl : j = k := by omega
      rw [PooledRequest.float, setLevel_self]
      exact ⟨rfl, rfl⟩

/-- The reaction of `next` to a branch that has settled. -/
theorem Nested.reacts (h : s.Nested chain) {i : ℕ}
    (hsettled : (s.levels (i + 1)).phase = .settled) :
    (s.setLevel i { s.levels i with branchLive := false }).Nested chain := by
  refine h.set rfl rfl Iff.rfl Iff.rfl ?_ ?_
  · intro hpending
    cases hsettled.symm.trans hpending
  · intro k hk hpending
    exact h.floating k (hk ▸ hpending)

/-! ### Retirement -/

structure Retiring (s : PooledRequest Chunk Err) : Prop where
  top : s.answered = true → (s.levels 0).phase = .settled
  unanswered : s.answered = false → s.retired = false
  unretired : s.retired = false → s.drain = .none ∧ s.releases = 0
  once : s.releases ≤ 1
  draining : s.drain ≠ .none → s.releases = 0
  quiet : s.drain = .ended ∨ 0 < s.releases → s.Quiet

/-- The context is retired when the pump of the wrapped body has finished. -/
structure Wrapped (s : PooledRequest Chunk Err) : Prop where
  unanswered : s.answered = false → s.body = none
  pump : ∀ pump ∈ s.body,
    (∃ chunks ending events, Repump.Reached chunks ending events pump) ∧ pump.Emptied ∧
      s.retired = pump.finished

/-- A request that has answered is quiet once its branches have settled. -/
theorem Nested.quiet (h : s.Nested chain) (htop : (s.levels 0).phase = .settled)
    (hsettled : ∀ branch ∈ s.branches, s.hasSettled branch = true) : s.Quiet := by
  intro i
  induction i with
  | zero =>
    intro hrun
    rcases h.covered 0 hrun with hcaller | hmem
    · exact not_running_iff.mpr (.inr htop) hcaller
    · exact not_running_iff.mpr (.inr (of_decide_eq_true (hsettled _ hmem))) hrun.1
  | succ i ih =>
    intro hrun
    rcases h.covered (i + 1) hrun with hcaller | hmem
    · cases hlate : (s.levels (i + 1)).late with
      | false => exact ih ⟨hcaller, hlate⟩
      | true =>
        -- a late level has not called its `next`
        have hidle := h.unstarted (i + 1) (h.stopped (i + 1) hcaller hlate)
        exact not_running_iff.mpr (.inl hidle) hrun.1
    · exact not_running_iff.mpr (.inr (of_decide_eq_true (hsettled _ hmem))) hrun.1

/-- Steps of the levels, which do not touch the answer. -/
theorem Retiring.levels (h : s.Retiring) (levels : ℕ → LevelState) (branches : List Branch)
    (htop : (s.levels 0).phase = .settled → (levels 0).phase = .settled)
    (hquiet : s.answered = true → s.Quiet → Quiet { s with levels := levels }) :
    Retiring { s with levels := levels, branches := branches } where
  top hanswered := htop (h.top hanswered)
  unanswered := h.unanswered
  unretired := h.unretired
  once := h.once
  draining := h.draining
  quiet hreturned := by
    refine hquiet ?_ (h.quiet hreturned)
    by_contra hanswered
    obtain ⟨hdrain, hreleases⟩ :=
      h.unretired (h.unanswered (Bool.eq_false_iff.mpr hanswered))
    rcases hreturned with hended | hreleased
    · cases hdrain.symm.trans hended
    · exact absurd hreleases (Nat.pos_iff_ne_zero.mp hreleased)

/-- A level goes on, and starts no other. -/
theorem Retiring.set (h : s.Retiring) (branches : List Branch) {i : ℕ} {level : LevelState}
    (hlate : level.late = (s.levels i).late)
    (hrunning : level.phase.isRunning = true → s.Running i)
    (hsettled : (s.levels i).phase = .settled → level.phase = .settled) :
    Retiring { s.setLevel i level with branches := branches } := by
  refine h.levels (s.setLevel i level).levels branches (fun htop => ?_) fun _ hquiet j hrun => ?_
  · by_cases hi : 0 = i
    · subst hi
      rw [setLevel_self]
      exact hsettled htop
    · rw [setLevel_of_ne _ _ hi]
      exact htop
  · have hbranch : (s.setLevel i level).BranchRuns j := hrun
    apply hquiet j
    by_cases hj : j + 1 = i
    · subst hj
      rw [BranchRuns, Running, setLevel_self] at hbranch
      exact ⟨hrunning hbranch.1, hlate.symm.trans hbranch.2⟩
    · rw [BranchRuns, Running, setLevel_of_ne _ _ hj] at hbranch
      exact hbranch

theorem Retiring.call (h : s.Retiring) {i : ℕ} (hcall : Called chain s t i)
    (hstarted : (s.levels i).phase ≠ .idle) (hheld : ¬(s.Running i ∧ (s.levels i).late = true)) :
    t.Retiring := by
  rw [hcall.rest]
  refine h.levels t.levels s.branches (fun htop => ?_) fun hanswered hquiet j hrun => ?_
  · by_cases hi : 0 = i
    · subst hi
      exact hcall.phase.trans htop
    · rw [hcall.other 0 hi (by omega)]
      exact htop
  · by_cases hj : j = i
    · subst hj
      have hcaller : s.Running j := by
        by_contra hrun'
        rcases not_running_iff.mp hrun' with hnone | hsettled
        · exact hstarted hnone
        · exact hcall.timely hrun hsettled
      -- the caller runs, so it is no timely branch, and the first level has settled
      cases j with
      | zero => exact not_running_iff.mpr (.inr (h.top hanswered)) hcaller
      | succ k =>
        apply hquiet k ⟨hcaller, ?_⟩
        by_contra hlate
        exact hheld ⟨hcaller, Bool.not_eq_false _ ▸ hlate⟩
    · exact hquiet j (hcall.branch hj hrun)

/-! ### The return of the context -/

theorem Retiring.answered_of_retired (h : s.Retiring) (hretired : s.retired = true) :
    s.answered = true := by
  by_contra hanswered
  cases hretired.symm.trans (h.unanswered (Bool.eq_false_iff.mpr hanswered))

theorem Retiring.retired_of_drain (h : s.Retiring) (hdrain : s.drain ≠ .none) :
    s.retired = true := by
  by_contra hretired
  exact hdrain (h.unretired (Bool.eq_false_iff.mpr hretired)).1

/-- The loop comes to its head with the branches before the offset settled. -/
theorem Retiring.drainLoop (h : s.Retiring) (hnested : s.Nested chain) (hretired : s.retired = true)
    (hnone : s.releases = 0) {offset : ℕ}
    (hsettled : ∀ branch ∈ s.branches.take offset, s.hasSettled branch = true) :
    (s.drainLoop offset).Retiring := by
  have htop := h.top (h.answered_of_retired hretired)
  rw [PooledRequest.drainLoop]
  split_ifs with hmore
  · refine ⟨h.top, h.unanswered, fun hfalse => ?_, h.once, fun _ => hnone, fun hreturned => ?_⟩
    · cases hretired.symm.trans hfalse
    · rcases hreturned with hended | hreleased
      · cases hended
      · exact absurd hnone (Nat.pos_iff_ne_zero.mp hreleased)
  · rw [List.take_of_length_le (Nat.not_lt.mp hmore)] at hsettled
    refine ⟨h.top, h.unanswered, fun hfalse => ?_, h.once, fun _ => hnone, fun _ => ?_⟩
    · cases hretired.symm.trans hfalse
    · exact hnested.quiet htop hsettled

theorem Retiring.release (h : s.Retiring) (hretired : s.retired = true) (hnone : s.releases = 0)
    (hquiet : s.Quiet) : s.release.Retiring where
  top := h.top
  unanswered := h.unanswered
  unretired hfalse := by cases hretired.symm.trans hfalse
  once := by
    show s.releases + 1 ≤ 1
    omega
  draining hdrain := absurd rfl hdrain
  quiet _ := hquiet

theorem Retiring.retire (h : s.Retiring) (hnested : s.Nested chain)
    (hanswered : s.answered = true) : s.retire.Retiring := by
  rw [PooledRequest.retire]
  split_ifs with hretired hbranches
  · exact h
  all_goals
    obtain ⟨hdrain, hnone⟩ := h.unretired (Bool.eq_false_iff.mpr hretired)
    have hmarked : Retiring { s with retired := true } := by
      refine ⟨h.top, fun hfalse => ?_, fun hfalse => ?_, h.once, h.draining, h.quiet⟩
      · cases hanswered.symm.trans hfalse
      · cases hfalse
    have hsame : Nested chain { s with retired := true } := hnested.congr rfl (List.Subset.refl _)
  · apply hmarked.release rfl hnone
    apply hsame.quiet (h.top hanswered)
    intro branch hbranch
    rw [show s.branches = [] from hbranches] at hbranch
    cases hbranch
  · apply hmarked.drainLoop hsame rfl hnone
    intro branch hbranch
    cases hbranch

@[simp] theorem retire_retired (s : PooledRequest Chunk Err) : s.retire.retired = true := by
  rw [PooledRequest.retire]
  split_ifs with hretired
  · exact hretired
  · rfl
  · rw [PooledRequest.drainLoop]
    split_ifs <;> rfl

@[simp] theorem retire_body (s : PooledRequest Chunk Err) : s.retire.body = s.body := by
  rw [PooledRequest.retire, PooledRequest.drainLoop]
  split_ifs <;> rfl

@[simp] theorem retire_answered (s : PooledRequest Chunk Err) :
    s.retire.answered = s.answered := by
  rw [PooledRequest.retire, PooledRequest.drainLoop]
  split_ifs <;> rfl

@[simp] theorem retire_levels (s : PooledRequest Chunk Err) : s.retire.levels = s.levels := by
  rw [PooledRequest.retire, PooledRequest.drainLoop]
  split_ifs <;> rfl

@[simp] theorem retire_branches (s : PooledRequest Chunk Err) :
    s.retire.branches = s.branches := by
  rw [PooledRequest.retire, PooledRequest.drainLoop]
  split_ifs <;> rfl

/-! ### Every step -/

structure Kept (chain : Chain) (s : PooledRequest Chunk Err) : Prop where
  nested : s.Nested chain
  retiring : s.Retiring
  wrapped : s.Wrapped

/-- A pump that is retired with has finished. -/
theorem Kept.retire (hnested : s.Nested chain) (h : s.Retiring) (hanswered : s.answered = true)
    (hpump : ∀ pump ∈ s.body, (∃ chunks ending events,
      Repump.Reached chunks ending events pump) ∧ pump.Emptied ∧ pump.finished = true) :
    s.retire.Kept chain where
  nested := hnested.congr (retire_levels s) (by rw [retire_branches]; exact List.Subset.refl _)
  retiring := h.retire hnested hanswered
  wrapped := by
    refine ⟨fun hfalse => ?_, fun pump hbody => ?_⟩
    · rw [retire_answered] at hfalse
      cases hanswered.symm.trans hfalse
    · rw [retire_body] at hbody
      obtain ⟨hreached, hemptied, hfinished⟩ := hpump pump hbody
      exact ⟨hreached, hemptied, (retire_retired s).trans hfinished.symm⟩

theorem Retiring.wrap (h : s.Retiring) (body : Option (Repump Chunk Err)) :
    Retiring { s with body := body } :=
  ⟨h.top, h.unanswered, h.unretired, h.once, h.draining, h.quiet⟩

theorem Kept.answers (h : s.Kept chain) (htop : (s.levels 0).phase = .settled)
    (hanswered : s.answered = false) (value : ResponseValue Chunk Err) :
    (s.settleNativeHandle value).Kept chain := by
  have hretired := h.retiring.unanswered hanswered
  have hbody : ∀ pump, pump ∉ s.body := by
    intro pump hpump
    cases (h.wrapped.unanswered hanswered).symm.trans hpump
  have hnested : Nested chain { s with answered := true } :=
    h.nested.congr rfl (List.Subset.refl _)
  have hretiring : Retiring { s with answered := true } := by
    refine ⟨fun _ => htop, fun hfalse => ?_, h.retiring.unretired, h.retiring.once,
      h.retiring.draining, h.retiring.quiet⟩
    cases hfalse
  rw [settleNativeHandle]
  split_ifs
  · refine ⟨hnested, hretiring, fun hfalse => ?_, fun pump hpump => absurd hpump (hbody pump)⟩
    cases hfalse
  · have hdirect : (PooledRequest.retire { s with answered := true }).Kept chain :=
      .retire hnested hretiring rfl fun pump hpump => absurd hpump (hbody pump)
    cases value with
    | snapshot => exact hdirect
    | nullBody => exact hdirect
    | body locked chunks ending =>
      cases locked with
      | true =>
        show (PooledRequest.retire { s with answered := true, body := none }).Kept chain
        refine .retire (hnested.congr rfl (List.Subset.refl _)) (hretiring.wrap none) rfl ?_
        rintro pump ⟨⟩
      | false =>
        refine ⟨hnested.congr rfl (List.Subset.refl _), hretiring.wrap _, fun hfalse => ?_,
          fun pump hpump => ?_⟩
        · cases hfalse
        · cases hpump
          exact ⟨⟨chunks, ending, [], Repump.reached_start chunks ending⟩,
            Repump.emptied_of_queue rfl, hretired⟩

theorem Kept.body (h : s.Kept chain) {pump next : Repump Chunk Err} (hbody : pump ∈ s.body)
    {event : RepumpEvent} (hstep : pump.step event = some next) :
    (s.pumped pump next).Kept chain := by
  obtain ⟨⟨chunks, ending, events, hreached⟩, hemptied, hretired⟩ := h.wrapped.pump pump hbody
  have hanswered : s.answered = true := by
    by_contra hanswered
    cases (h.wrapped.unanswered (Bool.eq_false_iff.mpr hanswered)).symm.trans hbody
  have hnext : ∃ chunks ending events, Repump.Reached chunks ending events next :=
    ⟨chunks, ending, _, hreached.step hstep⟩
  have hstill : next.Emptied := hemptied.step hreached.flowing hstep
  have hnested : Nested chain { s with body := some next } :=
    h.nested.congr rfl (List.Subset.refl _)
  rw [pumped]
  split_ifs with hends
  · refine .retire hnested (h.retiring.wrap _) hanswered fun other hother => ?_
    cases hother
    exact ⟨hnext, hstill, hends.1⟩
  · refine ⟨hnested, h.retiring.wrap _, fun hfalse => ?_, fun other hother => ?_⟩
    · cases hanswered.symm.trans hfalse
    · cases hother
      refine ⟨hnext, hstill, hretired.trans ?_⟩
      obtain ⟨-, -, -, hkept⟩ := hreached.parts hstep
      rw [Bool.eq_iff_iff]
      refine ⟨hkept, fun hnow => ?_⟩
      by_contra hbefore
      exact hends ⟨hnow, hbefore⟩

/-! ### Runs -/

/-- No level fails while the branch of its `next()` runs, and a level that a late `next()` call
started calls no `next` while it runs. -/
def Contained (s : PooledRequest Chunk Err) : RequestEvent Chunk Err → Prop
  | .throws i => ¬s.Running (i + 1)
  | .rejects i => ¬s.Running (i + 1)
  | .next i => ¬(s.Running i ∧ (s.levels i).late = true)
  | _ => True

theorem kept_start (chain : Chain) : (start chain : PooledRequest Chunk Err).Kept chain := by
  have hfirst : ((start chain : PooledRequest Chunk Err).levels 0) =
      { phase := if chain.handlers = 0 then .settled else .calling } := setLevel_self ..
  have hother : ∀ i, i ≠ 0 → (start chain : PooledRequest Chunk Err).levels i = {} := by
    intro i hi
    exact setLevel_of_ne _ _ hi
  have hfresh : ∀ i, ((start chain : PooledRequest Chunk Err).levels i).advanced = false := by
    intro i
    by_cases hi : i = 0
    · rw [hi, hfirst]
    · rw [hother i hi]
  have hbehind : ∀ i, ((start chain : PooledRequest Chunk Err).levels (i + 1)).phase = .idle := by
    intro i
    rw [hother (i + 1) (by omega)]
  refine ⟨⟨fun i _ => hfresh i, fun i _ => hbehind i, fun i hpending => ?_, fun i hlast => ?_,
    fun i _ _ => hfresh i, fun i hrun => ?_⟩, ⟨fun hfalse => ?_, fun _ => rfl, fun _ => ⟨rfl, rfl⟩,
    Nat.zero_le 1, fun hdrain => absurd rfl hdrain, fun hreturned => ?_⟩, fun _ => rfl, ?_⟩
  · cases (hbehind i).symm.trans hpending
  · rw [not_running_iff]
    by_cases hi : i = 0
    · rw [hi, hfirst, if_pos (by omega)]
      exact .inr rfl
    · rw [hother i hi]
      exact .inl rfl
  · exact absurd hrun.1 (not_running_iff.mpr (.inl (hbehind i)))
  · cases hfalse
  · rcases hreturned with hended | hreleased
    · cases hended
    · exact absurd hreleased (Nat.lt_irrefl 0)
  · rintro pump ⟨⟩

/-- The steps of the levels. -/
theorem Kept.levels (h : s.Kept chain) (hnested : t.Nested chain) (hretiring : t.Retiring)
    (hanswered : t.answered = s.answered) (hretired : t.retired = s.retired)
    (hbody : t.body = s.body) : t.Kept chain := by
  refine ⟨hnested, hretiring, fun hfalse => ?_, fun pump hpump => ?_⟩
  · rw [hbody]
    exact h.wrapped.unanswered (hanswered.symm.trans hfalse)
  · rw [hbody] at hpump
    rw [hretired]
    exact h.wrapped.pump pump hpump

theorem Kept.settles (h : s.Kept chain) {i : ℕ} (hrun : s.Running i) (hact : s.mayAct i)
    {live : Bool}
    (hlive : (s.levels i).floated = true → (s.levels i).branchLive = true → live = true) :
    ((s.settleTail chain i live).setPhase i .settled).Kept chain := by
  have hnested := h.nested.settleTail hrun hact hlive
  have hretiring : Retiring { s.setPhase i .settled with
      branches := (s.settleTail chain i live).branches } := by
    refine h.retiring.set _ rfl ?_ fun _ => rfl
    intro hfalse
    cases hfalse
  cases chain with
  | direct => exact h.levels hnested hretiring rfl rfl rfl
  | composed n => cases live <;> exact h.levels hnested hretiring rfl rfl rfl

theorem Kept.fails (h : s.Kept chain) {i : ℕ} (hrun : s.Running i) (hheld : ¬s.Running (i + 1)) :
    (s.setPhase i .settled).Kept chain := by
  refine h.levels (h.nested.fail hrun hheld) (h.retiring.set s.branches rfl ?_ ?_) rfl rfl rfl
  · intro hfalse
    cases hfalse
  · intro _
    rfl

theorem Kept.promises (h : s.Kept chain) {i : ℕ} (hcalling : (s.levels i).phase = .calling) :
    (if i = 0 then s.setPhase i .pending else (s.setPhase i .pending).float (i - 1)).Kept
      chain := by
  have hnested := h.nested.promises hcalling
  have hretiring : (s.setPhase i .pending).Retiring := by
    refine h.retiring.set s.branches rfl ?_ ?_
    · intro _
      exact running_iff.mpr (.inl hcalling)
    · intro hsettled
      cases hcalling.symm.trans hsettled
  split_ifs at hnested ⊢ with hfirst
  · exact h.levels hnested hretiring rfl rfl rfl
  · exact h.levels hnested (hretiring.set s.branches rfl id id) rfl rfl rfl

theorem Kept.reacts (h : s.Kept chain) {i : ℕ} (hsettled : (s.levels (i + 1)).phase = .settled) :
    (s.setLevel i { s.levels i with branchLive := false }).Kept chain :=
  h.levels (h.nested.reacts hsettled) (h.retiring.set s.branches rfl id id) rfl rfl rfl

/-- Steps that change neither the levels nor the answer. -/
theorem Kept.other (h : s.Kept chain) (branches : List Branch) (hbranches : s.branches ⊆ branches)
    (others : ℕ → Bool) (deadlineAnswered : Bool) :
    Kept chain { s with
      branches := branches, others := others, deadlineAnswered := deadlineAnswered } where
  nested := h.nested.congr rfl hbranches
  retiring := ⟨h.retiring.top, h.retiring.unanswered, h.retiring.unretired, h.retiring.once,
    h.retiring.draining, h.retiring.quiet⟩
  wrapped := ⟨h.wrapped.unanswered, h.wrapped.pump⟩

theorem Kept.drains (h : s.Kept chain) {offset : ℕ} (hdrain : s.drain = .awaiting offset)
    (hsettled : (s.branches.take offset).all s.hasSettled = true) :
    (s.drainLoop offset).Kept chain := by
  have hbusy : s.drain ≠ .none := by simp [hdrain]
  have hretired := h.retiring.retired_of_drain hbusy
  have hnext := h.retiring.drainLoop h.nested hretired (h.retiring.draining hbusy)
    (List.all_eq_true.mp hsettled)
  rw [PooledRequest.drainLoop] at hnext ⊢
  split_ifs at hnext ⊢
  · exact ⟨h.nested.congr rfl (List.Subset.refl _), hnext, h.wrapped.unanswered, h.wrapped.pump⟩
  · exact ⟨h.nested.congr rfl (List.Subset.refl _), hnext, h.wrapped.unanswered, h.wrapped.pump⟩

theorem Kept.drained (h : s.Kept chain) (hdrain : s.drain = .ended) : s.release.Kept chain := by
  have hbusy : s.drain ≠ .none := by simp [hdrain]
  exact ⟨h.nested.congr rfl (List.Subset.refl _),
    h.retiring.release (h.retiring.retired_of_drain hbusy) (h.retiring.draining hbusy)
      (h.retiring.quiet (.inl hdrain)),
    h.wrapped.unanswered, h.wrapped.pump⟩

theorem Kept.step (h : s.Kept chain) {event : RequestEvent Chunk Err}
    (hcontained : s.Contained event) (hstep : s.step chain event = some t) : t.Kept chain := by
  cases event with
  | next i =>
    rw [PooledRequest.step] at hstep
    split_ifs at hstep with hmay
    cases hstep
    obtain ⟨hstarted, hinside, -⟩ := hmay
    cases hadvanced : (s.levels i).advanced with
    | true =>
      -- A second call throws, which concerns nobody else.
      rw [PooledRequest.next, if_pos hadvanced]
      exact h
    | false =>
      have hcall : Called chain s (s.next chain i) i := called_next s hadvanced
      have hnested := h.nested.call hcall hstarted hadvanced hinside hcontained
      have hretiring := h.retiring.call hcall hstarted hcontained
      rw [hcall.rest] at hnested hretiring ⊢
      exact h.levels hnested hretiring rfl rfl rfl
  | returns i =>
    rw [PooledRequest.step] at hstep
    split_ifs at hstep with hmay
    cases hstep
    exact h.settles (running_iff.mpr (.inl hmay.1)) hmay.2 fun hfloated _ => hfloated
  | throws i =>
    rw [PooledRequest.step] at hstep
    split_ifs at hstep with hmay
    cases hstep
    exact h.fails (running_iff.mpr (.inl hmay.1)) hcontained
  | promises i =>
    rw [PooledRequest.step] at hstep
    split at hstep
    · next hmay =>
      cases hstep
      exact h.promises hmay.1
    · cases hstep
  | fulfils i =>
    rw [PooledRequest.step] at hstep
    split_ifs at hstep with hmay
    cases hstep
    apply h.settles (running_iff.mpr (.inr hmay.1)) hmay.2
    intro hfloated hlive
    rw [hfloated, hlive]
    rfl
  | rejects i =>
    rw [PooledRequest.step] at hstep
    split_ifs at hstep with hmay
    cases hstep
    exact h.fails (running_iff.mpr (.inr hmay.1)) hcontained
  | reacts i =>
    rw [PooledRequest.step] at hstep
    split_ifs at hstep with hmay
    cases hstep
    exact h.reacts hmay.2
  | registersOther k =>
    cases hstep
    exact h.other _ (List.subset_append_left _ _) _ _
  | settlesOther k =>
    cases hstep
    exact h.other _ (List.Subset.refl _) _ _
  | deadline =>
    rw [PooledRequest.step] at hstep
    split_ifs at hstep
    cases hstep
    exact h.other _ (List.Subset.refl _) _ _
  | answers value =>
    rw [PooledRequest.step] at hstep
    split_ifs at hstep with hmay
    cases hstep
    exact h.answers hmay.1 hmay.2 value
  | body event =>
    obtain ⟨pump, hbody, hstep⟩ := Option.bind_eq_some_iff.mp hstep
    obtain ⟨next, hnext, hstep⟩ := Option.bind_eq_some_iff.mp hstep
    cases hstep
    exact h.body hbody hnext
  | drains =>
    rw [PooledRequest.step] at hstep
    split at hstep
    · next offset hdrain =>
      split_ifs at hstep with hsettled
      cases hstep
      exact h.drains hdrain hsettled
    · cases hstep
  | drained =>
    rw [PooledRequest.step] at hstep
    split at hstep
    · next hdrain =>
      cases hstep
      exact h.drained hdrain
    · cases hstep

end PooledRequest

end Keala.Branches
