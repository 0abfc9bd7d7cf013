import Keala.Branches.Invariant

/-!
What a request of a pooling application owes to the pool, and the failing level
over whose branch the context is returned.
-/

namespace Keala.Branches

open Keala.Http PooledRequest

variable {Chunk Err : Type}

/-- The context is returned at most once, when no branch of a timely `next()` call runs and
nothing of a wrapped body is left to consume; and it stays so. -/
structure ReturnsQuiet (s : PooledRequest Chunk Err) : Prop where
  once : s.releases ≤ 1
  branches : 0 < s.releases → s.Quiet
  consumed : 0 < s.releases → ∀ pump ∈ s.body, pump.stream.isReadable = false

/-- In a run in which no level fails over its running branch, and no level that a late `next()`
call started calls `next` while it runs, the context is returned when nothing runs any more. -/
theorem contained_returnsQuiet {chain : Chain} {s : PooledRequest Chunk Err}
    (h : (pooledRequest Chunk Err chain).Reach Contained s) : ReturnsQuiet s := by
  have hkept : s.Kept chain := by
    apply h.invariant (kept_start chain)
    intro before event after hbefore hcontained hstep
    exact hbefore.step hcontained hstep
  refine ⟨hkept.retiring.once, fun hreleased => hkept.retiring.quiet (.inr hreleased),
    fun hreleased pump hbody => ?_⟩
  obtain ⟨⟨chunks, ending, events, hreached⟩, hemptied, hfinished⟩ := hkept.wrapped.pump pump hbody
  apply hemptied.shut hreached.flowing hreached.hooked
  rw [← hfinished]
  by_contra hretired
  have hnone := (hkept.retiring.unretired (Bool.eq_false_iff.mpr hretired)).2
  omega

/-- A level that returns before its branch settles: the branch holds the context. -/
def floatingRun : List (RequestEvent ℕ ℕ) :=
  [.promises 1, .returns 0, .answers .snapshot, .fulfils 1, .drains, .drained]

theorem contained_returnsQuiet_floating :
    ∃ s, (pooledRequest ℕ ℕ (.composed 2)).runFrom (.start (.composed 2))
        (.next 0 :: floatingRun) = some s ∧ s.releases = 1 ∧ ReturnsQuiet s := by
  have hfirst : (pooledRequest ℕ ℕ (.composed 2)).Reach Contained
      ((start (.composed 2)).next (.composed 2) 0) := by
    refine .step (e := .next 0) .start ?_ rfl
    rintro ⟨-, hlate⟩
    cases hlate
  have htrivial : ∀ u : PooledRequest ℕ ℕ, ∀ event ∈ floatingRun, u.Contained event := by
    intro u event hevent
    simp only [floatingRun, List.mem_cons, List.not_mem_nil, or_false] at hevent
    rcases hevent with rfl | rfl | rfl | rfl | rfl | rfl <;> trivial
  obtain ⟨s, hrun⟩ : ∃ s, (pooledRequest ℕ ℕ (.composed 2)).runFrom
      ((start (.composed 2)).next (.composed 2) 0) floatingRun = some s := ⟨_, rfl⟩
  refine ⟨s, hrun, ?_, contained_returnsQuiet (hfirst.runFrom htrivial hrun)⟩
  cases hrun
  rfl

/-- The first level rejects while the second runs, as `timeout` does, and the consumer reads the
page of the error to its end. -/
def timeoutRun : List (RequestEvent ℕ ℕ) :=
  [.next 0, .promises 1, .promises 0, .rejects 0, .answers (.body false [504] .ended),
    .body .start, .body .settle, .body .resume, .body .pullFulfilled, .body .read, .body .settle,
    .body .resume]

theorem not_returnsQuiet_timeout :
    ¬∀ s, (pooledRequest ℕ ℕ (.composed 2)).Reachable s → ReturnsQuiet s := by
  intro h
  have hends : ((pooledRequest ℕ ℕ (.composed 2)).runFrom (.start (.composed 2)) timeoutRun).map
      (fun s => (s.releases, (s.levels 1).phase, (s.levels 1).late)) =
        some (1, .pending, false) := by decide +kernel
  obtain ⟨s, hrun, hs⟩ := Option.map_eq_some_iff.mp hends
  obtain ⟨hreleases, hphase, hlate⟩ : s.releases = 1 ∧ (s.levels 1).phase = .pending ∧
      (s.levels 1).late = false := by simpa using hs
  have hquiet := (h s (Lts.reachable_of_run timeoutRun hrun)).branches (by omega)
  exact hquiet 0 ⟨running_iff.mpr (.inr hphase), hlate⟩

end Keala.Branches
