import Keala.Core.RoutedDispatch

/-!
The combinators of middleware. `all` runs its candidates as one onion, and
`some` leaves the request to the first of them that takes it.

As for a level, a promise has run to its end where it is returned. Handlers
return a response or nothing, and do not look at the one that is committed, which
`all` commits only at its end; the bodies of responses that are dropped are
discarded, which no answer shows.
-/

namespace Keala.Middleware

open Keala.Js Keala.Core
open Keala.Http (Response Thrown)

variable {σ β τ : Type}

def awaited : LevelResult τ → Except (Thrown τ) Unit
  | .returned => .ok ()
  | .threw e => .error e
  | .promise settled => settled

/-- `result instanceof Response ? result : undefined`. -/
def responseOf : HandlerResult β τ → Option (Response β)
  | .response res => some res
  | _ => none

def resultOf : Option (Response β) → HandlerResult β τ
  | some res => .response res
  | none => .nothing

/-! ### All -/

abbrev Answering (σ β τ : Type) :=
  Context σ β → Context σ β × Except (Thrown τ) (Option (Response β))

/-- Run a candidate of `all` on `innerNext`; `advanced` and `downstream` are the
variables of its `run`. -/
def Handler.answer (inner : Answering σ β τ) :
    Handler σ β τ → Bool → Option (Response β) → Answering σ β τ
  | .settle _ (.ok value), _, downstream, c => (c, .ok ((responseOf value).or downstream))
  | .settle _ (.error e), _, _, c => (c, .error e)
  | .stage write rest, advanced, downstream, c =>
      Handler.answer inner rest advanced downstream { c with staged := write c.staged }
  | .next rest, true, downstream, c =>
      Handler.answer inner (rest (.threw nextTwice)) true downstream c
  | .next rest, false, _, c =>
      let (c, result) := inner c
      Handler.answer inner (rest (.promise (result.map fun _ => ()))) true
        (result.toOption.join) c

def runAll (next : Level σ β τ) : List (Handler σ β τ) → Answering σ β τ
  | [] => fun c =>
      let (c, result) := next c
      (c, (awaited result).map fun _ => none)
  | candidate :: rest => Handler.answer (runAll next rest) candidate false none

def combineAll (candidates : List (Handler σ β τ)) (next : Level σ β τ) (c : Context σ β) :
    Context σ β × Settled β τ :=
  let (c, result) := runAll next candidates c
  (c, ⟨true, result.map resultOf⟩)

/-! ### Some -/

/-- Run a candidate of `some` on `guardedNext`, and whether it has advanced. -/
def Handler.attempt (next : Level σ β τ) :
    Handler σ β τ → Bool → Context σ β → Context σ β × Except (Thrown τ) (HandlerResult β τ) × Bool
  | .settle _ result, advanced, c => (c, result, advanced)
  | .stage write rest, advanced, c =>
      Handler.attempt next rest advanced { c with staged := write c.staged }
  | .next rest, true, c => Handler.attempt next (rest (.threw nextTwice)) true c
  | .next rest, false, c =>
      let (c, result) := next c
      Handler.attempt next (rest result) true c

def runSome (next : Level σ β τ) : List (Handler σ β τ) → Option (Response β) →
    Option (Thrown τ) → Answering σ β τ
  | [], rejection, failure, c =>
      match failure, rejection with
      | some e, _ => (c, .error e)
      | none, some res => (c, .ok (some res))
      | none, none =>
          let (c, result) := next c
          (c, (awaited result).map fun _ => none)
  | candidate :: rest, rejection, failure, c =>
      match Handler.attempt next candidate false c with
      | (c, .ok (.response res), advanced) =>
          if advanced || decide (res.status < 400) then (c, .ok (some res))
          else runSome next rest (some res) none c
      | (c, .ok _, advanced) =>
          if advanced then (c, .ok none) else runSome next rest rejection failure c
      | (c, .error e, advanced) =>
          if advanced then (c, .error e) else runSome next rest rejection (some e) c

def combineSome (candidates : List (Handler σ β τ)) (next : Level σ β τ) (c : Context σ β) :
    Context σ β × Settled β τ :=
  let (c, result) := runSome next candidates none none c
  (c, ⟨true, result.map resultOf⟩)

/-! ### Handlers that await -/

def Handler.Fails : Handler σ β τ → Prop
  | .settle _ result => ∃ e, result = .error e
  | .stage _ rest => Handler.Fails rest
  | .next rest => Handler.Fails (rest (.threw nextTwice))

/-- The handler returns a response or nothing, awaits each `next()`, and does not
go on when that fails. -/
def Handler.Awaits : Handler σ β τ → Prop
  | .settle _ result => ∀ value, result = .ok value →
      value = .nothing ∨ ∃ res, value = .response res
  | .stage _ rest => Handler.Awaits rest
  | .next rest =>
      (∀ r r', awaited r = awaited r' → rest r = rest r') ∧
        (∀ r e, awaited r = .error e → Handler.Fails (rest r)) ∧ ∀ r, Handler.Awaits (rest r)

def committed (c : Context σ β) (answer : Option (Response β)) : Context σ β :=
  { c with res := answer.or c.res }

/-- Two ways to run a chain agree: they settle alike, and where they succeed the
answer of the one is what the other has committed. -/
structure Agrees (one : Context σ β × Except (Thrown τ) (Option (Response β)))
    (chain : Context σ β × LevelResult τ) : Prop where
  result : one.2.map (fun _ => ()) = awaited chain.2
  context : ∀ answer, one.2 = .ok answer → chain.1 = committed one.1 answer

theorem awaited_settle (async : Bool) (c : Context σ β) (e : Thrown τ) :
    awaited (settleLevel c ⟨async, .error e⟩ : Context σ β × LevelResult τ).2 = .error e := by
  cases async <;> rfl

/-- A failing handler fails on both sides. -/
theorem fails_agree (inner : Answering σ β τ) (downstream : Level σ β τ)
    (handler : Handler σ β τ) (h : Handler.Fails handler) (answer : Option (Response β))
    (c c' : Context σ β) :
    Agrees (Handler.answer inner handler true answer c)
      (settleLevel (handler.run downstream true c').1 (handler.run downstream true c').2) := by
  induction handler generalizing c c' with
  | settle async result =>
      obtain ⟨e, rfl⟩ := h
      refine ⟨(awaited_settle async c' e).symm, ?_⟩
      rintro answer ⟨⟩
  | stage write rest ih => exact ih h _ _
  | next rest ih => exact ih _ h _ _

/-- A handler that has called `next()` goes on alike on both sides. -/
theorem advanced_agree (inner : Answering σ β τ) (downstream : Level σ β τ)
    (handler : Handler σ β τ) (h : Handler.Awaits handler) (answer : Option (Response β))
    (c : Context σ β) :
    Agrees (Handler.answer inner handler true answer c)
      (settleLevel (handler.run downstream true (committed c answer)).1
        (handler.run downstream true (committed c answer)).2) := by
  induction handler generalizing c with
  | settle async result =>
      cases result with
      | error e =>
          refine ⟨(awaited_settle async (committed c answer) e).symm, ?_⟩
          rintro answer ⟨⟩
      | ok value =>
          rcases h value rfl with rfl | ⟨res, rfl⟩
          · refine ⟨by cases async <;> rfl, ?_⟩
            rintro given hgiven
            cases hgiven
            rfl
          · refine ⟨by cases async <;> rfl, ?_⟩
            rintro given hgiven
            cases hgiven
            rfl
  | stage write rest ih => exact ih h { c with staged := write c.staged }
  | next rest ih => exact ih _ (h.2.2 _) c

/-- A candidate agrees with its level, where what follows it does. -/
theorem candidate_agrees {inner : Answering σ β τ} {downstream : Level σ β τ}
    (hinner : ∀ c, Agrees (inner c) (downstream c)) (handler : Handler σ β τ)
    (h : Handler.Awaits handler) (c : Context σ β) :
    Agrees (Handler.answer inner handler false none c) (makeLevel handler downstream c) := by
  induction handler generalizing c with
  | settle async result =>
      have hsettled := advanced_agree inner downstream (.settle async result) h none c
      cases result <;> exact hsettled
  | stage write rest ih => exact ih h { c with staged := write c.staged }
  | next rest ih =>
      obtain ⟨hsame, hfails, hrest⟩ := h
      rcases hone : inner c with ⟨before, answered⟩
      rcases hchain : downstream c with ⟨after, result⟩
      obtain ⟨hresult, hcontext⟩ := hinner c
      rw [hone, hchain] at hresult hcontext
      have hgoes : rest (.promise (answered.map fun _ => ())) = rest result := hsame _ _ hresult
      rw [Handler.answer, hone, makeLevel, Handler.run, hchain]
      dsimp only
      rw [hgoes]
      cases answered with
      | error e =>
          exact fails_agree inner downstream _ (hfails result e hresult.symm) _ before after
      | ok answer =>
          rw [show after = committed before answer from hcontext answer rfl]
          exact advanced_agree inner downstream _ (hrest result) answer before

theorem runAll_agrees (next : Level σ β τ) {candidates : List (Handler σ β τ)}
    (h : ∀ candidate ∈ candidates, Handler.Awaits candidate) (c : Context σ β) :
    Agrees (runAll next candidates c) (compose candidates next c) := by
  induction candidates generalizing c with
  | nil =>
      show Agrees ((next c).1, (awaited (next c).2).map fun _ => none) (next c)
      cases hresult : awaited (next c).2 with
      | error e => exact ⟨hresult.symm, fun answer hanswer => (by cases hanswer)⟩
      | ok _ =>
          refine ⟨hresult.symm, fun answer hanswer => ?_⟩
          cases hanswer
          rfl
  | cons candidate rest ih =>
      exact candidate_agrees (ih fun other hother => h other (List.mem_cons_of_mem _ hother))
        candidate (h candidate List.mem_cons_self) c

/-- The level of `all(...candidates)` settles as the levels of the candidates in a
chain do, and where it succeeds it leaves the context that they leave. -/
theorem combine_all_composes (next : Level σ β τ) {candidates : List (Handler σ β τ)}
    (h : ∀ candidate ∈ candidates, Handler.Awaits candidate) (c : Context σ β) :
    let one := settleLevel (combineAll candidates next c).1 (combineAll candidates next c).2
    let chain := compose candidates next c
    awaited one.2 = awaited chain.2 ∧ (awaited chain.2 = .ok () → one.1 = chain.1) := by
  intro one chain
  have hagrees := runAll_agrees next h c
  rcases hrun : runAll next candidates c with ⟨before, result⟩
  rw [hrun] at hagrees
  have hone : one = settleLevel before ⟨true, result.map resultOf⟩ := by
    show settleLevel (combineAll candidates next c).1 (combineAll candidates next c).2 = _
    rw [combineAll, hrun]
  rw [hone, ← hagrees.result]
  cases result with
  | error e =>
      refine ⟨rfl, ?_⟩
      rintro ⟨⟩
  | ok answer =>
      rw [show chain.1 = committed before answer from hagrees.context answer rfl]
      cases answer with
      | none => exact ⟨rfl, fun _ => rfl⟩
      | some res => exact ⟨rfl, fun _ => rfl⟩

/-! ### The candidate that takes the request -/

/-- What a handler stages before it settles or calls `next()`, and what it settles
to where it does not call it. -/
def Handler.alone :
    Handler σ β τ → (Staged σ → Staged σ) × Option (Except (Thrown τ) (HandlerResult β τ))
  | .settle _ result => (id, some result)
  | .stage write rest => ((Handler.alone rest).1 ∘ write, (Handler.alone rest).2)
  | .next _ => (id, none)

def passedOver (c : Context σ β) (candidate : Handler σ β τ) : Context σ β :=
  { c with staged := (Handler.alone candidate).1 c.staged }

/-- `none` for a candidate that takes the request; else its complaint, if it has one. -/
def complaint (candidate : Handler σ β τ) : Option (Option (Except (Thrown τ) (Response β))) :=
  match (Handler.alone candidate).2 with
  | none => none
  | some (.error e) => some (some (.error e))
  | some (.ok (.response res)) => if res.status < 400 then none else some (some (.ok res))
  | some (.ok _) => some none

theorem attempt_run (next : Level σ β τ) (handler : Handler σ β τ) (advanced : Bool)
    (c : Context σ β) :
    (Handler.attempt next handler advanced c).1 = (handler.run next advanced c).1 ∧
      (Handler.attempt next handler advanced c).2.1 = (handler.run next advanced c).2.result := by
  induction handler generalizing advanced c with
  | settle async result => exact ⟨rfl, rfl⟩
  | stage write rest ih => exact ih advanced _
  | next rest ih =>
      cases advanced with
      | true => exact ih _ true c
      | false => exact ih _ true _

theorem attempt_advanced (next : Level σ β τ) (handler : Handler σ β τ) (c : Context σ β) :
    (Handler.attempt next handler true c).2.2 = true := by
  induction handler generalizing c with
  | settle async result => rfl
  | stage write rest ih => exact ih _
  | next rest ih => exact ih _ c

/-- A candidate on its own, until it settles or has advanced. -/
theorem attempt_alone (next : Level σ β τ) (handler : Handler σ β τ) (c : Context σ β) :
    match (Handler.alone handler).2 with
    | none => (Handler.attempt next handler false c).2.2 = true
    | some result =>
        Handler.attempt next handler false c = (passedOver c handler, result, false) := by
  induction handler generalizing c with
  | settle async result => rfl
  | stage write rest ih => exact ih { c with staged := write c.staged }
  | next rest => exact attempt_advanced next _ _

def kept (rejection : Option (Response β)) (failure : Option (Thrown τ)) :
    Option (Except (Thrown τ) (Response β)) :=
  match failure, rejection with
  | some e, _ => some (.error e)
  | none, some res => some (.ok res)
  | none, none => none

/-- One candidate that is passed over. -/
theorem runSome_passes (next : Level σ β τ) {candidate : Handler σ β τ}
    {latest : Option (Except (Thrown τ) (Response β))} (h : complaint candidate = some latest)
    (rest : List (Handler σ β τ)) (rejection : Option (Response β)) (failure : Option (Thrown τ))
    (c : Context σ β) :
    ∃ rejection' failure', kept rejection' failure' = latest.or (kept rejection failure) ∧
      runSome next (candidate :: rest) rejection failure c =
        runSome next rest rejection' failure' (passedOver c candidate) := by
  have hattempt := attempt_alone next candidate c
  rw [complaint] at h
  split at h
  · cases h
  · next e halone =>
    cases h
    rw [halone] at hattempt
    refine ⟨rejection, some e, rfl, ?_⟩
    rw [runSome, hattempt]
    rfl
  · next res halone =>
    rw [Option.ite_none_left_eq_some] at h
    obtain ⟨hstatus, hlatest⟩ := h
    cases hlatest
    rw [halone] at hattempt
    refine ⟨some res, none, rfl, ?_⟩
    rw [runSome, hattempt]
    simp only [Bool.false_or, decide_eq_true_eq, if_neg hstatus]
  · next value hvalue halone =>
    cases h
    rw [halone] at hattempt
    refine ⟨rejection, failure, rfl, ?_⟩
    rw [runSome, hattempt]
    cases value with
    | response res => exact absurd rfl (hvalue res)
    | nothing => rfl
    | thenable => rfl
    | other typeOf => rfl
    | throwing e => rfl

/-- The complaints of candidates that are all passed over, in order. -/
def complaints (candidates : List (Handler σ β τ)) : List (Except (Thrown τ) (Response β)) :=
  candidates.filterMap fun candidate => (complaint candidate).join

theorem runSome_passesAll (next : Level σ β τ) {passed : List (Handler σ β τ)}
    (h : ∀ candidate ∈ passed, complaint candidate ≠ none) (rest : List (Handler σ β τ))
    (rejection : Option (Response β)) (failure : Option (Thrown τ)) (c : Context σ β) :
    ∃ rejection' failure',
      kept rejection' failure' = (complaints passed).getLast?.or (kept rejection failure) ∧
      runSome next (passed ++ rest) rejection failure c =
        runSome next rest rejection' failure' (passed.foldl passedOver c) := by
  induction passed generalizing rejection failure c with
  | nil => exact ⟨rejection, failure, rfl, rfl⟩
  | cons candidate passed ih =>
      obtain ⟨latest, hlatest⟩ := Option.ne_none_iff_exists'.mp (h candidate List.mem_cons_self)
      obtain ⟨rejection', failure', hkept, hone⟩ :=
        runSome_passes next hlatest (passed ++ rest) rejection failure c
      obtain ⟨rejection'', failure'', hlast, hall⟩ :=
        ih (fun other hother => h other (List.mem_cons_of_mem _ hother)) rejection' failure'
          (passedOver c candidate)
      refine ⟨rejection'', failure'', ?_, hone.trans hall⟩
      rw [hlast, hkept, complaints, complaints, List.filterMap_cons, hlatest, Option.join_some]
      cases latest with
      | none => rfl
      | some last =>
          rw [List.getLast?_cons]
          cases (passed.filterMap fun candidate => (complaint candidate).join).getLast? <;> rfl

/-- A candidate that takes the request settles it. -/
theorem runSome_takes (next : Level σ β τ) {candidate : Handler σ β τ}
    (h : complaint candidate = none) (rest : List (Handler σ β τ))
    (rejection : Option (Response β)) (failure : Option (Thrown τ)) (c : Context σ β) :
    runSome next (candidate :: rest) rejection failure c =
      ((candidate.run next false c).1, (candidate.run next false c).2.result.map responseOf) := by
  obtain ⟨hcontext, hresult⟩ := attempt_run next candidate false c
  have hattempt := attempt_alone next candidate c
  rw [complaint] at h
  split at h
  · next halone =>
    rw [halone] at hattempt
    rw [← hcontext, ← hresult, runSome]
    rcases hrun : Handler.attempt next candidate false c with ⟨after, result, advanced⟩
    rw [hrun] at hattempt
    subst hattempt
    cases result with
    | error e => rfl
    | ok value => cases value <;> rfl
  · cases h
  · next res halone =>
    rw [halone] at hattempt
    have hstatus : res.status < 400 := by
      by_contra hlarge
      rw [if_neg hlarge] at h
      cases h
    rw [← hcontext, ← hresult, runSome, hattempt]
    simp only [decide_eq_true hstatus, Bool.or_true, if_true]
    rfl
  · cases h

/-- `some(...candidates)` leaves the request to the first candidate that takes it
(it calls `next()` or answers below 400), as if that were the only one, with what
the candidates before it have staged; a value that is no response counts as none.
If none takes it, the last complaint decides; without one the request goes on. -/
theorem combine_some_takes (next : Level σ β τ) {passed : List (Handler σ β τ)}
    (h : ∀ candidate ∈ passed, complaint candidate ≠ none) (c : Context σ β) :
    (∀ candidate rest, complaint candidate = none →
      let taken := candidate.run next false (passed.foldl passedOver c)
      combineSome (passed ++ candidate :: rest) next c =
        (taken.1, ⟨true, taken.2.result.map (resultOf ∘ responseOf)⟩)) ∧
      combineSome passed next c = match (complaints passed).getLast? with
        | some (.error e) => (passed.foldl passedOver c, ⟨true, .error e⟩)
        | some (.ok res) => (passed.foldl passedOver c, ⟨true, .ok (.response res)⟩)
        | none =>
            ((next (passed.foldl passedOver c)).1,
              ⟨true, (awaited (next (passed.foldl passedOver c)).2).map fun _ => .nothing⟩) := by
  refine ⟨fun candidate rest htakes => ?_, ?_⟩
  · obtain ⟨rejection, failure, -, hall⟩ :=
      runSome_passesAll next h (candidate :: rest) none none c
    rw [combineSome, hall, runSome_takes next htakes]
    dsimp only
    cases (candidate.run next false (passed.foldl passedOver c)).2.result <;> rfl
  · obtain ⟨rejection, failure, hkept, hall⟩ := runSome_passesAll next h [] none none c
    rw [List.append_nil] at hall
    rw [combineSome, hall]
    rw [show kept (none : Option (Response β)) (none : Option (Thrown τ)) = none from rfl,
      Option.or_none] at hkept
    rw [← hkept]
    cases failure with
    | some e => rfl
    | none =>
        cases rejection with
        | some res => rfl
        | none =>
            have hmap : ∀ result : Except (Thrown τ) Unit,
                (result.map fun _ => none).map (resultOf (β := β) (τ := τ)) =
                  result.map fun _ => .nothing := fun result => by
              cases result <;> rfl
            exact congrArg (fun result => (_, (⟨true, result⟩ : Settled β τ))) (hmap _)

def passOnward : Handler Unit JsString Unit :=
  .next fun result => .settle true ((awaited result).map fun _ => .nothing)

def greet : Handler Unit JsString Unit := .settle true (.ok (.response greeting))

/-- A candidate passes the request on to one that answers. -/
theorem combine_all_composes_greet :
    (settleLevel (combineAll [passOnward, greet] NOOP_TAIL getContext).1
      (combineAll [passOnward, greet] NOOP_TAIL getContext).2).1.res = some greeting := by
  have hawaits : ∀ candidate ∈ [passOnward, greet], Handler.Awaits candidate := by
    intro candidate hcandidate
    rw [List.mem_cons, List.mem_singleton] at hcandidate
    rcases hcandidate with rfl | rfl
    · refine ⟨fun r r' hsame => ?_, fun r e hfails => ?_, fun r value hvalue => ?_⟩
      · dsimp only
        rw [hsame]
      · exact ⟨e, by rw [hfails]; rfl⟩
      · cases hresult : awaited r with
        | error e =>
            rw [hresult] at hvalue
            cases hvalue
        | ok _ =>
            rw [hresult] at hvalue
            cases hvalue
            exact .inl rfl
    · rintro value hvalue
      cases hvalue
      exact .inr ⟨_, rfl⟩
  rw [(combine_all_composes NOOP_TAIL hawaits getContext).2 rfl]
  rfl

/-- A candidate that fails is passed over for one that answers. -/
theorem combine_some_takes_greet :
    combineSome [.settle true (.error nextTwice), greet] NOOP_TAIL getContext =
      (getContext, ⟨true, .ok (.response greeting)⟩) := by
  have hpassed : ∀ candidate ∈ [(.settle true (.error nextTwice) : Handler Unit JsString Unit)],
      complaint candidate ≠ none := by
    intro candidate hcandidate
    rw [List.mem_singleton] at hcandidate
    subst hcandidate
    exact Option.some_ne_none _
  exact (combine_some_takes NOOP_TAIL hpassed getContext).1 greet [] rfl

end Keala.Middleware
