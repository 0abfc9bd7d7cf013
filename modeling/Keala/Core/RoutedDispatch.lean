import Keala.Core.DirectPath
import Keala.Core.ErrorPage
import Keala.Core.SetupRuns
import Keala.Lib.Except

/-!
The whole of `dispatchRequest`: a matched route under the method that it is
looked up by, or the fallback chain. A HEAD request that falls back to a GET
route is answered as GET is, without the body.
-/

namespace Keala.Core

open Keala.Js Keala.Http Keala.Router

variable {η σ β τ : Type}

def passOn : Handler σ β τ :=
  .next fun
    | .returned => .settle false (.ok .nothing)
    | .threw e => .settle false (.error e)
    | .promise settled => .settle true (settled.map fun _ => .nothing)

section

variable (handlerOf : η → Handler σ β τ) (segments : List JsString)

def routeHandler : RouteHandler η → Handler σ β τ
  | .user handler => handlerOf handler
  | .conditional scope handler pathOffset =>
      if scopeMatchesSegments scope (segments.drop pathOffset) then handlerOf handler else passOn
  | .markRouteReached => passOn

def chainLevel : Chain η → Level σ β τ → Level σ β τ
  | .direct handler => compose [routeHandler handlerOf segments handler]
  | .composed chain => compose (chain.handlers.map (routeHandler handlerOf segments))

end

def alternateMethodChain (target : RouteTarget η) (method : JsString) : Option (Chain η) :=
  (if method = js "HEAD" then OrderedMap.get? target.methods (js "GET") else none).or
    (OrderedMap.get? target.methods ALL)

def chainFor (target : RouteTarget η) (method : JsString) : Option (Chain η) :=
  (OrderedMap.get? target.methods method).or (alternateMethodChain target method)

/-- `c.routerAllowed.add(allowed)` for each method of the target; the set comes
to be with the first of them. -/
def addAllowed (c : Context σ β) (target : RouteTarget η) : Context σ β :=
  { c with
    allowedValue := target.allowed.foldl (fun allowed method =>
      let set := allowed.getD []
      some (if method ∈ set then set else set ++ [method])) c.allowedValue }

section

variable (app : Application σ β τ) (handlerOf : η → Handler σ β τ)

def dispatchFallback (c : Context σ β) (middleware : MiddlewareStack η) (path : JsString)
    (matched : Option (RouteTarget η)) : Response β :=
  let c := matched.elim c (addAllowed c)
  match fallbackMiddlewareForPath middleware path with
  | none => finalizeGuarded app c
  | some fallback => dispatchChain app c (compose (fallback.handlers.map handlerOf))

/-- A chain that carries `DIRECT_HANDLER` runs its handler without it. -/
def dispatchRoutedChain (c : Context σ β) (chain : Chain η) (method path : JsString) :
    Response β :=
  match chain with
  | .direct handler =>
      dispatchDirect app c (routeHandler handlerOf (pathSegments path) handler) method
  | .composed _ => dispatchChain app c (chainLevel handlerOf (pathSegments path) chain)

/-- `matched` is what `matchRoute` finds for the path. -/
def dispatchRequest (router : RouterState η) (middleware : MiddlewareStack η)
    (c : Context σ β) (path : JsString) (matched : Option RouteMatch) : Response β :=
  let target := matched.map fun found => router.targets found.target
  let method := dispatchMethod app c.method
  match target.bind (chainFor · method) with
  | some chain => dispatchRoutedChain app handlerOf c chain method path
  | none => dispatchFallback app handlerOf c middleware path target

end

/-! ### What a chain leaves alone -/

def Context.asked (c : Context σ β) (method : JsString) (allowedValue : Option (List JsString)) :
    Context σ β :=
  { c with method, allowedValue }

def Context.withMethod (c : Context σ β) (method : JsString) : Context σ β := { c with method }

structure Blind (level : Level σ β τ) : Prop where
  method : ∀ c, (level c).1.method = c.method
  allowed : ∀ c, (level c).1.allowedValue = c.allowedValue
  status : ∀ c, (level c).1.statusValue = c.statusValue
  asked : ∀ c m allowed,
    level (c.asked m allowed) = ((level c).1.asked m allowed, (level c).2)

theorem Blind.under {level : Level σ β τ} (h : Blind level) (c : Context σ β) (m : JsString) :
    level (c.withMethod m) = ((level c).1.withMethod m, (level c).2) := by
  have hsame : (level c).1.withMethod m = (level c).1.asked m c.allowedValue := by
    rw [← h.allowed]
    rfl
  rw [hsame]
  exact h.asked c m c.allowedValue

theorem blind_noopTail : Blind (NOOP_TAIL : Level σ β τ) where
  method _ := rfl
  allowed _ := rfl
  status _ := rfl
  asked _ _ _ := rfl

theorem Blind.run {downstream : Level σ β τ} (h : Blind downstream) (handler : Handler σ β τ)
    (advanced : Bool) (c : Context σ β) :
    (handler.run downstream advanced c).1.method = c.method ∧
      (handler.run downstream advanced c).1.allowedValue = c.allowedValue ∧
      (handler.run downstream advanced c).1.statusValue = c.statusValue ∧
      ∀ m allowed, handler.run downstream advanced (c.asked m allowed) =
        ((handler.run downstream advanced c).1.asked m allowed,
          (handler.run downstream advanced c).2) := by
  induction handler generalizing advanced c with
  | settle async result => exact ⟨rfl, rfl, rfl, fun _ _ => rfl⟩
  | stage write rest ih => exact ih advanced { c with staged := write c.staged }
  | next rest ih =>
      cases advanced with
      | true => exact ih _ true c
      | false =>
          obtain ⟨hmethod, hallowed, hstatus, hasked⟩ := ih (downstream c).2 true (downstream c).1
          refine ⟨hmethod.trans (h.method c), hallowed.trans (h.allowed c),
            hstatus.trans (h.status c), fun m allowed => ?_⟩
          rw [Handler.run, h.asked]
          exact hasked m allowed

theorem settleLevel_blind (c : Context σ β) (settled : Settled β τ) :
    (settleLevel c settled).1.method = c.method ∧
      (settleLevel c settled).1.allowedValue = c.allowedValue ∧
      (settleLevel c settled).1.statusValue = c.statusValue ∧
      ∀ m allowed, settleLevel (c.asked m allowed) settled =
        ((settleLevel c settled).1.asked m allowed, (settleLevel c settled).2) := by
  obtain ⟨async, result⟩ := settled
  cases result with
  | error e => exact ⟨rfl, rfl, rfl, fun _ _ => rfl⟩
  | ok value =>
      cases value with
      | response res => exact ⟨rfl, rfl, rfl, fun _ _ => rfl⟩
      | nothing => exact ⟨rfl, rfl, rfl, fun _ _ => rfl⟩
      | thenable => exact ⟨rfl, rfl, rfl, fun _ _ => rfl⟩
      | other typeOf => exact ⟨rfl, rfl, rfl, fun _ _ => rfl⟩
      | throwing e => exact ⟨rfl, rfl, rfl, fun _ _ => rfl⟩

theorem Blind.makeLevel {downstream : Level σ β τ} (h : Blind downstream)
    (handler : Handler σ β τ) : Blind (makeLevel handler downstream) where
  method c := (settleLevel_blind _ _).1.trans (h.run handler false c).1
  allowed c := (settleLevel_blind _ _).2.1.trans (h.run handler false c).2.1
  status c := (settleLevel_blind _ _).2.2.1.trans (h.run handler false c).2.2.1
  asked c m allowed := by
    rw [Core.makeLevel, (h.run handler false c).2.2.2 m allowed]
    exact (settleLevel_blind _ _).2.2.2 m allowed

theorem blind_compose (handlers : List (Handler σ β τ)) :
    Blind (compose handlers NOOP_TAIL) := by
  induction handlers with
  | nil => exact blind_noopTail
  | cons handler handlers ih => exact ih.makeLevel handler

theorem blind_chainLevel (handlerOf : η → Handler σ β τ) (segments : List JsString)
    (chain : Chain η) : Blind (chainLevel handlerOf segments chain NOOP_TAIL) := by
  cases chain with
  | direct handler => exact blind_compose _
  | composed chain => exact blind_compose _

/-! ### HEAD on a GET route -/

def LevelResult.Settles : LevelResult τ → Prop
  | .returned => True
  | .threw _ => False
  | .promise settled => settled = .ok ()

theorem dispatchChain_settled (app : Application σ β τ) {c after : Context σ β}
    {chain : Level σ β τ → Level σ β τ} {result : LevelResult τ}
    (hrun : chain NOOP_TAIL c = (after, result)) (hresult : result.Settles) :
    dispatchChain app c chain = finalizeGuarded app after := by
  rw [dispatchChain, hrun]
  cases result with
  | returned => rfl
  | threw e => exact hresult.elim
  | promise settled =>
      change settled = .ok () at hresult
      rw [hresult]

/-- A chain that settles is answered by the finalizer, unless the response of a
direct handler goes out as it is. -/
theorem dispatchRoutedChain_settled (app : Application σ β τ) {handlerOf : η → Handler σ β τ}
    {c after : Context σ β} {chain : Chain η} {path : JsString} {result : LevelResult τ}
    (hrun : chainLevel handlerOf (pathSegments path) chain NOOP_TAIL c = (after, result))
    (hresult : result.Settles) (method : JsString) :
    dispatchRoutedChain app handlerOf c chain method path = finalizeGuarded app after ∨
      ∃ res, after.res = some res ∧ answersVerbatim app after res method = true ∧
        dispatchRoutedChain app handlerOf c chain method path = res := by
  cases chain with
  | composed chain => exact .inl (dispatchChain_settled app hrun hresult)
  | direct handler =>
      rw [dispatchRoutedChain, dispatchDirect]
      change makeLevel (routeHandler handlerOf (pathSegments path) handler) NOOP_TAIL c = _ at hrun
      rw [makeLevel] at hrun
      rw [guarded]
      generalize (routeHandler handlerOf (pathSegments path) handler).run NOOP_TAIL false c = r
        at hrun
      obtain ⟨mid, async, settled⟩ := r
      -- What settles neither rejects nor commits something that is no response.
      cases settled with
      | error e => cases async <;> · cases hrun; cases hresult
      | ok value =>
          cases value with
          | nothing => cases async <;> · cases hrun; exact .inl rfl
          | thenable => cases async <;> · cases hrun; cases hresult
          | other typeOf => cases async <;> · cases hrun; cases hresult
          | throwing e => cases async <;> · cases hrun; cases hresult
          | response res =>
              obtain rfl : after = { mid with res := some res } := by
                cases async <;> · cases hrun; rfl
              show (if answersVerbatim app mid res method then res
                else finalizeGuarded app { mid with res := some res }) = _ ∨ _
              cases hverbatim : answersVerbatim app mid res method with
              | false => exact .inl (if_neg Bool.false_ne_true)
              | true =>
                  refine .inr ⟨res, rfl, hverbatim, ?_⟩
                  show (if answersVerbatim app mid res method then res else _) = res
                  rw [hverbatim, if_pos rfl]

/-- Observing a body leaves the rest of its response. -/
theorem openBody_same {app : Application σ β τ} {merged get : Response β}
    (h : (match app.observesStreams, merged.body with
      | true, some body => do
          let observed ← repumpStream body
          construct app.runtime (some observed) merged.status merged.statusText merged.headers.copy
      | _, _ => pure merged : Except (Thrown τ) (Response β)) = .ok get) :
    get.status = merged.status ∧ get.body.isSome = merged.body.isSome ∧
      ∀ n, get.headers.reading n = merged.headers.reading n := by
  split at h
  · next body _ hbody =>
      obtain ⟨observed, -, hget⟩ := Except.ok_of_bind h
      rw [construct] at hget
      split at hget
      · cases hget
      · split at hget
        · cases hget
        · cases hget
          exact ⟨rfl, hbody ▸ rfl, Headers.reading_copy merged.headers⟩
  · cases h
    exact ⟨rfl, rfl, fun _ => rfl⟩

/-- The closer under HEAD gives what it gives under another method, without the
body. -/
theorem finishCommitted_head {app : Application σ β τ} {c : Context σ β} {res get : Response β}
    (hmethod : c.method ≠ js "HEAD")
    (hget : (finishCommitted app c res : Except (Thrown τ) _) = .ok get)
    (hrange : get.body.isSome = true → 200 ≤ get.status ∧ get.status ≤ 599) :
    ∃ head, (finishCommitted app (c.withMethod (js "HEAD")) res : Except (Thrown τ) _) = .ok head ∧
      head.status = get.status ∧ head.body = none ∧
        ∀ n, head.headers.reading n = get.headers.reading n := by
  obtain ⟨merged, hmerged, hget⟩ := Except.ok_of_bind hget
  have hrecord : (c.withMethod (js "HEAD")).staged = c.staged := rfl
  rw [finishCommitted, hrecord, hmerged]
  cases hempty : (isEmptyStatus merged.status &&
      (merged.body.isSome || describesContent merged.headers)) with
  | true =>
      rw [hempty, if_pos rfl] at hget
      have hempty' := (Bool.and_eq_true _ _ ▸ hempty).1
      rw [sanitizeEmptyStatus_ok app.runtime hempty'] at hget
      cases hget
      refine ⟨_, ?_, rfl, rfl, fun _ => rfl⟩
      show (if (isEmptyStatus merged.status && _) = true then _ else _) = _
      rw [hempty, if_pos rfl, sanitizeEmptyStatus_ok app.runtime hempty']
  | false =>
      rw [hempty, if_neg Bool.false_ne_true, if_neg fun h => hmethod h.1] at hget
      have hsame := openBody_same hget
      cases hbody : merged.body with
      | none =>
          rw [hbody] at hsame
          have hnone : get.body = none := by simpa using hsame.2.1
          refine ⟨merged, ?_, hsame.1.symm, hbody, fun n => (hsame.2.2 n).symm⟩
          show (if (isEmptyStatus merged.status && _) = true then _
            else if js "HEAD" = js "HEAD" ∧ merged.body.isSome = true then _ else _) = _
          rw [hempty, if_neg Bool.false_ne_true, hbody, if_neg (by simp)]
          cases app.observesStreams <;> rfl
      | some body =>
          rw [hbody] at hsame
          obtain ⟨hlow, hhigh⟩ := hrange (hsame.2.1.trans rfl)
          rw [hsame.1] at hlow hhigh
          obtain ⟨head, hhead, hstatus, hnone, hheaders⟩ := construct_ok (τ := τ) app.runtime none
            merged.statusText merged.headers.copy hlow hhigh fun _ => rfl
          refine ⟨head, ?_, hstatus.trans hsame.1.symm, hnone, ?_⟩
          · show (if (isEmptyStatus merged.status && _) = true then _
              else if js "HEAD" = js "HEAD" ∧ merged.body.isSome = true then _ else _) = _
            rw [hempty, if_neg Bool.false_ne_true, hbody, if_pos ⟨rfl, rfl⟩]
            exact hhead
          · intro n
            rw [hheaders, hsame.2.2]
            exact Headers.reading_copy merged.headers n

theorem finalizeGuarded_closed (app : Application σ β τ) {c : Context σ β}
    {res closed : Response β} (hres : c.res = some res)
    (hclosed : (finishCommitted app c res : Except (Thrown τ) _) = .ok closed) :
    finalizeGuarded app c = closed := by
  have hsame : c = { c with res := some res } := by rw [← hres]
  rw [hsame, finalizeGuarded_committed, ← hsame, hclosed]

theorem dispatchRequest_chain (app : Application σ β τ) (handlerOf : η → Handler σ β τ)
    (router : RouterState η) (middleware : MiddlewareStack η) {c : Context σ β} {path : JsString}
    {found : RouteMatch} {chain : Chain η} {method : JsString}
    (hmethod : dispatchMethod app c.method = method)
    (hchain : chainFor (router.targets found.target) method = some chain) :
    dispatchRequest app handlerOf router middleware c path (some found) =
      dispatchRoutedChain app handlerOf c chain method path := by
  have hbind : ((some found).map fun found => router.targets found.target).bind
      (chainFor · (dispatchMethod app c.method)) = some chain := hmethod ▸ hchain
  rw [dispatchRequest, hbind, hmethod]

/-- A HEAD request for a route with a GET handler and none of its own is
answered with the status and the headers of GET, and no body, where the chain
does the same under both and the finalizer can close what it commits. -/
theorem head_answers_as_get (app : Application σ β τ)
    (hupper : app.host.toUpperCase (js "HEAD") = js "HEAD") (handlerOf : η → Handler σ β τ)
    (router : RouterState η) (middleware : MiddlewareStack η) (c : Context σ β) (path : JsString)
    {found : RouteMatch} {chain : Chain η} {after : Context σ β} {result : LevelResult τ}
    {res closed : Response β}
    (hget : OrderedMap.get? (router.targets found.target).methods (js "GET") = some chain)
    (hown : OrderedMap.get? (router.targets found.target).methods (js "HEAD") = none)
    (hrun : chainLevel handlerOf (pathSegments path) chain NOOP_TAIL (c.withMethod (js "GET")) =
      (after, result))
    (hresult : result.Settles) (hres : after.res = some res)
    (hclosed : (finishCommitted app after res : Except (Thrown τ) _) = .ok closed)
    (hrange : closed.body.isSome = true → 200 ≤ closed.status ∧ closed.status ≤ 599) :
    let answer := fun method => dispatchRequest app handlerOf router middleware
      (c.withMethod method) path (some found)
    (answer (js "HEAD")).status = (answer (js "GET")).status ∧ (answer (js "HEAD")).body = none ∧
      (isEmptyStatus (answer (js "GET")).status = false → ∀ n,
        (answer (js "HEAD")).headers.reading n = (answer (js "GET")).headers.reading n) := by
  intro answer
  have hblind := blind_chainLevel handlerOf (pathSegments path) chain
  have hmethod : after.method = js "GET" := by
    have hkept := hblind.method (c.withMethod (js "GET"))
    rw [hrun] at hkept
    exact hkept
  have hne : after.method ≠ js "HEAD" := hmethod ▸ (by decide)
  have hanswer : answer (js "GET") =
      dispatchRoutedChain app handlerOf (c.withMethod (js "GET")) chain (js "GET") path :=
    dispatchRequest_chain app handlerOf router middleware (if_pos rfl) (by rw [chainFor, hget]; rfl)
  have hchain : chainFor (router.targets found.target) (js "HEAD") = some chain := by
    rw [chainFor, hown, alternateMethodChain, if_pos rfl, hget]
    rfl
  have hanswer' : answer (js "HEAD") =
      dispatchRoutedChain app handlerOf (c.withMethod (js "HEAD")) chain (js "HEAD") path :=
    dispatchRequest_chain app handlerOf router middleware
      ((if_neg (show js "HEAD" ≠ js "GET" by decide)).trans hupper) hchain
  -- HEAD never takes the answer of a direct handler as it is.
  have hrun' : chainLevel handlerOf (pathSegments path) chain NOOP_TAIL
      (c.withMethod (js "HEAD")) = (after.withMethod (js "HEAD"), result) := by
    have hunder := hblind.under (c.withMethod (js "GET")) (js "HEAD")
    rw [hrun] at hunder
    exact hunder
  obtain ⟨head, hhead, hstatus, hbody, hheaders⟩ := finishCommitted_head hne hclosed hrange
  have hfinal : answer (js "HEAD") = head := by
    rw [hanswer']
    rcases dispatchRoutedChain_settled app hrun' hresult (js "HEAD") with hrouted | ⟨_, -, hv, -⟩
    · exact hrouted.trans (finalizeGuarded_closed app hres hhead)
    · exact absurd rfl ((answersVerbatim_iff ..).mp hv).2.1
  rw [hfinal, hbody]
  rcases dispatchRoutedChain_settled app hrun hresult (js "GET") with
    hrouted | ⟨res', hres', hv, hrouted⟩
  · rw [hanswer, hrouted, finalizeGuarded_closed app hres hclosed]
    exact ⟨hstatus, rfl, fun _ => hheaders⟩
  · rw [hanswer, hrouted]
    obtain rfl : res' = res := Option.some.inj (hres'.symm.trans hres)
    obtain ⟨hrecord, -, hstream, -⟩ := (answersVerbatim_iff ..).mp hv
    rw [finishCommitted_unstaged app hrecord hne hstream] at hclosed
    cases hempty : isEmptyStatus res'.status with
    | false =>
        rw [hempty, Bool.false_and, if_neg Bool.false_ne_true] at hclosed
        cases hclosed
        exact ⟨hstatus, rfl, fun _ => hheaders⟩
    | true =>
        rw [sanitizeEmptyStatus_ok app.runtime hempty] at hclosed
        refine ⟨hstatus.trans ?_, rfl, fun h => by cases h⟩
        split at hclosed <;> · cases hclosed; rfl

def greeting : Response JsString where
  status := 200
  statusText := []
  headers := ⟨[(js "content-length", js "5")], false⟩
  body := some ⟨js "hello", false⟩

def greetingRouter : RouterState ℕ :=
  (setup plainApp.host (fun _ => none) [.on (getRoute (js "/a") 1)] (createApp false)).router

theorem head_answers_as_get_greeting :
    (dispatchRequest plainApp (fun _ => .settle true (.ok (.response greeting))) greetingRouter
      createMiddlewareStack (getContext.withMethod (js "HEAD")) (js "/a")
      (some (staticMatch 0))).body = none := by
  have hget : OrderedMap.get? (greetingRouter.targets (staticMatch 0).target).methods (js "GET") =
      some (.direct (.user 1)) := by decide +kernel
  have hown : OrderedMap.get? (greetingRouter.targets (staticMatch 0).target).methods (js "HEAD") =
      none := by decide +kernel
  exact (head_answers_as_get plainApp rfl (fun _ => .settle true (.ok (.response greeting)))
    greetingRouter createMiddlewareStack getContext (js "/a") hget hown rfl rfl rfl rfl
    fun _ => ⟨by decide, by decide⟩).2.1

end Keala.Core
