import Keala.Core.RoutedDispatch

/-!
What a matched path answers when no chain takes its method. The methods that a
target lists as allowed are kept beside its chains; in every application that
setup calls make, the two say the same.
-/

namespace Keala.Core

open Keala.Js Keala.Http Keala.Router OrderedMap

variable {η : Type}

/-! ### A target -/

def Known (method : JsString) : Prop := method ∈ KNOWN_METHODS ∨ method = ALL

structure TargetListed (target : RouteTarget η) : Prop where
  known : ∀ method ∈ keys target.methods, Known method
  allowed : ∀ method, method ∈ target.allowed ↔
    ∃ key ∈ keys target.methods, method ∈ allowedOf key

theorem createTarget_listed : TargetListed (createTarget : RouteTarget η) where
  known method h := by cases h
  allowed method := by simp [createTarget]

theorem mem_foldl_add (added allowed : List JsString) (method : JsString) :
    method ∈ added.foldl
        (fun allowed method => if method ∈ allowed then allowed else allowed ++ [method]) allowed ↔
      method ∈ allowed ∨ method ∈ added := by
  induction added generalizing allowed with
  | nil => simp
  | cons first rest ih =>
      rw [List.foldl_cons, ih, List.mem_cons]
      by_cases hfirst : first ∈ allowed
      · rw [if_pos hfirst]
        constructor
        · rintro (h | h)
          · exact .inl h
          · exact .inr (.inr h)
        · rintro (h | rfl | h)
          · exact .inl h
          · exact .inl hfirst
          · exact .inr h
      · rw [if_neg hfirst, List.mem_append, List.mem_singleton, or_assoc]

theorem bindTarget_listed {d : RouteDef η} (handlers appMiddleware : List (RouteHandler η))
    (devTrace : Bool) {target : RouteTarget η} (h : TargetListed target) (hd : Known d.method) :
    TargetListed (bindTarget d handlers appMiddleware devTrace target) := by
  have hkeys : ∀ method, method ∈ keys (bindTarget d handlers appMiddleware devTrace
      target).methods ↔ method = d.method ∨ method ∈ keys target.methods := by
    intro method
    rw [bindTarget, keys_set]
    split
    · next hold => exact ⟨.inr, fun hmem => hmem.elim (fun heq => heq ▸ hold) id⟩
    · rw [List.mem_append, List.mem_singleton, or_comm]
  refine ⟨fun method hmem => ?_, fun method => ?_⟩
  · rcases (hkeys method).mp hmem with rfl | hold
    · exact hd
    · exact h.known method hold
  · have hmem : method ∈ (bindTarget d handlers appMiddleware devTrace target).allowed ↔
        method ∈ target.allowed ∨ method ∈ allowedOf d.method := mem_foldl_add ..
    rw [hmem, h.allowed]
    constructor
    · rintro (⟨key, hkey, hin⟩ | hin)
      · exact ⟨key, (hkeys key).mpr (.inr hkey), hin⟩
      · exact ⟨d.method, (hkeys _).mpr (.inl rfl), hin⟩
    · rintro ⟨key, hkey, hin⟩
      rcases (hkeys key).mp hkey with rfl | hold
      · exact .inr hin
      · exact .inl ⟨key, hold, hin⟩

/-! ### A router -/

structure RouterListed (state : RouterState η) : Prop where
  targets : ∀ ref, TargetListed (state.targets ref)
  defs : ∀ d ∈ state.defs, Known d.method

variable [DecidableEq η] {host : Host}

theorem bindDef_listed (host : Host) {state : RouterState η} (h : RouterListed state)
    {d : RouteDef η} (hd : Known d.method) (middleware : MiddlewareStack η) :
    RouterListed (bindDef host state d middleware).1 := by
  refine ⟨?_, (bindDef_framed host state d middleware).defs ▸ h.defs⟩
  rw [bindDef_eq]
  split
  · exact h.targets
  · split
    · exact h.targets
    · intro ref
      dsimp only
      split
      · exact bindTarget_listed _ _ _ (h.targets ref) hd
      · exact h.targets ref

theorem bindAll_listed (middleware : MiddlewareStack η) {defs : List (RouteDef η)}
    (hdefs : ∀ d ∈ defs, Known d.method) {state : RouterState η} (h : RouterListed state) :
    RouterListed (bindAll host middleware defs state).1 := by
  induction defs generalizing state with
  | nil => exact h
  | cons d defs ih =>
      have hd := bindDef_listed host h (hdefs d List.mem_cons_self) middleware
      rw [bindAll]
      generalize bindDef host state d middleware = r at hd
      obtain ⟨next, result⟩ := r
      cases result with
      | error e => exact hd
      | ok _ => exact ih (fun d hmem => hdefs d (List.mem_cons_of_mem _ hmem)) hd

theorem rebuildChains_listed (host : Host) {state : RouterState η}
    (hdefs : ∀ d ∈ state.defs, Known d.method) (middleware : MiddlewareStack η) :
    RouterListed (rebuildChains host state middleware).1 :=
  bindAll_listed middleware hdefs ⟨fun _ => createTarget_listed, hdefs⟩

omit [DecidableEq η] in
theorem checkedDef_known {state : RouterState η} {r : Registration η} {d : RouteDef η}
    (h : checkedDef host state r = .ok d) : Known d.method := by
  rw [checkedDef] at h
  split at h
  · cases h
  · next hknown =>
      rw [not_and, not_not] at hknown
      split at h
      · cases h
      · dsimp only at h
        split at h
        · cases h
        · cases h
          exact or_iff_not_imp_left.mpr hknown

theorem registerDef_listed {state : RouterState η} (h : RouterListed state) (r : Registration η)
    (middleware : MiddlewareStack η) : RouterListed (registerDef host state r middleware).1 := by
  rw [registerDef]
  cases hchecked : checkedDef host state r with
  | error e => exact h
  | ok d =>
      have hd := checkedDef_known hchecked
      have hpushed : RouterListed (pushDef state d) := by
        refine ⟨h.targets, fun other hother => ?_⟩
        rcases List.mem_append.mp hother with hold | hnew
        · exact h.defs other hold
        · exact List.mem_singleton.mp hnew ▸ hd
      have hbound := bindDef_listed host hpushed hd middleware
      dsimp only
      generalize bindDef host (pushDef state d) d middleware = bound at hbound
      obtain ⟨next, result⟩ := bound
      cases result with
      | ok _ => exact hbound
      | error e =>
          -- The rollback drops a definition and binds the rest again.
          have hpopped : ∀ other ∈ (popDef next d.name
              (d.name.bind (get? state.named))).defs, Known other.method :=
            fun other hother => hbound.defs other (List.mem_of_mem_dropLast hother)
          have hrebuilt := rebuildChains_listed host hpopped middleware
          dsimp only
          generalize rebuildChains host _ middleware = rebuilt at hrebuilt
          obtain ⟨final, result⟩ := rebuilt
          cases result with
          | error e => exact hrebuilt
          | ok _ => exact hrebuilt

/-! ### Setup calls -/

/-- What each of the operations that a setup call is made of keeps. -/
structure SetupKept (host : Host) (holds : App η → Prop) : Prop where
  addRoute : ∀ r app, holds app → holds (addRoute host r app).1
  addParam : ∀ name middleware app, holds app → holds (addParam host name middleware app).1
  rebuildApp : ∀ app, holds app → holds (rebuildApp host app).1
  flush : ∀ scope pending changed app, holds app → holds (flush scope pending changed app).1
  sinkPath : ∀ path methods app, holds app → holds (sinkPath path methods app)
  matchRequest : ∀ path app, holds app → holds (matchRequest host path app).1

section

variable {holds : App η → Prop}

mutual

theorem SetupCall.keeps (h : SetupKept host holds) (noOpMeta : NoOpMeta η) :
    ∀ (call : SetupCall η) (app : App η), holds app → holds (call.run host noOpMeta app).1
  | .on r, app, happ => by
      rw [SetupCall.run]
      exact h.addRoute r app happ
  | .param name middleware, app, happ => by
      rw [SetupCall.run]
      exact h.addParam name middleware app happ
  | .use pattern args, app, happ => by
      rw [SetupCall.run]
      split
      · exact happ
      · next scope _ =>
          have hargs := UseArgs.keeps h noOpMeta scope args [] false app happ
          generalize UseArgs.run host noOpMeta scope args [] false app = r at hargs
          obtain ⟨next, result⟩ := r
          cases result with
          | error e => exact hargs
          | ok changed =>
              dsimp only
              split
              · exact h.rebuildApp next hargs
              · exact hargs
  | .markSunk path methods, app, happ => by
      rw [SetupCall.run]
      exact h.sinkPath path methods app happ
  | .request path, app, happ => by
      rw [SetupCall.run]
      exact h.matchRequest path app happ

theorem UseArgs.keeps (h : SetupKept host holds) (noOpMeta : NoOpMeta η)
    (scope : Option MiddlewareScope) :
    ∀ (args : UseArgs η) (pending : List η) (changed : Bool) (app : App η), holds app →
      holds (UseArgs.run host noOpMeta scope args pending changed app).1
  | .nil, pending, changed, app, happ => by
      rw [UseArgs.run]
      exact h.flush scope pending changed app happ
  | .handler fn rest, pending, changed, app, happ => by
      rw [UseArgs.run]
      exact UseArgs.keeps h noOpMeta scope rest (pending ++ [fn]) changed app happ
  | .plugin install rest, pending, changed, app, happ => by
      rw [UseArgs.run]
      split
      · exact happ
      · have hflush := h.flush scope pending changed app happ
        generalize flush scope pending changed app = flushed at hflush
        obtain ⟨mid, flag⟩ := flushed
        have hinstall := Install.keeps h noOpMeta install mid hflush
        dsimp only
        generalize Install.run host noOpMeta install mid = r at hinstall
        obtain ⟨next, result⟩ := r
        cases result with
        | error e => exact hinstall
        | ok _ => exact UseArgs.keeps h noOpMeta scope rest [] flag next hinstall
  | .other rest, pending, changed, app, happ => by
      rw [UseArgs.run]
      exact happ

theorem Install.keeps (h : SetupKept host holds) (noOpMeta : NoOpMeta η) :
    ∀ (install : Install η) (app : App η), holds app → holds (install.run host noOpMeta app).1
  | .done, app, happ => by
      rw [Install.run]
      exact happ
  | .throws, app, happ => by
      rw [Install.run]
      exact happ
  | .call call caught rest, app, happ => by
      rw [Install.run]
      have hcall := SetupCall.keeps h noOpMeta call app happ
      generalize SetupCall.run host noOpMeta call app = r at hcall
      obtain ⟨next, result⟩ := r
      cases result with
      | ok _ => exact Install.keeps h noOpMeta rest next hcall
      | error e =>
          dsimp only
          split
          · exact Install.keeps h noOpMeta rest next hcall
          · exact hcall

end

/-- What every operation keeps holds after every sequence of setup calls. -/
theorem SetupKept.setup (h : SetupKept host holds) (noOpMeta : NoOpMeta η)
    (calls : List (SetupCall η)) {app : App η} (happ : holds app) :
    holds (setup host noOpMeta calls app) := by
  induction calls generalizing app with
  | nil => exact happ
  | cons call calls ih => exact ih (SetupCall.keeps h noOpMeta call app happ)

end

theorem rebuildApp_listed {app : App η} (hdefs : ∀ d ∈ app.router.defs, Known d.method) :
    RouterListed (rebuildApp host app).1.router :=
  rebuildChains_listed host hdefs app.middleware

theorem kept_listed : SetupKept host fun app : App η => RouterListed app.router where
  addRoute r app h := registerDef_listed h r app.middleware
  addParam name middleware app h := by
    rw [addParam]
    split
    · exact h
    · split
      · exact h
      · exact rebuildApp_listed fun d hd => h.defs d hd
  rebuildApp app h := rebuildApp_listed h.defs
  flush scope pending changed app h := by
    rw [flush]
    split
    · exact h
    · exact h
  sinkPath path methods app h := ⟨h.targets, h.defs⟩
  matchRequest path app h := by
    rw [matchRequest]
    split
    · exact h
    · exact ⟨h.targets, h.defs⟩

theorem setup_listed (noOpMeta : NoOpMeta η) (devTrace : Bool) (calls : List (SetupCall η)) :
    RouterListed (setup host noOpMeta calls (createApp devTrace)).router := by
  have hempty : RouterListed (createApp devTrace : App η).router :=
    ⟨fun _ => createTarget_listed, fun d hd => by cases hd⟩
  exact kept_listed.setup noOpMeta calls hempty

/-! ### The answer -/

omit [DecidableEq η] in
theorem chainFor_isSome (target : RouteTarget η) (method : JsString) :
    (chainFor target method).isSome = true ↔ method ∈ keys target.methods ∨
      (method = js "HEAD" ∧ js "GET" ∈ keys target.methods) ∨ ALL ∈ keys target.methods := by
  have hmem : ∀ m, (get? target.methods m).isSome = true ↔ m ∈ keys target.methods := fun m => by
    rw [Option.isSome_iff_ne_none, ne_eq, get?_eq_none_iff, not_not]
  rw [chainFor, alternateMethodChain, Option.isSome_or, Option.isSome_or, Bool.or_eq_true,
    Bool.or_eq_true, hmem, hmem]
  split
  · next hhead => rw [hmem, hhead, and_iff_right rfl]
  · next hhead => simp [hhead]

omit [DecidableEq η] in
/-- Where no chain stands for every method, the methods to allow are those that
have a chain. -/
theorem TargetListed.mem_allowed {target : RouteTarget η} (h : TargetListed target)
    (hall : ALL ∉ keys target.methods) (method : JsString) :
    method ∈ target.allowed ↔ (chainFor target method).isSome = true := by
  rw [h.allowed, chainFor_isSome, or_iff_left hall]
  constructor
  · rintro ⟨key, hkey, hin⟩
    have hnot : key ≠ ALL := fun heq => hall (heq ▸ hkey)
    rw [allowedOf, if_neg hnot, List.mem_append, List.mem_singleton] at hin
    rcases hin with rfl | hhead
    · exact .inl hkey
    · split at hhead
      · next hget => exact .inr ⟨List.mem_singleton.mp hhead, hget ▸ hkey⟩
      · cases hhead
  · rintro (hkey | ⟨rfl, hget⟩)
    · exact ⟨method, hkey, List.mem_cons_self⟩
    · exact ⟨js "GET", hget, by decide⟩

def refusal (unknownMethodAs404 : Bool) (method : JsString) : Option ℕ :=
  if method ∉ KNOWN_METHODS then if unknownMethodAs404 then none else some 501
  else if method = js "OPTIONS" then some 200
  else some 405

theorem refusal_range {unknownMethodAs404 : Bool} {method : JsString} {status : ℕ}
    (h : refusal unknownMethodAs404 method = some status) : 200 ≤ status ∧ status ≤ 599 := by
  rw [refusal] at h
  split at h
  · split at h
    · cases h
    · cases h
      exact ⟨by decide, by decide⟩
  · split at h
    · cases h
      exact ⟨by decide, by decide⟩
    · cases h
      exact ⟨by decide, by decide⟩

/-- The methods that a target has a chain for, as the `Allow` header lists them. -/
def allowList (target : RouteTarget η) : JsString :=
  Headers.joinValues (ALLOW_ORDER.filter fun method => (chainFor target method).isSome)

def refused {β : Type} (status : ℕ) (target : RouteTarget η) : Response β where
  status
  statusText := []
  headers := ⟨[(js "allow", allowList target)], false⟩
  body := none

theorem normal_method {method : JsString} (h : method ∈ ALLOW_ORDER) :
    normalized method = method ∧ method ≠ [] := by
  have hall : ∀ method ∈ ALLOW_ORDER, normalized method = method ∧ method ≠ [] := by decide
  exact hall method h

omit [DecidableEq η] in
theorem normalized_allowList (target : RouteTarget η) :
    normalized (allowList target) = allowList target := by
  have hmethods : ∀ method ∈ ALLOW_ORDER.filter fun method => (chainFor target method).isSome,
      normalized method = method ∧ method ≠ [] :=
    fun method hmethod => normal_method (List.mem_of_mem_filter hmethod)
  have hnormal := fun method hmethod => (hmethods method hmethod).1
  have hends : ¬EndsBlank (ALLOW_ORDER.filter fun method => (chainFor target method).isSome) := by
    rintro ⟨front, last, -, heq, hblank⟩
    obtain ⟨hsame, hne⟩ := hmethods last (heq ▸ List.mem_append_right _ List.mem_cons_self)
    exact hne (hsame ▸ hblank)
  exact normalized_eq_self (head_joinValues hnormal) (last_joinValues hnormal hends)

variable {σ β τ : Type}

theorem construct_refused (runtime : Runtime β) {status : ℕ} (hlow : 200 ≤ status)
    (hhigh : status ≤ 599) (headers : List (JsString × JsString)) :
    (construct runtime none status [] ⟨headers, false⟩ : Except (Thrown τ) (Response β)) =
      .ok ⟨status, [], ⟨headers, false⟩, none⟩ := by
  rw [construct, if_neg (by omega), if_neg (by simp)]
  rfl

omit [DecidableEq η] in
theorem TargetListed.methodNotAllowed_eq {target : RouteTarget η} (h : TargetListed target)
    (app : Application σ β τ) {c : Context σ β}
    (hunrouted : chainFor target (app.host.toUpperCase c.method) = none)
    {allowed : List JsString} (hmem : ∀ method, method ∈ allowed ↔ method ∈ target.allowed)
    (hc : c.allowedValue = some allowed) (hmethods : target.methods ≠ []) :
    methodNotAllowed app c =
      match refusal app.unknownMethodAs404 (app.host.toUpperCase c.method) with
      | none => (c, .ok none)
      | some status => ({ c with statusValue := status }, .ok (some (refused status target))) := by
  have hnone : ¬(chainFor target (app.host.toUpperCase c.method)).isSome = true := by
    simp [hunrouted]
  have hall : ALL ∉ keys target.methods := fun hall =>
    hnone ((chainFor_isSome target _).mpr (.inr (.inr hall)))
  have hlist : (ALLOW_ORDER.filter fun m => decide (m ∈ allowed)) =
      ALLOW_ORDER.filter fun m => (chainFor target m).isSome := by
    refine List.filter_congr fun m _ => ?_
    rw [Bool.eq_iff_iff, decide_eq_true_eq, hmem]
    exact h.mem_allowed hall m
  have hne : allowed ≠ [] := by
    obtain ⟨entry, hentry⟩ := List.exists_mem_of_ne_nil _ hmethods
    have hkey : entry.1 ∈ target.allowed :=
      (h.allowed _).mpr ⟨entry.1, mem_keys hentry, List.mem_cons_self⟩
    exact List.ne_nil_of_mem ((hmem _).mpr hkey)
  obtain ⟨first, rest, rfl⟩ := List.exists_cons_of_ne_nil hne
  rw [methodNotAllowed, hc]
  dsimp only
  rw [refusal, hlist]
  by_cases hknown : app.host.toUpperCase c.method ∈ KNOWN_METHODS
  · rw [if_neg (not_not.mpr hknown), if_neg (not_not.mpr hknown)]
    by_cases hoptions : app.host.toUpperCase c.method = js "OPTIONS"
    · rw [if_pos hoptions, if_pos hoptions, construct_refused _ (by decide) (by decide)]
      rfl
    · have hnot : app.host.toUpperCase c.method ∉ first :: rest := by
        rw [hmem, h.mem_allowed hall]
        exact hnone
      rw [if_neg hoptions, if_neg hoptions, if_pos hnot,
        construct_refused _ (by decide) (by decide)]
      rfl
  · rw [if_pos hknown, if_pos hknown]
    cases app.unknownMethodAs404 with
    | true => rfl
    | false =>
        rw [if_neg Bool.false_ne_true, if_neg Bool.false_ne_true,
          construct_refused _ (by decide) (by decide)]
        rfl

/-- What a client reads of the allowed methods: what the middleware staged for
them, else the list. -/
def allowReading (record : HeaderMap) (list : JsString) : List JsString :=
  ((get? record (js "allow")).map fun value => readingOf (js "allow") (wireOf value)).getD [list]

omit [DecidableEq η] in
/-- The finalizer merges what is staged onto the refusal. -/
theorem finalizeGuarded_refused {app : Application σ β τ} {c : Context σ β} {status : ℕ}
    {target : RouteTarget η} (hres : c.res = none) (hnodup : (keys c.record).Nodup)
    (hlow : 200 ≤ status) (hhigh : status ≤ 599)
    (hrefused : methodNotAllowed app c =
      ({ c with statusValue := status }, .ok (some (refused status target)))) :
    (finalizeGuarded app c).status = status ∧ (finalizeGuarded app c).body = none ∧
      (finalizeGuarded app c).headers.reading (js "allow") =
        allowReading c.record (allowList target) := by
  have hmutable : (refused (β := β) status target).headers.immutable = false := rfl
  have hmerge : ∃ merged, (mergeStaged app.runtime (refused status target)
      c.staged.headersRecord : Except (Thrown τ) (Response β)) = .ok merged ∧
      merged.status = status ∧ merged.body = none := mergeStaged_ok hnodup hmutable
  obtain ⟨merged, hmerged, hstatus, hbody⟩ := hmerge
  obtain ⟨-, -, hvalues⟩ := mergeStaged_spec hnodup hmutable hmerged
  have hallow : merged.headers.reading (js "allow") =
      allowReading c.record (allowList target) := by
    have hrecord : c.staged.headersRecord.getD [] = c.record := rfl
    rw [Headers.reading, hvalues, replayed, hrecord, allowReading]
    cases get? c.record (js "allow") with
    | none =>
        show readingOf (js "allow") [allowList target] = [allowList target]
        rw [readingOf_singleton, normalized_allowList]
    | some value => rfl
  have hfinal : ∃ res, (finalize app c).2 = .ok res ∧ res.status = status ∧ res.body = none ∧
      res.headers.reading (js "allow") = merged.headers.reading (js "allow") := by
    rw [finalize, hres]
    dsimp only
    rw [hrefused]
    dsimp only
    rw [hmerged]
    by_cases hhead : c.method = js "HEAD"
    · show ∃ res, (if c.method = js "HEAD" then stripBody app.runtime merged else pure merged) =
        Except.ok res ∧ _
      rw [if_pos hhead, stripBody, construct, if_neg (by omega), if_neg (by simp)]
      exact ⟨_, rfl, hstatus, rfl, Headers.reading_copy merged.headers _⟩
    · refine ⟨merged, if_neg hhead, hstatus, hbody, rfl⟩
  obtain ⟨res, hres, hanswer⟩ := hfinal
  rw [finalizeGuarded]
  generalize finalize app c = final at hres
  obtain ⟨after, result⟩ := final
  change result = .ok res at hres
  rw [hres, ← hallow]
  exact hanswer

omit [DecidableEq η] in
theorem finalizeGuarded_unanswered {app : Application σ β τ} {c : Context σ β} (hres : c.res = none)
    (h : methodNotAllowed app c = (c, .ok none)) :
    finalizeGuarded app c = app.guard (finalizeNotFound app c) := by
  rw [finalizeGuarded, finalize, hres]
  dsimp only
  rw [h]

/-! ### A whole request -/

def fallbackLevel (handlerOf : η → Handler σ β τ) (middleware : MiddlewareStack η)
    (path : JsString) : Level σ β τ :=
  match fallbackMiddlewareForPath middleware path with
  | none => fun c => (c, .returned)
  | some fallback => compose (fallback.handlers.map handlerOf) NOOP_TAIL

omit [DecidableEq η] in
theorem blind_fallbackLevel (handlerOf : η → Handler σ β τ) (middleware : MiddlewareStack η)
    (path : JsString) : Blind (fallbackLevel handlerOf middleware path) := by
  rw [fallbackLevel]
  split
  · exact ⟨fun _ => rfl, fun _ => rfl, fun _ => rfl, fun _ _ _ => rfl⟩
  · exact blind_compose _

omit [DecidableEq η] in
theorem dispatchFallback_settled (app : Application σ β τ) {handlerOf : η → Handler σ β τ}
    {middleware : MiddlewareStack η} {c after : Context σ β} {path : JsString}
    {matched : Option (RouteTarget η)} {result : LevelResult τ}
    (hrun : fallbackLevel handlerOf middleware path (matched.elim c (addAllowed c)) =
      (after, result)) (hresult : result.Settles) :
    dispatchFallback app handlerOf c middleware path matched = finalizeGuarded app after := by
  rw [dispatchFallback]
  rw [fallbackLevel] at hrun
  cases hfallback : fallbackMiddlewareForPath middleware path with
  | none =>
      rw [hfallback] at hrun
      cases hrun
      rfl
  | some fallback =>
      rw [hfallback] at hrun
      exact dispatchChain_settled app hrun hresult

omit [DecidableEq η] in
theorem addAllowed_mem {c : Context σ β} (hc : c.allowedValue = none) {target : RouteTarget η}
    (hne : target.allowed ≠ []) :
    ∃ allowed, (addAllowed c target).allowedValue = some allowed ∧
      ∀ method, method ∈ allowed ↔ method ∈ target.allowed := by
  have hsome : ∀ added set : List JsString, added.foldl (fun allowed method =>
      let set := allowed.getD []
      some (if method ∈ set then set else set ++ [method])) (some set) =
      some (added.foldl (fun allowed method =>
        if method ∈ allowed then allowed else allowed ++ [method]) set) := by
    intro added
    induction added with
    | nil => exact fun _ => rfl
    | cons first rest ih => exact fun set => ih _
  obtain ⟨first, rest, heq⟩ := List.exists_cons_of_ne_nil hne
  refine ⟨rest.foldl (fun allowed method =>
    if method ∈ allowed then allowed else allowed ++ [method]) [first], ?_, fun method => ?_⟩
  · rw [addAllowed, hc, heq, List.foldl_cons]
    exact hsome rest [first]
  · rw [mem_foldl_add, heq, ← List.mem_append]
    rfl

omit [DecidableEq η] in
theorem TargetListed.addAllowed_methodless {target : RouteTarget η} (h : TargetListed target)
    (hempty : target.methods = []) (c : Context σ β) : addAllowed c target = c := by
  have hnone : target.allowed = [] := by
    rw [List.eq_nil_iff_forall_not_mem]
    intro m hm
    obtain ⟨key, hkey, -⟩ := (h.allowed m).mp hm
    rw [hempty] at hkey
    cases hkey
  rw [addAllowed, hnone]
  rfl

omit [DecidableEq η] in
theorem TargetListed.allowed_ne_nil {target : RouteTarget η} (h : TargetListed target)
    (hmethods : target.methods ≠ []) : target.allowed ≠ [] := by
  obtain ⟨entry, hentry⟩ := List.exists_mem_of_ne_nil _ hmethods
  exact List.ne_nil_of_mem ((h.allowed _).mpr ⟨entry.1, mem_keys hentry, List.mem_cons_self⟩)

omit [DecidableEq η] in
theorem dispatchRequest_fallback (app : Application σ β τ) (handlerOf : η → Handler σ β τ)
    (router : RouterState η) (middleware : MiddlewareStack η) {c : Context σ β} (path : JsString)
    {found : RouteMatch}
    (hchain : chainFor (router.targets found.target) (dispatchMethod app c.method) = none) :
    dispatchRequest app handlerOf router middleware c path (some found) =
      dispatchFallback app handlerOf c middleware path (some (router.targets found.target)) := by
  have hbind : ((some found).map fun found => router.targets found.target).bind
      (chainFor · (dispatchMethod app c.method)) = none := hchain
  rw [dispatchRequest, hbind]
  rfl

omit [DecidableEq η] in
/-- A path that nothing matches is left to the not-found branch, where the
middleware leaves it unanswered. -/
theorem dispatchRequest_unmatched (app : Application σ β τ) {handlerOf : η → Handler σ β τ}
    {router : RouterState η} {middleware : MiddlewareStack η} {c after : Context σ β}
    {path : JsString} {result : LevelResult τ}
    (hrun : fallbackLevel handlerOf middleware path c = (after, result))
    (hresult : result.Settles) (hres : after.res = none) (hc : after.allowedValue = none) :
    dispatchRequest app handlerOf router middleware c path none =
      app.guard (finalizeNotFound app after) := by
  have hanswer : dispatchRequest app handlerOf router middleware c path none =
      finalizeGuarded app after :=
    dispatchFallback_settled app (by exact hrun : fallbackLevel handlerOf middleware path
      ((none : Option (RouteTarget η)).elim c (addAllowed c)) = (after, result)) hresult
  rw [hanswer]
  apply finalizeGuarded_unanswered hres
  rw [methodNotAllowed, hc]

/-- In every application that setup calls make, a request for a matched path
without a chain for its method is refused, where the middleware leaves it
unanswered: as unknown, as an OPTIONS request or as not allowed, and the answer
allows exactly the methods that have a chain. What is not refused is left to the
not-found branch, where an unmatched path goes. -/
theorem method_answers (host : Host) (noOpMeta : NoOpMeta η) (devTrace : Bool)
    (calls : List (SetupCall η)) (server : Application σ β τ)
    (hget : server.host.toUpperCase (js "GET") = js "GET") (handlerOf : η → Handler σ β τ)
    {c after : Context σ β} (path : JsString) (found : RouteMatch) {result : LevelResult τ}
    (hc : c.allowedValue = none) :
    let app := setup host noOpMeta calls (createApp devTrace)
    let target := app.router.targets found.target
    let method := server.host.toUpperCase c.method
    let answer := dispatchRequest server handlerOf app.router app.middleware c path
    chainFor target method = none →
      fallbackLevel handlerOf app.middleware path (addAllowed c target) = (after, result) →
      result.Settles → after.res = none → (keys after.record).Nodup →
        answer none = server.guard (finalizeNotFound server (after.asked c.method none)) ∧
        (target.methods = [] → answer (some found) = answer none) ∧
          (target.methods ≠ [] → match refusal server.unknownMethodAs404 method with
            | none => answer (some found) = server.guard (finalizeNotFound server after)
            | some status => (answer (some found)).status = status ∧
                (answer (some found)).body = none ∧
                (answer (some found)).headers.reading (js "allow") =
                  allowReading after.record (allowList target)) := by
  intro app target method answer hunrouted hrun hresult hres hnodup
  have hlisted : TargetListed target := (setup_listed noOpMeta devTrace calls).targets _
  have hmethod : dispatchMethod server c.method = method := by
    rw [dispatchMethod]
    split
    · next heq =>
        show js "GET" = server.host.toUpperCase c.method
        rw [heq, hget]
    · rfl
  have hfallback := dispatchRequest_fallback server handlerOf app.router app.middleware path
    (hmethod.symm ▸ hunrouted)
  have hblind := blind_fallbackLevel handlerOf app.middleware path
  refine ⟨?_, fun hempty => ?_, fun hmethods => ?_⟩
  · have hplain : c = (addAllowed c target).asked c.method none := by
      rw [← hc]
      rfl
    have hrun' : fallbackLevel handlerOf app.middleware path c =
        (after.asked c.method none, result) := by
      rw [hplain, hblind.asked, hrun]
      rfl
    exact dispatchRequest_unmatched server hrun' hresult hres rfl
  · refine hfallback.trans ?_
    show dispatchFallback server handlerOf c app.middleware path (some target) =
      dispatchFallback server handlerOf c app.middleware path none
    rw [dispatchFallback, dispatchFallback, Option.elim_some,
      hlisted.addAllowed_methodless hempty, Option.elim_none]
  · obtain ⟨allowed, hallowed, hmem⟩ := addAllowed_mem hc (hlisted.allowed_ne_nil hmethods)
    have hkept := hblind.allowed (addAllowed c target)
    have hsame := hblind.method (addAllowed c target)
    rw [hrun] at hkept hsame
    have hafter : server.host.toUpperCase after.method = method :=
      congrArg server.host.toUpperCase hsame
    have hrefused := hlisted.methodNotAllowed_eq server (hafter.symm ▸ hunrouted) hmem
      (hkept.trans hallowed) hmethods
    rw [hafter] at hrefused
    have hanswer : answer (some found) = finalizeGuarded server after :=
      hfallback.trans (dispatchFallback_settled server hrun hresult)
    rw [hanswer]
    cases hstatus : refusal server.unknownMethodAs404 method with
    | none =>
        rw [hstatus] at hrefused
        exact finalizeGuarded_unanswered hres hrefused
    | some status =>
        rw [hstatus] at hrefused
        have hrange := refusal_range hstatus
        exact finalizeGuarded_refused hres hnodup hrange.1 hrange.2 hrefused

def getApp : App ℕ :=
  setup plainApp.host (fun _ => none)
    [.use none (.handler 7 .nil), .on (getRoute (js "/a") 1)] (createApp false)

/-- DELETE on the path, where the middleware goes on. -/
theorem method_answers_delete :
    let answer := dispatchRequest plainApp (fun _ => passOn) getApp.router getApp.middleware
      (getContext.withMethod (js "DELETE")) (js "/a") (some (staticMatch 0))
    answer.status = 405 ∧ answer.body = none ∧
      answer.headers.reading (js "allow") = [js "HEAD, GET"] := by
  have hunrouted : chainFor (getApp.router.targets 0) (js "DELETE") = none := by decide +kernel
  have hmethods : (getApp.router.targets 0).methods ≠ [] := by decide +kernel
  have hallow : allowList (getApp.router.targets 0) = js "HEAD, GET" := by decide +kernel
  have hanswer := (method_answers plainApp.host (fun _ => none) false
    [.use none (.handler 7 .nil), .on (getRoute (js "/a") 1)] plainApp rfl (fun _ => passOn)
    (c := getContext.withMethod (js "DELETE")) (js "/a") (staticMatch 0) rfl hunrouted
    rfl rfl rfl List.nodup_nil).2.2 hmethods
  exact ⟨hanswer.1, hanswer.2.1, hanswer.2.2.trans (congrArg (fun list => [list]) hallow)⟩

end Keala.Core
