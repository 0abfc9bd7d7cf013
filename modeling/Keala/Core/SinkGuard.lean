import Keala.Lib.Lts
import Keala.Core.Mount
import Keala.Router.Overlap

/-!
No route is shadowed by a sunk path: whatever setup calls an application goes
through, a sunk path and a route that does not mirror it never answer one
request.
-/

namespace Keala.Core

open Keala.Js Keala.Router

variable {η : Type}

def Apart (host : Host) (a b : JsString) : Prop :=
  ∀ path, ¬(Answers host a path ∧ Answers host b path)

theorem Apart.symm {host : Host} {a b : JsString} (h : Apart host a b) : Apart host b a :=
  fun path hboth => h path hboth.symm

theorem apart_of_overlap_eq_false {host : Host} {a b : JsString}
    (h : patternsOverlap host a b = false) : Apart host a b := by
  rintro path ⟨ha, hb⟩
  rw [patternsOverlap_of_answers ha hb] at h
  exact Bool.noConfusion h

/-! ### What registering does to the definitions -/

/-- The definitions only grow, by ones that are apart from every sunk path. -/
structure Grows (host : Host) (before after : RouterState η) (added : List (RouteDef η)) :
    Prop where
  defs : after.defs = before.defs ++ added
  apart : ∀ d ∈ added, ∀ sunk ∈ before.sunkPaths, Apart host d.path sunk
  sunkPaths : after.sunkPaths = before.sunkPaths
  routerPrefix : after.routerPrefix = before.routerPrefix

theorem Grows.trans {host : Host} {a b c : RouterState η} {first second : List (RouteDef η)}
    (hab : Grows host a b first) (hbc : Grows host b c second) :
    Grows host a c (first ++ second) where
  defs := by rw [hbc.defs, hab.defs, List.append_assoc]
  apart := by
    intro d hd sunk hsunk
    rcases List.mem_append.mp hd with hd | hd
    · exact hab.apart d hd sunk hsunk
    · exact hbc.apart d hd sunk (hab.sunkPaths ▸ hsunk)
  sunkPaths := hbc.sunkPaths.trans hab.sunkPaths
  routerPrefix := hbc.routerPrefix.trans hab.routerPrefix

theorem grows_of_framed {host : Host} {a b : RouterState η} (h : Framed a b) :
    Grows host a b [] where
  defs := by rw [h.defs, List.append_nil]
  apart := by simp
  sunkPaths := h.sunkPaths
  routerPrefix := h.routerPrefix

theorem Grows.refl (host : Host) (router : RouterState η) : Grows host router router [] :=
  grows_of_framed ⟨rfl, rfl, rfl, rfl, rfl, rfl⟩

theorem checkedDef_ok {host : Host} {state : RouterState η} {r : Registration η} {d : RouteDef η}
    (h : checkedDef host state r = .ok d) (hbare : state.routerPrefix = []) :
    d.path = definitionPath r.path ∧ ∀ sunk ∈ state.sunkPaths, Apart host d.path sunk := by
  rw [checkedDef, hbare] at h
  dsimp only at h
  split at h
  · cases h
  · split at h
    · cases h
    · split at h
      · cases h
      · next hnone =>
          cases h
          refine ⟨rfl, fun sunk hsunk => ?_⟩
          have hclear := List.find?_eq_none.mp hnone sunk hsunk
          rw [Bool.or_eq_true, not_or, Bool.not_eq_true] at hclear
          exact apart_of_overlap_eq_false (Bool.not_eq_true _ ▸ hclear.2)

/-! ### Mirrors -/

theorem overlap_eq_false_of_conflictsWithAny {host : Host} {path : JsString}
    {defs : List (RouteDef η)} (h : conflictsWithAny host path defs = none) {d : RouteDef η}
    (hd : d ∈ defs) : patternsOverlap host path d.path = false := by
  have hclear := List.find?_eq_none.mp h d hd
  rw [Bool.or_eq_true, not_or, Bool.not_eq_true, Bool.not_eq_true] at hclear
  exact hclear.2

theorem wildcard_not_mem_front {front : List CompiledSegment}
    (h : WildcardLast (front ++ [.wildcard])) : CompiledSegment.wildcard ∉ front := by
  induction front with
  | nil => exact List.not_mem_nil
  | cons segment front ih =>
      rw [List.mem_cons, not_or]
      cases segment with
      | static value => exact ⟨nofun, ih h⟩
      | param name pattern optional => exact ⟨nofun, ih h⟩
      | wildcard => simp [WildcardLast] at h

/-- The mirrors of a sink are apart from what its own path is apart from. -/
theorem mirror_apart {host : Host} {path other : JsString} {value : SinkValue η}
    {hasErrorMapper : Bool} (hvalue : checkSinkValue host path hasErrorMapper value = .ok ())
    (hover : patternsOverlap host path other = false) {r : Registration η}
    (hr : r ∈ mirrorsOf path value) : Apart host other (definitionPath r.path) := by
  rintro request ⟨hother, hmirror⟩
  obtain ⟨irO, irM, segments, hirO, hirM, hreachO, hreachM⟩ := hother.reaches hmirror
  rw [patternsOverlap, hirO] at hover
  cases hirP : compilePattern host path with
  | error e =>
      rw [hirP] at hover
      cases hover
  | ok irP =>
      rw [hirP] at hover
      have hreachP : Reaches irP.segments segments := by
        have hsame : r.path = path → Reaches irP.segments segments := by
          intro hpath
          rw [hpath] at hirM
          rwa [← compilePattern_definitionPath hirP hirM]
        cases value with
        | response bodyUsed mirror =>
            rw [List.mem_singleton.mp hr] at hsame
            exact hsame rfl
        | handler mirror =>
            rw [List.mem_singleton.mp hr] at hsame
            exact hsame rfl
        | other => cases hr
        | dir dir mirror =>
            simp only [mirrorsOf, List.mem_cons, List.not_mem_nil, or_false] at hr
            rcases hr with rfl | rfl
            · exact hsame rfl
            · have hshape : endsWith path (js "/*") = true := by
                rw [checkSinkValue] at hvalue
                split at hvalue
                · cases hvalue
                · split at hvalue
                  · cases hvalue
                  · next hend => simpa using hend
              obtain ⟨bare, rfl⟩ := List.isSuffixOf_iff_suffix.mp hshape
              have htake : (bare ++ js "/*").take ((bare ++ js "/*").length - 2) = bare := by
                have hlen : (js "/*").length = 2 := rfl
                rw [List.length_append, hlen, Nat.add_sub_cancel, List.take_left]
              change compilePattern host (definitionPath (if List.take _ _ = [] then js "/"
                else List.take _ _)) = _ at hirM
              rw [htake] at hirM
              have hwild := compilePattern_bare hirP hirM
              rw [hwild]
              apply hreachM.concat_wildcard
              apply wildcard_not_mem_front
              rw [← hwild]
              exact compilePattern_wildcardLast hirP
      have htrue := overlapSegments_of_reaches _ _ hreachP hreachO
      exact Bool.noConfusion (htrue.symm.trans hover)

/-! ### The invariant -/

/-- Every sunk path belongs to a sink, and the definitions that are no mirrors
of that sink are apart from it. -/
structure Unshadowed (host : Host) (st : SinkApp η) : Prop where
  routerPrefix : st.app.router.routerPrefix = []
  known : ∀ s ∈ st.app.router.sunkPaths, ∃ k ∈ st.sunk, s ∈ k.paths
  sunken : ∀ k ∈ st.sunk, ∀ s ∈ k.paths, s ∈ st.app.router.sunkPaths
  apart : ∀ k ∈ st.sunk, ∀ s ∈ k.paths, ∀ i d, st.app.router.defs[i]? = some d →
    i ∉ k.mirrors → Apart host s d.path
  placed : ∀ k ∈ st.sunk, ∀ i ∈ k.mirrors, ∃ d, st.app.router.defs[i]? = some d ∧ d.path ∈ k.paths

/-- A call that only adds apart definitions keeps the invariant. -/
theorem Unshadowed.grows {host : Host} {st st' : SinkApp η} (h : Unshadowed host st)
    {added : List (RouteDef η)} (hgrows : Grows host st.app.router st'.app.router added)
    (hsunk : st'.sunk = st.sunk) : Unshadowed host st' where
  routerPrefix := hgrows.routerPrefix.trans h.routerPrefix
  known := by
    rw [hgrows.sunkPaths, hsunk]
    exact h.known
  sunken := by
    rw [hgrows.sunkPaths, hsunk]
    exact h.sunken
  apart := by
    rw [hsunk, hgrows.defs]
    intro k hk s hs i d hi hmirror
    rw [List.getElem?_append] at hi
    split at hi
    · exact h.apart k hk s hs i d hi hmirror
    · exact (hgrows.apart d (List.mem_of_getElem? hi) s (h.sunken k hk s hs)).symm
  placed := by
    rw [hsunk, hgrows.defs]
    intro k hk i hi
    obtain ⟨d, hd, hpath⟩ := h.placed k hk i hi
    exact ⟨d, by rw [List.getElem?_append_left (List.getElem?_eq_some_iff.mp hd).1, hd], hpath⟩

theorem mem_foldl_insert (paths sunk : List JsString) (s : JsString) :
    s ∈ paths.foldl (fun sunk path => sunk.insert path) sunk ↔ s ∈ paths ∨ s ∈ sunk := by
  induction paths generalizing sunk with
  | nil => simp
  | cons path paths ih =>
      rw [List.foldl_cons, ih, List.mem_insert_iff, List.mem_cons]
      tauto

/-- Claiming a sink whose mirrors have just been registered. -/
theorem Unshadowed.claim {host : Host} {st : SinkApp η} (h : Unshadowed host st)
    {router : RouterState η} {added : List (RouteDef η)}
    (hgrows : Grows host st.app.router router added)
    (hown : ∀ d ∈ st.app.router.defs, ∀ m ∈ added, Apart host d.path m.path)
    (path : JsString) (methods : Option (List JsString)) :
    Unshadowed host (claimSink path methods st.app.router.defs.length router st) := by
  have hadded : router.defs.drop st.app.router.defs.length = added := by
    rw [hgrows.defs, List.drop_left]
  have hmid : Unshadowed host ({ st with app := { st.app with router } } : SinkApp η) :=
    h.grows hgrows rfl
  have hsunk : ∀ k, k ∈ (claimSink path methods st.app.router.defs.length router st).sunk ↔
      k ∈ st.sunk ∨ k = ⟨added.map RouteDef.path,
        (List.range router.defs.length).drop st.app.router.defs.length⟩ := by
    intro k
    rw [← hadded]
    show k ∈ st.sunk ++ [_] ↔ _
    rw [List.mem_append, List.mem_singleton]
  have hpaths : ∀ s, s ∈ (claimSink path methods st.app.router.defs.length router
      st).app.router.sunkPaths ↔ s ∈ added.map RouteDef.path ∨ s ∈ router.sunkPaths := by
    intro s
    rw [← hadded]
    exact mem_foldl_insert _ _ s
  have hmirrors : ∀ i, i ∈ (List.range router.defs.length).drop st.app.router.defs.length ↔
      st.app.router.defs.length ≤ i ∧ i < router.defs.length := by
    intro i
    rw [List.range_eq_range', List.drop_range', List.mem_range'_1]
    omega
  refine ⟨hmid.routerPrefix, ?_, ?_, ?_, ?_⟩
  · intro s hs
    rcases (hpaths s).mp hs with hs | hs
    · exact ⟨_, (hsunk _).mpr (.inr rfl), hs⟩
    · obtain ⟨k, hk, hmem⟩ := hmid.known s hs
      exact ⟨k, (hsunk k).mpr (.inl hk), hmem⟩
  · intro k hk s hs
    rcases (hsunk k).mp hk with hk | rfl
    · exact (hpaths s).mpr (.inr (hmid.sunken k hk s hs))
    · exact (hpaths s).mpr (.inl hs)
  · intro k hk s hs i d hi hmirror
    rcases (hsunk k).mp hk with hk | rfl
    · exact hmid.apart k hk s hs i d hi hmirror
    · obtain ⟨m, hm, rfl⟩ := List.mem_map.mp hs
      have hlt : i < router.defs.length := (List.getElem?_eq_some_iff.mp hi).1
      have hold : i < st.app.router.defs.length := by
        by_contra hnot
        exact hmirror ((hmirrors i).mpr ⟨by omega, hlt⟩)
      change router.defs[i]? = some d at hi
      rw [hgrows.defs, List.getElem?_append_left hold] at hi
      exact (hown d (List.mem_of_getElem? hi) m hm).symm
  · intro k hk i hi
    rcases (hsunk k).mp hk with hk | rfl
    · exact hmid.placed k hk i hi
    · obtain ⟨hle, hlt⟩ := (hmirrors i).mp hi
      refine ⟨_, List.getElem?_eq_getElem hlt, ?_⟩
      apply List.mem_map_of_mem
      rw [← hadded, List.mem_iff_getElem?]
      exact ⟨i - st.app.router.defs.length, by
        rw [List.getElem?_drop, Nat.add_sub_cancel' hle, List.getElem?_eq_getElem hlt]⟩

theorem checkSink_ok {host : Host} {noOpMeta : NoOpMeta η} {app : App η} {path : JsString}
    {value : SinkValue η} {hasErrorMapper : Bool}
    (h : checkSink host noOpMeta app path value hasErrorMapper = .ok ()) :
    checkSinkValue host path hasErrorMapper value = .ok () ∧
      conflictsWithAny host path app.router.defs = none := by
  rw [checkSink] at h
  split at h
  · cases h
  · split at h
    · cases h
    · split at h
      · cases h
      · cases h
      · split at h
        · cases h
        · cases hvalue : checkSinkValue host path hasErrorMapper value with
          | error e =>
              rw [hvalue] at h
              cases h
          | ok _ =>
              rw [hvalue] at h
              cases hconflict : conflictsWithAny host path app.router.defs with
              | none => exact ⟨rfl, rfl⟩
              | some d =>
                  rw [hconflict] at h
                  cases h

/-- Claiming the key of a socket route leaves the router alone. -/
theorem Unshadowed.claimKey {host : Host} {key : JsString}
    {outcome : SinkApp η × Except MountError Unit} (h : Unshadowed host outcome.1) :
    Unshadowed host (claimKey key outcome).1 := by
  obtain ⟨st, result⟩ := outcome
  cases result with
  | error e => exact h
  | ok _ => exact h.grows (.refl host _) rfl

theorem createSinkApp_unshadowed (host : Host) (devTrace : Bool) :
    Unshadowed host (createSinkApp devTrace : SinkApp η) :=
  ⟨rfl, by simp [createSinkApp, createApp, createRouterState], by simp [createSinkApp],
    by simp [createSinkApp], by simp [createSinkApp]⟩

/-! ### The setup calls -/

variable [DecidableEq η]

/-- A registration adds the one definition it checked, or nothing. -/
theorem registerDef_grows (host : Host) (state : RouterState η) (r : Registration η)
    (middleware : MiddlewareStack η) (hbare : state.routerPrefix = []) :
    ∃ added, Grows host state (registerDef host state r middleware).1 added ∧
      (∀ d ∈ added, d.path = definitionPath r.path) ∧
      (∀ d, (registerDef host state r middleware).2 = .ok d → added = [d]) := by
  rw [registerDef]
  cases hcheck : checkedDef host state r with
  | error e => exact ⟨[], .refl host state, by simp, by simp⟩
  | ok d =>
      obtain ⟨hpath, hapart⟩ := checkedDef_ok hcheck hbare
      have hframe := bindDef_framed host (pushDef state d) d middleware
      dsimp only
      generalize bindDef host (pushDef state d) d middleware = bound at hframe
      obtain ⟨next, result⟩ := bound
      cases result with
      | ok _ =>
          refine ⟨[d], ⟨hframe.defs, ?_, hframe.sunkPaths, hframe.routerPrefix⟩, ?_, ?_⟩
          · intro d' hd' sunk hsunk
            rw [List.mem_singleton.mp hd']
            exact hapart sunk hsunk
          · intro d' hd'
            rw [List.mem_singleton.mp hd']
            exact hpath
          · intro d' hd'
            rw [Except.ok.inj hd']
      | error e =>
          obtain ⟨hdefs, -⟩ := popDef_pushDef hframe
          have hrebuilt := rebuildChains_framed host
            (popDef next d.name (d.name.bind (OrderedMap.get? state.named))) middleware
          dsimp only
          generalize rebuildChains host
            (popDef next d.name (d.name.bind (OrderedMap.get? state.named))) middleware =
              rebuilt at hrebuilt
          obtain ⟨last, result⟩ := rebuilt
          have hgrows : Grows host state last [] := by
            refine ⟨?_, by simp, hrebuilt.sunkPaths.trans hframe.sunkPaths,
              hrebuilt.routerPrefix.trans hframe.routerPrefix⟩
            rw [hrebuilt.defs, hdefs, List.append_nil]
          cases result with
          | error e => exact ⟨[], hgrows, by simp, by simp⟩
          | ok _ => exact ⟨[], hgrows, by simp, by simp⟩

theorem registerDefs_grows (host : Host) (middleware : MiddlewareStack η)
    (rs : List (Registration η)) (state : RouterState η) (hbare : state.routerPrefix = []) :
    ∃ added, Grows host state (registerDefs host middleware rs state).1 added ∧
      ∀ d ∈ added, ∃ r ∈ rs, d.path = definitionPath r.path := by
  induction rs generalizing state with
  | nil => exact ⟨[], .refl host state, by simp⟩
  | cons r rs ih =>
      obtain ⟨added, hgrows, hpaths, -⟩ := registerDef_grows host state r middleware hbare
      rw [registerDefs]
      generalize registerDef host state r middleware = registered at hgrows
      obtain ⟨next, result⟩ := registered
      have hfirst : ∀ d ∈ added, ∃ r' ∈ r :: rs, d.path = definitionPath r'.path :=
        fun d hd => ⟨r, List.mem_cons_self, hpaths d hd⟩
      cases result with
      | error e => exact ⟨added, hgrows, hfirst⟩
      | ok _ =>
          obtain ⟨more, hmore, hpaths'⟩ := ih next (hgrows.routerPrefix.trans hbare)
          refine ⟨added ++ more, hgrows.trans hmore, ?_⟩
          intro d hd
          rcases List.mem_append.mp hd with hd | hd
          · exact hfirst d hd
          · obtain ⟨r', hr', heq⟩ := hpaths' d hd
            exact ⟨r', List.mem_cons_of_mem _ hr', heq⟩

theorem Unshadowed.registerSink {host : Host} {noOpMeta : NoOpMeta η} {st : SinkApp η}
    (h : Unshadowed host st) (path : JsString) (value : SinkValue η) (hasErrorMapper : Bool) :
    Unshadowed host (registerSink host noOpMeta st path value hasErrorMapper).1 := by
  rw [Core.registerSink]
  cases hcheck : checkSink host noOpMeta st.app path value hasErrorMapper with
  | error e => exact h
  | ok _ =>
      obtain ⟨hvalue, hconflict⟩ := checkSink_ok hcheck
      obtain ⟨added, hgrows, hpaths⟩ := registerDefs_grows host st.app.middleware
        (mirrorsOf path value) st.app.router h.routerPrefix
      dsimp only
      generalize registerDefs host st.app.middleware (mirrorsOf path value) st.app.router =
        registered at hgrows
      obtain ⟨router, result⟩ := registered
      cases result with
      | error e => exact h.grows hgrows rfl
      | ok _ =>
          refine h.claim hgrows ?_ path (sinkMethods value)
          intro d hd m hm
          obtain ⟨r, hr, hpath⟩ := hpaths m hm
          rw [hpath]
          exact mirror_apart hvalue (overlap_eq_false_of_conflictsWithAny hconflict hd) hr

theorem Unshadowed.addDef {host : Host} {st : SinkApp η} (h : Unshadowed host st)
    (r : Registration η) : Unshadowed host (addDef host r st).1 := by
  obtain ⟨added, hgrows, -⟩ := registerDef_grows host st.app.router r st.app.middleware
    h.routerPrefix
  rw [Core.addDef]
  generalize registerDef host st.app.router r st.app.middleware = registered at hgrows
  obtain ⟨router, result⟩ := registered
  cases result with
  | error e => exact h.grows hgrows rfl
  | ok _ => exact h.grows hgrows rfl

theorem Unshadowed.registerRedirect {host : Host} {st : SinkApp η} (h : Unshadowed host st)
    (source : JsString) (refused : Bool) (code : Option ℤ) (handler : η) :
    Unshadowed host (registerRedirect host st source refused code handler).1 := by
  rw [Core.registerRedirect.eq_def]
  split
  · exact h
  · split
    · exact h
    · split
      · exact h
      · exact h.addDef _

theorem Unshadowed.registerWsRoute {host : Host} {st : SinkApp η} (h : Unshadowed host st)
    (poolingEnabled : Bool) (path : JsString) (handlers : SocketHandlers η) :
    Unshadowed host (registerWsRoute host st poolingEnabled path handlers).1 := by
  rw [Core.registerWsRoute]
  split
  · exact h
  · dsimp only
    split
    · exact h
    · exact (h.addDef _).claimKey

theorem Unshadowed.mountDef {host : Host} {st : SinkApp η} (h : Unshadowed host st)
    (poolingEnabled : Bool) (base : JsString) (mountOffset : ℕ) (sub : Mountable η)
    (d : SubDef η) :
    Unshadowed host (mountDef host poolingEnabled base mountOffset sub d st).1 := by
  rw [Core.mountDef]
  dsimp only
  split
  · exact h
  · split
    · split
      · exact h
      · rw [mergeMountedWs]
        split
        · exact h
        · dsimp only
          split
          · exact h
          · exact (h.addDef _).claimKey
    · exact h.addDef _

theorem Unshadowed.mountDefs {host : Host} (poolingEnabled : Bool) (base : JsString)
    (mountOffset : ℕ) (sub : Mountable η) (defs : List (SubDef η)) {st : SinkApp η}
    (h : Unshadowed host st) :
    Unshadowed host (mountDefs host poolingEnabled base mountOffset sub defs st).1 := by
  induction defs generalizing st with
  | nil => exact h
  | cons d defs ih =>
      have hnext := h.mountDef poolingEnabled base mountOffset sub d
      rw [Core.mountDefs]
      generalize Core.mountDef host poolingEnabled base mountOffset sub d st = mounted at hnext
      obtain ⟨next, result⟩ := mounted
      cases result with
      | error e => exact hnext
      | ok _ => exact ih hnext

theorem rebuildApp_grows (host : Host) (app : App η) :
    Grows host app.router (rebuildApp host app).1.router [] :=
  grows_of_framed (rebuildChains_framed host app.router app.middleware)

theorem Unshadowed.mountParams {host : Host} {st : SinkApp η} (h : Unshadowed host st)
    (sub : Mountable η) : Unshadowed host (mountParams host sub st).1 := by
  rw [Core.mountParams]
  dsimp only
  split
  · exact h
  · have hgrows := rebuildApp_grows host { st.app with router := { st.app.router with
      paramMiddlewares := mergeParams st.app.router.paramMiddlewares sub.paramMiddlewares } }
    generalize rebuildApp host { st.app with router := { st.app.router with
      paramMiddlewares := mergeParams st.app.router.paramMiddlewares sub.paramMiddlewares } } =
        rebuilt at hgrows
    obtain ⟨app, result⟩ := rebuilt
    have hstart : Grows host st.app.router app.router [] :=
      ⟨hgrows.defs, by simp, hgrows.sunkPaths, hgrows.routerPrefix⟩
    cases result with
    | error e => exact h.grows hstart rfl
    | ok _ => exact h.grows hstart rfl

theorem Unshadowed.mountInto {host : Host} {st : SinkApp η} (h : Unshadowed host st)
    (poolingEnabled : Bool) (mountPath : JsString) (sub : Mountable η) :
    Unshadowed host (mountInto host st poolingEnabled mountPath sub).1 := by
  rw [Core.mountInto.eq_def]
  split
  · exact h
  · dsimp only
    split
    · exact h
    · split
      · exact h
      · have hparams := h.mountParams sub
        generalize Core.mountParams host sub st = merged at hparams
        obtain ⟨next, result⟩ := merged
        cases result with
        | error e => exact hparams
        | ok _ => exact Unshadowed.mountDefs _ _ _ _ _ hparams

/-! ### Runs of setup calls -/

inductive RouteCall (η : Type)
  | route (r : Registration η)
  | sink (path : JsString) (value : SinkValue η) (hasErrorMapper : Bool)
  | redirect (source : JsString) (refused : Bool) (code : Option ℤ) (handler : η)
  | ws (poolingEnabled : Bool) (path : JsString) (handlers : SocketHandlers η)
  | mount (poolingEnabled : Bool) (mountPath : JsString) (sub : Mountable η)

/-- The application that a call leaves behind, whether it throws or not. -/
def RouteCall.run (host : Host) (noOpMeta : NoOpMeta η) (st : SinkApp η) :
    RouteCall η → SinkApp η
  | route r => (addDef host r st).1
  | sink path value hasErrorMapper => (registerSink host noOpMeta st path value hasErrorMapper).1
  | redirect source refused code handler =>
      (registerRedirect host st source refused code handler).1
  | ws poolingEnabled path handlers => (registerWsRoute host st poolingEnabled path handlers).1
  | mount poolingEnabled mountPath sub => (mountInto host st poolingEnabled mountPath sub).1

def routeSetup (host : Host) (noOpMeta : NoOpMeta η) (devTrace : Bool) :
    Lts (SinkApp η) (RouteCall η) where
  start := createSinkApp devTrace
  step st call := some (call.run host noOpMeta st)

theorem Unshadowed.run {host : Host} {noOpMeta : NoOpMeta η} {st : SinkApp η}
    (h : Unshadowed host st) (call : RouteCall η) :
    Unshadowed host (call.run host noOpMeta st) := by
  cases call with
  | route r => exact h.addDef r
  | sink path value hasErrorMapper => exact h.registerSink path value hasErrorMapper
  | redirect source refused code handler => exact h.registerRedirect source refused code handler
  | ws poolingEnabled path handlers => exact h.registerWsRoute poolingEnabled path handlers
  | mount poolingEnabled mountPath sub => exact h.mountInto poolingEnabled mountPath sub

/-- No route is shadowed by a sunk path. Every sunk path belongs to a sink, and
no request is answered both by it and by a definition that is no mirror of that
sink. Patterns that match one path always pass for overlapping. -/
theorem sunk_paths_unshadowed (host : Host) (noOpMeta : NoOpMeta η) (devTrace : Bool)
    {st : SinkApp η} (h : (routeSetup host noOpMeta devTrace).Reachable st) :
    (∀ s ∈ st.app.router.sunkPaths, ∃ k ∈ st.sunk, s ∈ k.paths) ∧
      (∀ k ∈ st.sunk, ∀ i ∈ k.mirrors, ∃ d, st.app.router.defs[i]? = some d ∧ d.path ∈ k.paths) ∧
      (∀ k ∈ st.sunk, ∀ s ∈ k.paths, ∀ i d, st.app.router.defs[i]? = some d → i ∉ k.mirrors →
        ∀ path, ¬(Answers host s path ∧ Answers host d.path path)) ∧
      ∀ a b path irA irB foundA foundB,
        compilePattern host a = .ok irA → compilePattern host b = .ok irB →
        Matches host (trailingSlash path) irA.segments (decodedSegments path) foundA →
        Matches host (trailingSlash path) irB.segments (decodedSegments path) foundB →
        patternsOverlap host a b = true := by
  have hinv : Unshadowed host st :=
    h.invariant (createSinkApp_unshadowed host devTrace) fun s call t hs hstep => by
      cases hstep
      exact hs.run call
  refine ⟨hinv.known, hinv.placed, fun k hk s hs i d hi hmirror path => ?_, ?_⟩
  · exact hinv.apart k hk s hs i d hi hmirror path
  · intro a b path irA irB foundA foundB hirA hirB ha hb
    exact patternsOverlap_of_answers ⟨irA, hirA, .inl ⟨foundA, ha⟩⟩ ⟨irB, hirB, .inl ⟨foundB, hb⟩⟩

def plainHost : Host := ⟨fun _ => none, fun _ _ => false, id⟩

/-- A tree and a redirect beside it; a redirect under the tree is refused. -/
def treeCalls : List (RouteCall ℕ) :=
  [.sink (js "/assets/*") (.dir (js "public") 0) false,
    .redirect (js "/old") false (some 301) 1, .redirect (js "/assets/old") false (some 301) 2]

theorem sunk_paths_unshadowed_tree :
    ∃ st, (routeSetup plainHost (fun _ => none) false).runFrom (createSinkApp false) treeCalls =
        some st ∧
      st.app.router.defs.map RouteDef.path = [js "/assets/*", js "/assets", js "/old"] ∧
      st.app.router.sunkPaths = [js "/assets", js "/assets/*"] ∧
      ∀ s ∈ st.app.router.sunkPaths, ∃ k ∈ st.sunk, s ∈ k.paths :=
  ⟨_, rfl, by decide +kernel, by decide +kernel,
    (sunk_paths_unshadowed plainHost (fun _ => none) false
      (Lts.reachable_of_run treeCalls rfl)).1⟩

end Keala.Core
