import Keala.Router.BucketRegex

/-!
The route index and the request-side matcher (`src/router/match.ts` and the
indexing half of `src/router/router.ts`): static table, slice fast matchers,
table regex, trie. Middleware chains play no part in it.
-/

namespace Keala.Router

open Keala.Js

/-- A fast matcher for a bucket with exactly one simple-shape pattern. -/
structure FastMatcher where
  /-- The pattern's full static head, skipped before captures (`prefix`). -/
  head : JsString
  names : List JsString
  target : TargetRef

structure Bucket where
  fast : Option FastMatcher
  /-- Dynamic patterns in this bucket. -/
  count : ℕ

structure FastIndex where
  mutations : ℕ
  matchers : List FastMatcher
  table : Option TableRegex

/-- The routing fields of `RouterState`. `created` counts the targets made
since the last reset, so it is the next reference. -/
structure RouteIndex where
  staticMap : List (JsString × TargetRef)
  buckets : List (JsString × Bucket)
  fastIndex : Option FastIndex
  trieRoot : TrieNode
  hasDynamic : Bool
  regexIndex : List (JsString × EligiblePattern)
  impureFirst : List JsString
  mutations : ℕ
  created : TargetRef

def createRouteIndex : RouteIndex where
  staticMap := []
  buckets := []
  fastIndex := none
  trieRoot := createNode
  hasDynamic := false
  regexIndex := []
  impureFirst := []
  mutations := 0
  created := 0

def reescape (value : JsString) : JsString :=
  value.flatMap fun c =>
    if c = percent then js "%25" else if c = slash then js "%2F" else [c]

/-- Canonical static-route key: every raw segment decoded, then re-escaped. -/
def canonicalKey (path : JsString) : JsString :=
  join slash ((split slash path).map fun segment => reescape (decodeSegment segment))

def staticKey (path : JsString) : JsString :=
  if percent ∈ path then canonicalKey path else path

/-! ### Indexing -/

def staticHeadOf : List CompiledSegment → JsString
  | .static value :: rest => slash :: value ++ staticHeadOf rest
  | _ => []

def addToBucket (buckets : List (JsString × Bucket)) (ir : PatternIR) (target : TargetRef) :
    List (JsString × Bucket) :=
  match ir.segments with
  | .static first :: _ =>
      let bucket := (OrderedMap.get? buckets first).getD ⟨none, 0⟩
      let count := bucket.count + 1
      let fast := if count = 1 ∧ ir.isSimple ∧ fastComparable ir.segments then
          some { head := staticHeadOf ir.segments, names := paramNamesOf ir.segments, target }
        else none
      OrderedMap.set buckets first { fast, count }
  | _ => buckets

/-- Index one compiled pattern; returns its terminal targets, each once. -/
def indexPattern (index : RouteIndex) (ir : PatternIR) (fullPath : JsString) :
    RouteIndex × Except RouteError (List TargetRef) :=
  if ir.isStatic then
    let key := staticKey fullPath
    match OrderedMap.get? index.staticMap key with
    | some target => (index, .ok [target])
    | none =>
        ({ index with
            staticMap := OrderedMap.set index.staticMap key index.created
            created := index.created + 1 }, .ok [index.created])
  else
    match insertPattern index.trieRoot ir.segments with
    | (trieRoot, .error e) => ({ index with trieRoot }, .error e)
    | (trieRoot, .ok terminals) =>
        let (trieRoot, assigned, created) := assignTargets terminals trieRoot index.created
        let targets := assigned.eraseDups
        ({ index with
            trieRoot
            created
            hasDynamic := true
            buckets := addToBucket index.buckets ir (targets.head?.getD 0) }, .ok targets)

def noteEligible (index : RouteIndex) (ir : PatternIR) (path : JsString) (target : TargetRef) :
    RouteIndex :=
  if isRegexEligible ir.segments && fastComparable ir.segments then
    { index with
      regexIndex := OrderedMap.set index.regexIndex path { segments := ir.segments, target } }
  else
    match ir.isStatic, ir.segments with
    | false, .static first :: _ => { index with impureFirst := index.impureFirst.insert first }
    | _, _ => index

def bindRoute (index : RouteIndex) (ir : PatternIR) (path : JsString) :
    RouteIndex × Except RouteError (List TargetRef) :=
  match indexPattern index ir path with
  | (index, .error e) => (index, .error e)
  | (index, .ok targets) =>
      (noteEligible { index with mutations := index.mutations + 1 } ir path
        (targets.head?.getD 0), .ok targets)

def resetIndex (index : RouteIndex) : RouteIndex :=
  { createRouteIndex with mutations := index.mutations + 1 }

/-! ### Matching -/

def fastMatch (fast : FastMatcher) (path : JsString) : Option RouteMatch :=
  if !startsWith path fast.head then none
  else
    let rest := path.drop fast.head.length
    if rest.head? ≠ some slash then none
    else if rest.length ≤ 1 then none
    else if fast.names.length = 1 then
      let value := rest.drop 1
      if slash ∈ value then none
      else some { target := fast.target, names := fast.names, values := [some value], offset := 0 }
    else
      let parts := split slash (rest.drop 1)
      if parts.length ≠ fast.names.length then none
      else if [] ∈ parts then none
      else
        some { target := fast.target, names := fast.names, values := parts.map some, offset := 0 }

def FAST_MATCHER_CAP : ℕ := 8

def buildFastIndex (index : RouteIndex) : Except RouteError (RouteIndex × FastIndex) := do
  let matchers := if index.buckets.length ≤ FAST_MATCHER_CAP then
      index.buckets.filterMap fun entry => entry.2.fast
    else []
  let table ← compileTableRegex index.regexIndex index.impureFirst
  let fast : FastIndex := { mutations := index.mutations, matchers, table }
  pure ({ index with fastIndex := some fast }, fast)

/-- The fast index, memoized against the mutation epoch. -/
def fastIndexOf (index : RouteIndex) : Except RouteError (RouteIndex × FastIndex) :=
  match index.fastIndex with
  | some cached =>
      if cached.mutations = index.mutations then .ok (index, cached) else buildFastIndex index
  | none => buildFastIndex index

/-- `target.staticMatch`, made together with the target of a static route. -/
def staticMatch (target : TargetRef) : RouteMatch :=
  { target, names := [], values := [], offset := 0 }

def staticCandidate (index : RouteIndex) (path : JsString) : Option TargetRef :=
  let stripped := normalizePath path
  let target := if stripped ≠ path then OrderedMap.get? index.staticMap stripped else none
  if target = none ∧ percent ∈ path then
    match OrderedMap.get? index.staticMap (canonicalKey path) with
    | some target => some target
    | none =>
        if stripped ≠ path then OrderedMap.get? index.staticMap (canonicalKey stripped) else none
  else target

/-- The fast layers, for paths without an escape. -/
def matchFast (fast : FastIndex) (path : JsString) : Option RouteMatch :=
  (fast.matchers.findSome? (fastMatch · path)).or (fast.table.bind (matchTableRegex · path))

def matchDynamic (host : Host) (index : RouteIndex) (path : JsString) :
    Except RouteError (RouteIndex × Option RouteMatch) :=
  match staticCandidate index path with
  | some target => .ok (index, some (staticMatch target))
  | none =>
      if !index.hasDynamic then .ok (index, none)
      else if percent ∈ path then .ok (index, matchPattern host index.trieRoot path)
      else do
        let (index, fast) ← fastIndexOf index
        pure (index, (matchFast fast path).or (matchPattern host index.trieRoot path))

def matchRoute (host : Host) (index : RouteIndex) (path : JsString) :
    Except RouteError (RouteIndex × Option RouteMatch) :=
  match OrderedMap.get? index.staticMap path with
  | some target => .ok (index, some (staticMatch target))
  | none => matchDynamic host index path

end Keala.Router
