import Keala.Core.ErrorHeaders
import Keala.Http.Target
import Keala.Http.Url
import Keala.Js.Rounding
import Keala.Js.Uri
import Keala.Lib.Lts

/-!
The response cache (`src/middleware/cache.ts`). A request is looked up in one
turn of the event loop and its answer stored in another, with any others
between the two. An entry carries two fields that no branch reads: the request
it answers and the turn in which it was last stored or replayed.
-/

namespace Keala.Middleware

open Keala.Js Keala.Http

structure ResponseCacheOptions where
  ttl : Option Number
  max : Option Number
  maxBytes : Option Number
  maxEntryBytes : Option Number
  includeQuery : Bool

structure CacheConfig where
  ttl : Number
  max : Number
  maxBytes : Number
  maxEntryBytes : Number
  includeQuery : Bool

def cacheConfig (options : ResponseCacheOptions) : CacheConfig where
  ttl := options.ttl.getD (.ofNat 60000)
  max := options.max.getD (.ofNat 128)
  maxBytes := options.maxBytes.getD (.ofNat (64 * 1024 * 1024))
  maxEntryBytes := (options.maxEntryBytes.getD (.ofNat (4 * 1024 * 1024))).min
    (options.maxBytes.getD (.ofNat (64 * 1024 * 1024)))
  includeQuery := options.includeQuery

/-- What the cache reads of a request. Methods and hosts are free of line feeds, which
neither a method token nor a header value may hold. -/
structure CacheRequest where
  method : JsString
  target : JsString
  host : JsString
  authorization : JsString
  cookie : JsString
  cacheControl : JsString
  method_line : 10 ∉ method
  host_line : 10 ∉ host
  deriving DecidableEq

namespace CacheRequest

def path (c : CacheRequest) : JsString := contextPath c.target

def querystring (c : CacheRequest) : JsString := contextQuerystring c.target

/-- HEAD shares the entry of GET. -/
def methodClass (c : CacheRequest) : JsString := if c.method = js "HEAD" then js "GET" else c.method

end CacheRequest

def keyOf (includeQuery : Bool) (c : CacheRequest) : JsString :=
  let target := if includeQuery then c.path ++ 63 :: c.querystring else c.path
  c.methodClass ++ 10 :: (c.host ++ 10 :: target)

/-! ### Cache-Control -/

def cacheControlTokens (header : JsString) : List JsString :=
  ((split 44 header).map fun raw => (trim (raw.takeWhile (· ≠ 61))).map lowerAscii).filter (· ≠ [])

/-- The directives between commas, blanks dropped and letters in lower case. -/
def directives (control : JsString) : List JsString :=
  (split 44 control).map fun part => (trim part).map lowerAscii

def directiveValue (directive : JsString) : Option (JsString × JsString) :=
  (indexOf directive 61).map fun i => (trim (directive.take i), trim (directive.drop (i + 1)))

def NO_REVALIDATE (control : JsString) : Bool :=
  (directives control).any fun directive =>
    directive ∈ [js "no-cache", js "no-store", js "private"]

def MAX_AGE_ZERO (control : JsString) : Bool :=
  (directives control).any fun directive =>
    directiveValue directive = some (js "max-age", js "0")

def NO_CACHE_FIELD (control : JsString) : Bool :=
  (directives control).any fun directive =>
    directiveValue directive = some (js "no-cache", js "\"set-cookie\"") ||
      directiveValue directive = some (js "no-cache", js "\"*\"")

/-! ### Capturing an answer -/

variable {β : Type}

structure Answer (β : Type) where
  res : Option (Response β)
  /-- The framework built the body: `c.directBodyResponseValue === res`. -/
  direct : Bool
  cookiesTouched : Bool

def eligible (c : CacheRequest) (cookiesTouched : Bool) (res : Response β) : Bool :=
  let control := (res.headers.get (js "cache-control")).getD []
  (c.method = js "GET" || c.method = js "HEAD") && res.status = 200 &&
    c.authorization = [] && c.cookie = [] && !cookiesTouched &&
    !(NO_REVALIDATE control || MAX_AGE_ZERO control) && !NO_CACHE_FIELD control &&
    (res.headers.get (js "vary")).isNone && res.headers.getSetCookie = []

inductive CapturedBody
  | text (content : JsString)
  | bytes (content : List UInt8)
  deriving DecidableEq

/-- `text()` and `arrayBuffer()` of a body; `none` for a rejection. -/
structure BodyReader (β : Type) where
  text : β → Option JsString
  bytes : β → Option (List UInt8)

/-- `none` when reading fails, at once on a locked body or later. -/
def captureBody (reader : BodyReader β) (res : Response β) : Option CapturedBody :=
  match res.body with
  | none => some (.text [])
  | some body =>
      if body.locked then none
      else if (res.headers.get (js "content-encoding")).isSome then
        (reader.bytes body.content).map .bytes
      else (reader.text body.content).map .text

/-- The bytes of `TextEncoder.encode`; a lone surrogate takes the three of U+FFFD. -/
def utf8Length (text : JsString) : ℕ := ((codePoints text).flatMap utf8).length

def CapturedBody.isEmpty : CapturedBody → Bool
  | .text content => content.isEmpty
  | .bytes content => content.isEmpty

def CapturedBody.sizeBytes : CapturedBody → ℕ
  | .text content => utf8Length content
  | .bytes content => content.length

structure CacheEntry where
  expires : Number
  body : CapturedBody
  headers : List (JsString × JsString)
  sizeBytes : ℕ
  deriving DecidableEq

/-- The pairs of `entries()` and of `getSetCookie()` (an eligible response has none of the
latter). -/
def capturedHeaders (headers : Headers) : List (JsString × JsString) :=
  (headers.combined.filter fun entry => entry.1 ≠ js "x-cache") ++
    headers.getSetCookie.map fun cookie => (js "set-cookie", cookie)

structure Capture where
  key : JsString
  request : CacheRequest
  mayStore : Bool
  deriving DecidableEq

def entryOf (config : CacheConfig) (reader : BodyReader β) (capture : Capture) (answer : Answer β)
    (now : ℚ) : Option CacheEntry :=
  if capture.mayStore then do
    let res ← answer.res
    if eligible capture.request answer.cookiesTouched res && answer.direct then do
      let body ← captureBody reader res
      if body.isEmpty || config.maxEntryBytes.lt (.ofNat body.sizeBytes) then none
      else some {
        expires := (Number.finite now).plus config.ttl
        body := body
        headers := capturedHeaders res.headers
        sizeBytes := body.sizeBytes }
    else none
  else none

/-! ### The store -/

/-- An entry, the request it answers and the turn of its last use. -/
structure Stored where
  entry : CacheEntry
  request : CacheRequest
  used : ℕ
  deriving DecidableEq

structure CacheState where
  store : List (JsString × Stored)
  totalBytes : ℤ
  deriving DecidableEq

def evict (config : CacheConfig) : List (JsString × Stored) → ℤ → CacheState
  | [], totalBytes => ⟨[], totalBytes⟩
  | oldest :: rest, totalBytes =>
      if config.max.lt (.ofNat (oldest :: rest).length) || config.maxBytes.lt (.finite totalBytes)
      then evict config rest (totalBytes - oldest.2.entry.sizeBytes)
      else ⟨oldest :: rest, totalBytes⟩

/-- `store.set` with its bytes counted, those of an entry it replaces no longer. -/
def insertEntry (s : CacheState) (key : JsString) (stored : Stored) : CacheState :=
  let totalBytes :=
    match OrderedMap.get? s.store key with
    | some previous => s.totalBytes - previous.entry.sizeBytes
    | none => s.totalBytes
  ⟨OrderedMap.set s.store key stored, totalBytes + stored.entry.sizeBytes⟩

/-- What follows `next()`. -/
def storeAnswer (config : CacheConfig) (reader : BodyReader β) (s : CacheState) (turn : ℕ)
    (capture : Capture) (answer : Answer β) (now : ℚ) : CacheState :=
  match entryOf config reader capture answer now with
  | none => s
  | some entry =>
      let inserted := insertEntry s capture.key ⟨entry, capture.request, turn⟩
      evict config inserted.store inserted.totalBytes

/-! ### The lookup -/

def withContentType (body : CapturedBody) (headers : List (JsString × JsString)) :
    List (JsString × JsString) :=
  match body with
  | .text _ =>
      if headers.any fun entry => entry.1 = js "content-type" then headers
      else headers ++ [(js "content-type", js "text/plain;charset=UTF-8")]
  | .bytes _ => headers

def replay (c : CacheRequest) (entry : CacheEntry) : Response CapturedBody :=
  let headers := Headers.setEntries (js "x-cache") (js "hit") entry.headers
  if c.method = js "HEAD" then
    let headers :=
      if headers.any fun header => header.1 = js "content-length" then headers
      else Headers.setEntries (js "content-length") (js (toString entry.sizeBytes)) headers
    ⟨200, [], ⟨headers, false⟩, none⟩
  else ⟨200, [], ⟨withContentType entry.body headers, false⟩, some ⟨entry.body, false⟩⟩

inductive Lookup
  | replayed (response : Response CapturedBody)
  /-- `next()` is called and nothing done after it. -/
  | passed
  /-- `next()` is called and its answer may be stored. -/
  | missed (capture : Capture)

/-- What precedes `next()`. -/
def lookup (config : CacheConfig) (s : CacheState) (turn : ℕ) (c : CacheRequest) (now : ℚ) :
    CacheState × Lookup :=
  if !config.includeQuery && c.querystring ≠ [] then (s, .passed)
  else
    let requestDirectives := cacheControlTokens c.cacheControl
    let bypassStored := requestDirectives.contains (js "no-cache")
    let mayStore := !requestDirectives.contains (js "no-store")
    let key := keyOf config.includeQuery c
    let authedRequest := c.authorization ≠ [] || c.cookie ≠ []
    match if authedRequest then none else OrderedMap.get? s.store key with
    | none => (s, .missed ⟨key, c, mayStore⟩)
    | some cached =>
        if (Number.finite now).lt cached.entry.expires && !bypassStored then
          -- Deleted and inserted again, the entry is the last of the `Map`.
          let store := OrderedMap.set (OrderedMap.delete s.store key) key
            { cached with used := turn }
          (⟨store, s.totalBytes⟩, .replayed (replay c cached.entry))
        else
          (⟨OrderedMap.delete s.store key, s.totalBytes - cached.entry.sizeBytes⟩,
            .missed ⟨key, c, mayStore⟩)

/-! ### Runs -/

structure CacheRun where
  cache : CacheState
  /-- Requests whose `next()` has not settled. -/
  pending : List Capture
  turn : ℕ
  deriving DecidableEq

inductive CacheEvent (β : Type)
  | request (c : CacheRequest) (now : ℚ)
  /-- `next()` settles; where it rejects, there is no response to store. -/
  | answered (capture : Capture) (answer : Answer β) (now : ℚ)

/-- One `cache(options)` under any interleaving of requests and answers. -/
def responseCache (config : CacheConfig) (reader : BodyReader β) :
    Lts CacheRun (CacheEvent β) where
  start := ⟨⟨[], 0⟩, [], 0⟩
  step s
    | .request c now =>
        let (cache, outcome) := lookup config s.cache s.turn c now
        let pending :=
          match outcome with
          | .missed capture => capture :: s.pending
          | _ => s.pending
        some ⟨cache, pending, s.turn + 1⟩
    | .answered capture answer now =>
        if capture ∈ s.pending then
          some ⟨storeAnswer config reader s.cache s.turn capture answer now,
            s.pending.erase capture, s.turn + 1⟩
        else none

end Keala.Middleware
