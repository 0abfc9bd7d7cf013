import Keala.Js.Rounding
import Keala.Js.Text
import Keala.Lib.Except
import Keala.Lib.OrderedMap

/-!
Fixed-window rate limiting (`src/middleware/rate-limit.ts`) with the store in
memory. A hit and its check are one turn of the event loop, so a bucket is read
as the hit left it. Results are rounded to doubles; none overflows, as a clock
reading is small. The text of a number in a header is left out.
-/

namespace Keala.Middleware

open Keala.Js

structure RateLimitBucket where
  count : ℕ
  resetAt : ℚ
  deriving DecidableEq

/-- The `Map` of the store, in its iteration order. -/
abbrev Buckets := List (JsString × RateLimitBucket)

/-- The loop that drops the first entries. The store holds at most one entry too
many, so what is to be dropped is a double without rounding. -/
def dropFirst : Number → Buckets → Buckets
  | _, [] => []
  | toDrop, entry :: rest =>
      if toDrop.le (.ofNat 0) then entry :: rest
      else dropFirst (toDrop.sub (.ofNat 1)) rest

/-- `now + windowMs`. -/
def windowEnd (windowMs now : ℚ) : ℚ := roundedValue (now + windowMs)

theorem windowEnd_mono (windowMs : ℚ) : Monotone (windowEnd windowMs) := by
  intro now later h
  apply roundedValue_monotone
  gcongr

/-- The end of a window is exact in whole milliseconds. -/
theorem windowEnd_whole {now windowMs : ℕ} (h : now + windowMs < 2 ^ 53) :
    windowEnd windowMs now = now + windowMs := by
  rw [windowEnd, ← Nat.cast_add, roundedValue_natCast h]

def openBucket (maxKeys : Number) (windowMs now : ℚ) (buckets : Buckets) (key : JsString) :
    Buckets × RateLimitBucket :=
  let fresh : RateLimitBucket := ⟨1, windowEnd windowMs now⟩
  let buckets := OrderedMap.set buckets key fresh
  let buckets := if maxKeys.lt (.ofNat buckets.length)
    then dropFirst ((Number.ofNat buckets.length).sub maxKeys) buckets
    else buckets
  (buckets, fresh)

/-- `memoryRateLimitStore(maxKeys).hit(key, windowMs)` at the time `now`. -/
def hit (maxKeys : Number) (windowMs now : ℚ) (buckets : Buckets) (key : JsString) :
    Buckets × RateLimitBucket :=
  match OrderedMap.get? buckets key with
  | some bucket =>
      if now < bucket.resetAt then
        -- The bucket is counted in place.
        let counted := { bucket with count := bucket.count + 1 }
        (OrderedMap.set buckets key counted, counted)
      else openBucket maxKeys windowMs now buckets key
  | none => openBucket maxKeys windowMs now buckets key

/-! ### The middleware -/

structure RateLimitOptions where
  limit : Option Number
  windowMs : Option Number
  retryAfterSeconds : Option Number
  headers : Bool
  maxKeys : Option Number

structure RateLimitConfig where
  limit : ℚ
  windowMs : ℚ
  retryAfter : Number
  emitHeaders : Bool
  maxKeys : ℚ
  limit_pos : 1 ≤ limit
  windowMs_pos : 1 ≤ windowMs
  maxKeys_pos : 1 ≤ maxKeys

/-- A finite number from 1 on, or the message of the `TypeError`. -/
def positive (fault : JsString) : Number → Except JsString { value : ℚ // 1 ≤ value }
  | .finite value => if h : 1 ≤ value then .ok ⟨value, h⟩ else .error fault
  | _ => .error fault

theorem positive_ok {fault : JsString} {n : Number} {value : { value : ℚ // 1 ≤ value }}
    (h : positive fault n = .ok value) : n = .finite value.1 := by
  cases n with
  | finite x =>
      rw [positive] at h
      split at h
      · cases h
        rfl
      · cases h
  | nan => cases h
  | negInfinity => cases h
  | infinity => cases h

def rateLimitConfig (options : RateLimitOptions) : Except JsString RateLimitConfig := do
  let limit ← positive (js "rateLimit() requires a positive limit")
    (options.limit.getD (.ofNat 100))
  let windowMs ← positive (js "rateLimit() requires a positive windowMs")
    (options.windowMs.getD (.ofNat 60000))
  let maxKeys ← positive (js "rateLimit() requires a positive maxKeys")
    (options.maxKeys.getD (.ofNat 10000))
  pure {
    limit := limit.1
    windowMs := windowMs.1
    retryAfter := options.retryAfterSeconds.getD (.ofNat 1)
    emitHeaders := options.headers
    maxKeys := maxKeys.1
    limit_pos := limit.2
    windowMs_pos := windowMs.2
    maxKeys_pos := maxKeys.2 }

/-- The numbers of a configuration are the given ones or their defaults. -/
theorem rateLimitConfig_ok {options : RateLimitOptions} {config : RateLimitConfig}
    (h : rateLimitConfig options = .ok config) :
    options.limit.getD (.ofNat 100) = .finite config.limit ∧
      options.windowMs.getD (.ofNat 60000) = .finite config.windowMs ∧
      options.maxKeys.getD (.ofNat 10000) = .finite config.maxKeys := by
  obtain ⟨limit, hlimit, h⟩ := Except.ok_of_bind h
  obtain ⟨windowMs, hwindow, h⟩ := Except.ok_of_bind h
  obtain ⟨maxKeys, hmax, h⟩ := Except.ok_of_bind h
  cases h
  exact ⟨positive_ok hlimit, positive_ok hwindow, positive_ok hmax⟩

structure RateLimitError where
  status : ℕ
  message : JsString
  code : JsString
  expose : Bool
  headers : List (JsString × Number)

inductive RateLimitVerdict
  | refused (error : RateLimitError)
  | next (headers : List (JsString × Number))

def RateLimitVerdict.isRefused : RateLimitVerdict → Bool
  | .refused _ => true
  | .next _ => false

def resetSeconds (bucket : RateLimitBucket) (now : ℚ) : Number :=
  .finite (max 1 ⌈roundedValue (roundedValue (bucket.resetAt - now) / 1000)⌉ : ℤ)

def check (config : RateLimitConfig) (bucket : RateLimitBucket) (now : ℚ) : RateLimitVerdict :=
  if config.limit < bucket.count then
    .refused {
      status := 429
      message := js "Too Many Requests"
      code := js "rate_limited"
      expose := true
      headers :=
        (if (Number.ofNat 0).lt config.retryAfter
          then [(js "retry-after", (resetSeconds bucket now).max config.retryAfter)] else []) ++
        if config.emitHeaders then
          [(js "ratelimit-limit", .finite config.limit), (js "ratelimit-remaining", .ofNat 0),
            (js "ratelimit-reset", resetSeconds bucket now)]
        else [] }
  else
    .next <| if config.emitHeaders then
      [(js "RateLimit-Limit", .finite config.limit),
        (js "RateLimit-Remaining", .finite (max 0 (roundedValue (config.limit - bucket.count)))),
        (js "RateLimit-Reset", resetSeconds bucket now)]
    else []

structure Hit where
  now : ℚ
  key : JsString

def limitRequest (config : RateLimitConfig) (buckets : Buckets) (request : Hit) :
    Buckets × RateLimitVerdict :=
  let (buckets, bucket) :=
    hit (.finite config.maxKeys) config.windowMs request.now buckets request.key
  (buckets, check config bucket request.now)

end Keala.Middleware
