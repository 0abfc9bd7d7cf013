import Keala.Middleware.Cache
import Mathlib.Algebra.Order.Ring.Rat
import Mathlib.Data.List.TakeWhile

/-!
The byte count and the two bounds of the response cache, and what it replays.
Every operation adjusts the count by hand; the invariant is that it stays the
sum over the entries, under any interleaving.
-/

namespace Keala.Middleware

open Keala.Js Keala.Http
open OrderedMap

variable {β : Type} {config : CacheConfig} {reader : BodyReader β}

def storedBytes (store : List (JsString × Stored)) : ℤ :=
  weight (fun stored => (stored.entry.sizeBytes : ℤ)) store

/-! ### The operations -/

inductive Looks (config : CacheConfig) (s : CacheState) (turn : ℕ) (c : CacheRequest) (now : ℚ) :
    CacheState × Lookup → Prop
  | passed : Looks config s turn c now (s, .passed)
  | absent (mayStore : Bool) :
      Looks config s turn c now (s, .missed ⟨keyOf config.includeQuery c, c, mayStore⟩)
  | replayed (cached : Stored) (hquery : config.includeQuery = true ∨ c.querystring = [])
      (hanonymous : c.authorization = [] ∧ c.cookie = [])
      (hstored : get? s.store (keyOf config.includeQuery c) = some cached)
      (hfresh : (Number.finite now).lt cached.entry.expires = true) :
      Looks config s turn c now
        (⟨OrderedMap.set (OrderedMap.delete s.store (keyOf config.includeQuery c))
            (keyOf config.includeQuery c) { cached with used := turn }, s.totalBytes⟩,
          .replayed (replay c cached.entry))
  | expelled (cached : Stored) (mayStore : Bool)
      (hstored : get? s.store (keyOf config.includeQuery c) = some cached) :
      Looks config s turn c now
        (⟨OrderedMap.delete s.store (keyOf config.includeQuery c),
            s.totalBytes - cached.entry.sizeBytes⟩,
          .missed ⟨keyOf config.includeQuery c, c, mayStore⟩)

theorem lookup_spec (config : CacheConfig) (s : CacheState) (turn : ℕ) (c : CacheRequest)
    (now : ℚ) : Looks config s turn c now (lookup config s turn c now) := by
  rw [lookup]
  split
  · exact .passed
  · next hserved =>
      have hquery : config.includeQuery = true ∨ c.querystring = [] := by
        by_contra hnot
        rw [not_or] at hnot
        exact hserved (by simp [hnot])
      by_cases hauth : c.authorization = [] ∧ c.cookie = []
      · have hanonymous :
            (decide (c.authorization ≠ []) || decide (c.cookie ≠ [])) = false := by
          simp [hauth]
        simp only [hanonymous, Bool.false_eq_true, if_false]
        cases hcached : get? s.store (keyOf config.includeQuery c) with
        | none => exact .absent _
        | some cached =>
            dsimp only
            split
            · next hfresh =>
                rw [Bool.and_eq_true] at hfresh
                exact .replayed cached hquery hauth hcached hfresh.1
            · exact .expelled cached _ hcached
      · have hknown : (decide (c.authorization ≠ []) || decide (c.cookie ≠ [])) = true := by
          rw [not_and_or] at hauth
          simpa using hauth
        simp only [hknown, if_true]
        exact .absent _

/-- The loop keeps the last entries and their count, and ends within both bounds or
with nothing. -/
theorem evict_spec (config : CacheConfig) (store : List (JsString × Stored)) :
    (evict config store (storedBytes store)).store <:+ store ∧
      (evict config store (storedBytes store)).totalBytes =
        storedBytes (evict config store (storedBytes store)).store ∧
      ((evict config store (storedBytes store)).store = [] ∨
        config.max.lt (.ofNat (evict config store (storedBytes store)).store.length) = false ∧
          config.maxBytes.lt
            (.finite (evict config store (storedBytes store)).totalBytes) = false) := by
  induction store with
  | nil => exact ⟨List.suffix_refl _, rfl, .inl rfl⟩
  | cons oldest rest ih =>
      have hrest : storedBytes (oldest :: rest) - oldest.2.entry.sizeBytes = storedBytes rest := by
        rw [storedBytes, weight_cons, storedBytes]
        omega
      rw [evict, hrest]
      split
      · exact ⟨ih.1.trans (List.suffix_cons oldest rest), ih.2⟩
      · next hwithin =>
          have hboth := Bool.or_eq_false_iff.mp (Bool.not_eq_true _ ▸ hwithin)
          exact ⟨List.suffix_refl _, rfl, .inr hboth⟩

/-- Overwriting an entry or adding one, the count follows. -/
theorem insertEntry_bytes {s : CacheState} (h : s.totalBytes = storedBytes s.store)
    (key : JsString) (stored : Stored) :
    (insertEntry s key stored).totalBytes = storedBytes (insertEntry s key stored).store := by
  rw [insertEntry, storedBytes]
  cases hprevious : get? s.store key with
  | none =>
      dsimp only
      rw [weight_set_new _ hprevious, h, storedBytes]
  | some previous =>
      dsimp only
      rw [weight_set_old _ hprevious, h, storedBytes]

/-! ### The invariant -/

/-- An entry stands under the key of the request it answers, a GET or a HEAD. -/
structure Filed (config : CacheConfig) (key : JsString) (stored : Stored) : Prop where
  key : key = keyOf config.includeQuery stored.request
  method : stored.request.methodClass = js "GET"

structure CacheInv (config : CacheConfig) (s : CacheRun) : Prop where
  nodup : (keys s.cache.store).Nodup
  bytes : s.cache.totalBytes = storedBytes s.cache.store
  filed : ∀ e ∈ s.cache.store, Filed config e.1 e.2
  pending : ∀ capture ∈ s.pending, capture.key = keyOf config.includeQuery capture.request

theorem CacheInv.start : CacheInv config (responseCache config reader).start :=
  ⟨List.nodup_nil, rfl, fun _ he => absurd he List.not_mem_nil,
    fun _ hcapture => absurd hcapture List.not_mem_nil⟩

/-- An eligible request is a GET or a HEAD. -/
theorem entryOf_method {capture : Capture} {answer : Answer β} {now : ℚ} {entry : CacheEntry}
    (h : entryOf config reader capture answer now = some entry) :
    capture.request.methodClass = js "GET" := by
  rw [entryOf] at h
  split at h
  · obtain ⟨res, -, h⟩ := Option.bind_eq_some_iff.mp h
    split at h
    · next heligible =>
        have hmethod : capture.request.method = js "GET" ∨ capture.request.method = js "HEAD" := by
          simp only [eligible, Bool.and_eq_true, Bool.or_eq_true, decide_eq_true_eq] at heligible
          tauto
        rw [CacheRequest.methodClass]
        rcases hmethod with hget | hhead
        · rw [hget, if_neg (by decide)]
        · rw [if_pos hhead]
    · cases h
  · cases h

theorem storeAnswer_none {s : CacheState} {turn : ℕ} {capture : Capture} {answer : Answer β}
    {now : ℚ} (h : entryOf config reader capture answer now = none) :
    storeAnswer config reader s turn capture answer now = s := by
  rw [storeAnswer, h]

theorem storeAnswer_some {s : CacheState} {turn : ℕ} {capture : Capture} {answer : Answer β}
    {now : ℚ} {entry : CacheEntry} (h : entryOf config reader capture answer now = some entry)
    (hbytes : s.totalBytes = storedBytes s.store) :
    storeAnswer config reader s turn capture answer now =
      evict config (OrderedMap.set s.store capture.key ⟨entry, capture.request, turn⟩)
        (storedBytes (OrderedMap.set s.store capture.key ⟨entry, capture.request, turn⟩)) := by
  rw [storeAnswer, h]
  dsimp only
  rw [insertEntry_bytes hbytes]
  rfl

theorem Filed.set {store : List (JsString × Stored)} (hnodup : (keys store).Nodup)
    (h : ∀ e ∈ store, Filed config e.1 e.2) {key : JsString} {stored : Stored}
    (hstored : Filed config key stored) :
    ∀ e ∈ OrderedMap.set store key stored, Filed config e.1 e.2 := by
  rintro ⟨k, b⟩ he
  rw [mem_set_iff hnodup] at he
  split at he
  · next heq =>
      subst heq he
      exact hstored
  · exact h _ he

theorem CacheInv.request {s : CacheRun} (h : CacheInv config s) (c : CacheRequest) (now : ℚ)
    {t : CacheRun} (hstep : (responseCache config reader).step s (.request c now) = some t) :
    CacheInv config t := by
  have hlook := lookup_spec config s.cache s.turn c now
  simp only [responseCache] at hstep
  generalize lookup config s.cache s.turn c now = result at hlook hstep
  have hpending : ∀ mayStore, ∀ capture ∈
      (⟨keyOf config.includeQuery c, c, mayStore⟩ : Capture) :: s.pending,
      capture.key = keyOf config.includeQuery capture.request := by
    intro mayStore capture hcapture
    rcases List.mem_cons.mp hcapture with rfl | hcapture
    · rfl
    · exact h.pending capture hcapture
  cases hlook with
  | passed =>
      cases hstep
      exact { h with }
  | absent mayStore =>
      cases hstep
      exact { h with pending := hpending mayStore }
  | replayed cached hquery hanonymous hstored hfresh =>
      cases hstep
      have hdeleted := h.nodup.sublist
        (keys_delete_sublist s.cache.store (keyOf config.includeQuery c))
      have hfiled : ∀ e ∈ OrderedMap.delete s.cache.store (keyOf config.includeQuery c),
          Filed config e.1 e.2 :=
        fun e he => h.filed e ((delete_sublist _ _).subset he)
      have hcached := h.filed _ (mem_of_get? hstored)
      refine ⟨nodup_set hdeleted _ _, ?_, ?_, h.pending⟩
      · -- The count is not touched: what goes comes back.
        change s.cache.totalBytes = _
        rw [storedBytes, weight_set_new _ (get?_delete_self h.nodup _),
          weight_delete _ hstored, h.bytes, storedBytes]
        exact (sub_add_cancel _ _).symm
      · exact Filed.set hdeleted hfiled ⟨hcached.key, hcached.method⟩
  | expelled cached mayStore hstored =>
      cases hstep
      refine ⟨h.nodup.sublist (keys_delete_sublist _ _), ?_, ?_, hpending mayStore⟩
      · change s.cache.totalBytes - _ = _
        rw [storedBytes, weight_delete _ hstored, h.bytes, storedBytes]
      · exact fun e he => h.filed e ((delete_sublist _ _).subset he)

theorem CacheInv.answered {s : CacheRun} (h : CacheInv config s) (capture : Capture)
    (answer : Answer β) (now : ℚ) {t : CacheRun}
    (hstep : (responseCache config reader).step s (.answered capture answer now) = some t) :
    CacheInv config t := by
  simp only [responseCache] at hstep
  split at hstep
  · next hmem =>
      cases hstep
      have hpending : ∀ other ∈ s.pending.erase capture,
          other.key = keyOf config.includeQuery other.request :=
        fun other hother => h.pending other (List.mem_of_mem_erase hother)
      cases hentry : entryOf config reader capture answer now with
      | none =>
          rw [storeAnswer_none hentry]
          exact { h with pending := hpending }
      | some entry =>
          rw [storeAnswer_some hentry h.bytes]
          have hnodup := nodup_set h.nodup capture.key
            (⟨entry, capture.request, s.turn⟩ : Stored)
          have hset : ∀ e ∈ OrderedMap.set s.cache.store capture.key
              ⟨entry, capture.request, s.turn⟩, Filed config e.1 e.2 :=
            Filed.set h.nodup h.filed ⟨h.pending capture hmem, entryOf_method hentry⟩
          obtain ⟨hsuffix, hbytes, -⟩ := evict_spec config
            (OrderedMap.set s.cache.store capture.key ⟨entry, capture.request, s.turn⟩)
          exact ⟨hnodup.sublist (hsuffix.sublist.map Prod.fst), hbytes,
            fun e he => hset e (hsuffix.sublist.subset he), hpending⟩
  · cases hstep

theorem CacheInv.step {s t : CacheRun} {event : CacheEvent β} (h : CacheInv config s)
    (hstep : (responseCache config reader).step s event = some t) : CacheInv config t := by
  cases event with
  | request c now => exact h.request c now hstep
  | answered capture answer now => exact h.answered capture answer now hstep

theorem cacheInv_of_reachable {s : CacheRun} (h : (responseCache config reader).Reachable s) :
    CacheInv config s :=
  h.invariant .start fun _ _ _ hs hstep => hs.step hstep

/-! ### What is replayed -/

structure SameResource (includeQuery : Bool) (a b : CacheRequest) : Prop where
  method : a.methodClass = b.methodClass
  host : a.host = b.host
  path : a.path = b.path
  query : includeQuery = true → a.querystring = b.querystring

theorem line_not_mem_methodClass (c : CacheRequest) : 10 ∉ c.methodClass := by
  rw [CacheRequest.methodClass]
  split
  · decide
  · exact c.method_line

/-- No part of a key but the last holds its delimiter, so a key tells the parts. -/
theorem sameResource_of_keyOf {includeQuery : Bool} {a b : CacheRequest}
    (h : keyOf includeQuery a = keyOf includeQuery b) : SameResource includeQuery a b := by
  rw [keyOf, keyOf] at h
  obtain ⟨hmethod, hrest⟩ :=
    append_cons_inj_left (line_not_mem_methodClass a) (line_not_mem_methodClass b) h
  obtain ⟨hhost, htarget⟩ := append_cons_inj_left a.host_line b.host_line hrest
  cases includeQuery with
  | false => exact ⟨hmethod, hhost, htarget, nofun⟩
  | true =>
      obtain ⟨hpath, hquery⟩ := append_cons_inj_left
        (question_not_mem_getPath (contextUrl a.target))
        (question_not_mem_getPath (contextUrl b.target)) htarget
      exact ⟨hmethod, hhost, hpath, fun _ => hquery⟩

/-- The replay of an unexpired entry for the same representation, to a request without
credentials. -/
structure Replays (config : CacheConfig) (s : CacheState) (c : CacheRequest) (now : ℚ)
    (response : Response CapturedBody) : Prop where
  anonymous : c.authorization = [] ∧ c.cookie = []
  method : c.methodClass = js "GET"
  query : config.includeQuery = true ∨ c.querystring = []
  entry : ∃ e ∈ s.store, (Number.finite now).lt e.2.entry.expires = true ∧
    SameResource config.includeQuery e.2.request c ∧ response = replay c e.2.entry

theorem CacheInv.replays {s : CacheRun} (h : CacheInv config s) {c : CacheRequest} {now : ℚ}
    {response : Response CapturedBody}
    (hreplayed : (lookup config s.cache s.turn c now).2 = .replayed response) :
    Replays config s.cache c now response := by
  have hlook := lookup_spec config s.cache s.turn c now
  generalize lookup config s.cache s.turn c now = result at hlook hreplayed
  cases hlook with
  | passed => cases hreplayed
  | absent mayStore => cases hreplayed
  | expelled cached mayStore hstored => cases hreplayed
  | replayed cached hquery hanonymous hstored hfresh =>
      cases hreplayed
      have hmem := mem_of_get? hstored
      have hfiled := h.filed _ hmem
      have hsame := sameResource_of_keyOf hfiled.key.symm
      refine ⟨hanonymous, ?_, hquery, _, hmem, hfresh, hsame, rfl⟩
      rw [← hsame.method, hfiled.method]

/-! ### The bounds -/

/-- Nothing is small enough to be stored, or neither bound is `NaN` or negative. -/
def Budgeted (config : CacheConfig) : Prop :=
  config.maxEntryBytes.lt (.ofNat 1) = true ∨
    (Number.ofNat 0).le config.max = true ∧ (Number.ofNat 0).le config.maxBytes = true

instance (config : CacheConfig) : Decidable (Budgeted config) :=
  inferInstanceAs (Decidable (_ ∨ _))

structure WithinBudget (config : CacheConfig) (s : CacheState) : Prop where
  entries : (Number.ofNat s.store.length).le config.max = true
  bytes : (Number.finite s.totalBytes).le config.maxBytes = true

theorem le_of_lt_eq_false {a : ℚ} {b : Number} (hb : (Number.ofNat 0).le b = true)
    (h : b.lt (.finite a) = false) : (Number.finite a).le b = true := by
  cases b with
  | nan => cases hb
  | negInfinity => cases hb
  | infinity => rfl
  | finite b =>
      rw [Number.lt_finite] at h
      rw [Number.le_finite, h]
      rfl

theorem one_le_utf8Length {text : JsString} (h : text ≠ []) : 1 ≤ utf8Length text := by
  have hpoint : ∀ cp, 1 ≤ (utf8 cp).length := by
    intro cp
    rw [utf8]
    split_ifs <;> simp
  have hpoints : codePoints text ≠ [] := by
    fun_cases codePoints text with
    | case1 => exact absurd rfl h
    | case2 => simp
    | case3 => simp_all
    | case4 => simp_all
  obtain ⟨cp, rest, heq⟩ := List.exists_cons_of_ne_nil hpoints
  rw [utf8Length, heq, List.flatMap_cons, List.length_append]
  have hfirst := hpoint cp
  omega

theorem one_le_sizeBytes {body : CapturedBody} (h : body.isEmpty = false) : 1 ≤ body.sizeBytes := by
  cases body with
  | text content => exact one_le_utf8Length (List.isEmpty_eq_false_iff.mp h)
  | bytes content => exact List.length_pos_iff.mpr (List.isEmpty_eq_false_iff.mp h)

theorem lt_ofNat_of_lt_one {bound : Number} (h : bound.lt (.ofNat 1) = true) {n : ℕ}
    (hn : 1 ≤ n) : bound.lt (.ofNat n) = true := by
  cases bound with
  | nan => cases h
  | negInfinity => rfl
  | infinity => cases h
  | finite bound =>
      have hone : bound < 1 := by simpa [Number.ofNat] using h
      have hle : (1 : ℚ) ≤ n := by exact_mod_cast hn
      exact decide_eq_true (hone.trans_le hle)

/-- Every body that passes the checks has a byte at least. -/
theorem entryOf_eq_none (h : config.maxEntryBytes.lt (.ofNat 1) = true) (capture : Capture)
    (answer : Answer β) (now : ℚ) : entryOf config reader capture answer now = none := by
  rw [entryOf]
  split
  · refine Option.bind_eq_none_iff.mpr fun res _ => ?_
    split
    · refine Option.bind_eq_none_iff.mpr fun body _ => ?_
      split
      · rfl
      · next hkept =>
          rw [Bool.or_eq_true, not_or, Bool.not_eq_true] at hkept
          exact absurd (lt_ofNat_of_lt_one h (one_le_sizeBytes hkept.1)) hkept.2
    · rfl
  · rfl

/-- After an answer is stored the cache is within its bounds. -/
theorem storeAnswer_withinBudget (hbudget : Budgeted config) {s : CacheState}
    (hbytes : s.totalBytes = storedBytes s.store) {turn : ℕ} {capture : Capture}
    {answer : Answer β} {now : ℚ}
    (hstored : entryOf config reader capture answer now ≠ none) :
    WithinBudget config (storeAnswer config reader s turn capture answer now) := by
  rcases hbudget with hnothing | ⟨hmax, hmaxBytes⟩
  · exact absurd (entryOf_eq_none hnothing capture answer now) hstored
  · obtain ⟨entry, hentry⟩ := Option.ne_none_iff_exists'.mp hstored
    rw [storeAnswer_some hentry hbytes]
    obtain ⟨-, hcount, hends⟩ := evict_spec config
      (OrderedMap.set s.store capture.key ⟨entry, capture.request, turn⟩)
    rcases hends with hempty | ⟨hentries, hwithin⟩
    · refine ⟨?_, ?_⟩
      · rw [hempty]
        exact hmax
      · rw [hcount, hempty]
        exact hmaxBytes
    · exact ⟨le_of_lt_eq_false hmax hentries, le_of_lt_eq_false hmaxBytes hwithin⟩

/-! ### Every run -/

structure CacheSafe (config : CacheConfig) (reader : BodyReader β) (s : CacheRun) : Prop where
  bytes : s.cache.totalBytes = (s.cache.store.map fun e => (e.2.entry.sizeBytes : ℤ)).sum
  bounds : ∀ capture answer now t,
    (responseCache config reader).step s (.answered capture answer now) = some t →
      entryOf config reader capture answer now ≠ none → WithinBudget config t.cache
  replays : ∀ c now response,
    (lookup config s.cache s.turn c now).2 = .replayed response →
      Replays config s.cache c now response

theorem cache_within_budget {options : ResponseCacheOptions}
    (hbudget : Budgeted (cacheConfig options)) {s : CacheRun}
    (h : (responseCache (cacheConfig options) reader).Reachable s) :
    CacheSafe (cacheConfig options) reader s := by
  have hinv := cacheInv_of_reachable h
  refine ⟨hinv.bytes, ?_, fun c now response => hinv.replays⟩
  intro capture answer now t hstep hstored
  simp only [responseCache] at hstep
  split at hstep
  · cases hstep
    exact storeAnswer_withinBudget hbudget hinv.bytes hstored
  · cases hstep

def textReader : BodyReader JsString := ⟨some, fun _ => none⟩

def pageRequest (target : JsString) : CacheRequest :=
  ⟨js "GET", target, js "h", [], [], [], by decide, by decide⟩

def pageCapture (target : JsString) : Capture :=
  ⟨keyOf false (pageRequest target), pageRequest target, true⟩

def pageAnswer : Answer JsString :=
  ⟨some ⟨200, [], .empty, some ⟨js "page", false⟩⟩, true, false⟩

def pageEntry (target : JsString) (now : ℚ) (turn : ℕ) : JsString × Stored :=
  (keyOf false (pageRequest target),
    ⟨⟨.finite (now + 60000), .text (js "page"), [], 4⟩, pageRequest target, turn⟩)

def defaultOptions : ResponseCacheOptions := ⟨none, none, none, none, false⟩

theorem cache_within_budget_page :
    CacheSafe (cacheConfig defaultOptions) textReader
      ⟨⟨[pageEntry (js "/a") 1 1], 4⟩, [], 2⟩ := by
  refine cache_within_budget (by decide +kernel) ?_
  exact Lts.reachable_of_run
    [.request (pageRequest (js "/a")) 0, .answered (pageCapture (js "/a")) pageAnswer 1]
    (by decide +kernel)

def uncounted : CacheConfig := cacheConfig { defaultOptions with max := some .nan }

/-- No count of entries is at most `NaN`, nor more than it: the loop evicts nothing. -/
theorem nan_max_evicts_nothing :
    ∃ s t, (responseCache uncounted textReader).runFrom ⟨⟨[], 0⟩, [], 0⟩
        [.request (pageRequest (js "/a")) 0] = some s ∧
      (responseCache uncounted textReader).step s
        (.answered (pageCapture (js "/a")) pageAnswer 1) = some t ∧
      t.cache.store.length = 1 ∧ ¬ CacheSafe uncounted textReader s := by
  refine ⟨⟨⟨[], 0⟩, [pageCapture (js "/a")], 1⟩, ⟨⟨[pageEntry (js "/a") 1 1], 4⟩, [], 2⟩,
    by decide +kernel, by decide +kernel, rfl, ?_⟩
  intro h
  have hwithin := h.bounds (pageCapture (js "/a")) pageAnswer 1
    ⟨⟨[pageEntry (js "/a") 1 1], 4⟩, [], 2⟩ (by decide +kernel) (by decide +kernel)
  exact absurd hwithin.entries (by decide)

end Keala.Middleware
