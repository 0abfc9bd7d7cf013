import Keala.Middleware.CacheBudget

/-!
Which entries the cache evicts. The `Map` iterates from the least recent entry
on: a hit moves its entry to the end, and so does storing, but for a key that
has an entry already, which keeps its place.
-/

namespace Keala.Middleware

open Keala.Js Keala.Http
open OrderedMap

variable {β : Type} {config : CacheConfig} {reader : BodyReader β} {s t : CacheRun}

/-- The entries stand in the order of their last use, all in turns that are over. -/
structure Recency (s : CacheRun) : Prop where
  aged : Aged Stored.used s.cache.store
  past : ∀ e ∈ s.cache.store, e.2.used < s.turn

/-- An entry is stored for a new key or over the last entry. -/
def StoresLast (config : CacheConfig) (reader : BodyReader β) (s : CacheRun) :
    CacheEvent β → Prop
  | .request _ _ => True
  | .answered capture answer now =>
      entryOf config reader capture answer now ≠ none → behind s.cache.store capture.key = []

/-- No entry that the loop leaves was last used before one that it removes. -/
def EvictsLeastRecent (config : CacheConfig) (reader : BodyReader β) (s t : CacheRun)
    (capture : Capture) (answer : Answer β) (now : ℚ) : Prop :=
  ∀ entry, entryOf config reader capture answer now = some entry →
    ∀ key evicted,
      get? (insertEntry s.cache capture.key ⟨entry, capture.request, s.turn⟩).store key =
          some evicted →
        key ∉ keys t.cache.store → ∀ e ∈ t.cache.store, evicted.used ≤ e.2.used

/-! ### Steps -/

/-- Stored in this turn, an entry is the most recent. -/
theorem used_lt_of_mem_set {store : List (JsString × Stored)} (hnodup : (keys store).Nodup)
    {turn : ℕ} (h : ∀ e ∈ store, e.2.used < turn) {key : JsString} {stored : Stored}
    (hstored : stored.used = turn) {e : JsString × Stored}
    (he : e ∈ OrderedMap.set store key stored) : e.2.used < turn + 1 := by
  obtain ⟨k, b⟩ := e
  rw [mem_set_iff hnodup] at he
  split at he
  · rw [← he, hstored]
    exact Nat.lt_succ_self turn
  · exact (h _ he).trans (Nat.lt_succ_self turn)

/-- The order after `store.set`. -/
theorem Recency.set (h : Recency s) {key : JsString} {stored : Stored}
    (hstored : stored.used = s.turn) (hlast : behind s.cache.store key = []) :
    Aged Stored.used (OrderedMap.set s.cache.store key stored) := by
  have hall : ∀ e ∈ s.cache.store, e.2.used ≤ stored.used := by
    intro e he
    rw [hstored]
    exact (h.past e he).le
  cases hprevious : get? s.cache.store key with
  | none => exact h.aged.set_new hprevious hall
  | some previous =>
      refine h.aged.set_old hprevious hall ?_
      rw [hlast]
      exact fun e he => absurd he List.not_mem_nil

theorem Recency.request (hinv : CacheInv config s) (h : Recency s) (c : CacheRequest) (now : ℚ)
    (hstep : (responseCache config reader).step s (.request c now) = some t) : Recency t := by
  have hlook := lookup_spec config s.cache s.turn c now
  simp only [responseCache] at hstep
  generalize lookup config s.cache s.turn c now = result at hlook hstep
  have hpast : ∀ e ∈ s.cache.store, e.2.used < s.turn + 1 :=
    fun e he => (h.past e he).trans (Nat.lt_succ_self _)
  have hdeleted : ∀ e ∈ OrderedMap.delete s.cache.store (keyOf config.includeQuery c),
      e.2.used < s.turn :=
    fun e he => h.past e ((delete_sublist _ _).subset he)
  cases hlook with
  | passed =>
      cases hstep
      exact ⟨h.aged, hpast⟩
  | absent mayStore =>
      cases hstep
      exact ⟨h.aged, hpast⟩
  | replayed cached hquery hanonymous hstored hfresh =>
      cases hstep
      refine ⟨?_, ?_⟩
      · -- The entry goes from its place and comes back at the end.
        apply (h.aged.delete _).set_new (get?_delete_self hinv.nodup _)
        exact fun e he => (hdeleted e he).le
      · intro e he
        exact used_lt_of_mem_set (hinv.nodup.sublist (keys_delete_sublist _ _)) hdeleted rfl he
  | expelled cached mayStore hstored =>
      cases hstep
      refine ⟨h.aged.delete _, ?_⟩
      exact fun e he => (hdeleted e he).trans (Nat.lt_succ_self _)

/-- An entry stored in order keeps the order, and evicts the least recent. -/
theorem Recency.answered (hinv : CacheInv config s) (h : Recency s) {capture : Capture}
    {answer : Answer β} {now : ℚ}
    (hlast : StoresLast config reader s (.answered capture answer now))
    (hstep : (responseCache config reader).step s (.answered capture answer now) = some t) :
    Recency t ∧ EvictsLeastRecent config reader s t capture answer now := by
  simp only [responseCache] at hstep
  split at hstep
  · cases hstep
    cases hentry : entryOf config reader capture answer now with
    | none =>
        rw [storeAnswer_none hentry]
        refine ⟨⟨h.aged, fun e he => (h.past e he).trans (Nat.lt_succ_self _)⟩, ?_⟩
        intro entry hstored
        rw [hentry] at hstored
        cases hstored
    | some entry =>
        rw [storeAnswer_some hentry hinv.bytes]
        have hbehind := hlast (by rw [hentry]; exact Option.some_ne_none entry)
        have haged : Aged Stored.used
            (OrderedMap.set s.cache.store capture.key ⟨entry, capture.request, s.turn⟩) :=
          h.set rfl hbehind
        have hnodup := nodup_set hinv.nodup capture.key
          (⟨entry, capture.request, s.turn⟩ : Stored)
        obtain ⟨hsuffix, -, -⟩ := evict_spec config
          (OrderedMap.set s.cache.store capture.key ⟨entry, capture.request, s.turn⟩)
        refine ⟨⟨haged.sublist hsuffix.sublist, ?_⟩, ?_⟩
        · intro e he
          exact used_lt_of_mem_set hinv.nodup h.past rfl (hsuffix.sublist.subset he)
        · intro stored hstored key evicted hkey hgone e he
          rw [hentry] at hstored
          cases hstored
          exact haged.oldest hsuffix hnodup hkey hgone he
  · cases hstep

/-! ### Runs -/

theorem recency_of_reach
    (h : (responseCache config reader).Reach (StoresLast config reader) s) :
    CacheInv config s ∧ Recency s := by
  induction h with
  | start =>
      exact ⟨.start, List.Pairwise.nil, fun e he => absurd he List.not_mem_nil⟩
  | @step s t event _ hcond hstep ih =>
      refine ⟨ih.1.step hstep, ?_⟩
      cases event with
      | request c now => exact .request ih.1 ih.2 c now hstep
      | answered capture answer now => exact (Recency.answered ih.1 ih.2 hcond hstep).1

/-- In a run that stores each entry for a new key or over the last one, every eviction
is of the least recently used. -/
theorem evicts_least_recent (h : (responseCache config reader).Reach (StoresLast config reader) s)
    {capture : Capture} {answer : Answer β} {now : ℚ}
    (hlast : StoresLast config reader s (.answered capture answer now))
    (hstep : (responseCache config reader).step s (.answered capture answer now) = some t) :
    EvictsLeastRecent config reader s t capture answer now := by
  obtain ⟨hinv, hrecency⟩ := recency_of_reach h
  exact (Recency.answered hinv hrecency hlast hstep).2

def pairCache : Lts CacheRun (CacheEvent JsString) :=
  responseCache (cacheConfig { defaultOptions with max := some (.ofNat 2) }) textReader

def requestAt (target : JsString) : CacheEvent JsString := .request (pageRequest target) 0

def answeredAt (target : JsString) (now : ℚ) : CacheEvent JsString :=
  .answered (pageCapture target) pageAnswer now

theorem evicts_least_recent_third :
    EvictsLeastRecent (cacheConfig { defaultOptions with max := some (.ofNat 2) }) textReader
      ⟨⟨[pageEntry (js "/a") 1 3, pageEntry (js "/b") 2 4], 8⟩, [pageCapture (js "/c")], 5⟩
      ⟨⟨[pageEntry (js "/b") 2 4, pageEntry (js "/c") 3 5], 8⟩, [], 6⟩
      (pageCapture (js "/c")) pageAnswer 3 := by
  have hasked : pairCache.Reach (StoresLast
      (cacheConfig { defaultOptions with max := some (.ofNat 2) }) textReader)
      ⟨⟨[], 0⟩, [pageCapture (js "/c"), pageCapture (js "/b"), pageCapture (js "/a")], 3⟩ :=
    .step (e := requestAt (js "/c")) (.step (e := requestAt (js "/b"))
      (.step (e := requestAt (js "/a")) .start trivial rfl) trivial rfl) trivial
      (by decide +kernel)
  have hfirst : pairCache.Reach _
      ⟨⟨[pageEntry (js "/a") 1 3], 4⟩, [pageCapture (js "/c"), pageCapture (js "/b")], 4⟩ :=
    .step hasked (e := answeredAt (js "/a") 1) (fun _ => by decide +kernel) (by decide +kernel)
  have hsecond : pairCache.Reach _
      ⟨⟨[pageEntry (js "/a") 1 3, pageEntry (js "/b") 2 4], 8⟩, [pageCapture (js "/c")], 5⟩ :=
    .step hfirst (e := answeredAt (js "/b") 2) (fun _ => by decide +kernel) (by decide +kernel)
  exact evicts_least_recent hsecond (fun _ => by decide +kernel) (by decide +kernel)

/-- Captured twice, "/a" is stored before "/b" and again after it, in its old place. It
goes first. -/
theorem overwritten_entry_evicted_first :
    ∃ s t, pairCache.runFrom ⟨⟨[], 0⟩, [], 0⟩
        [requestAt (js "/a"), requestAt (js "/a"), requestAt (js "/b"), requestAt (js "/c"),
          answeredAt (js "/a") 1, answeredAt (js "/b") 2, answeredAt (js "/a") 3] = some s ∧
      pairCache.step s (answeredAt (js "/c") 4) = some t ∧
      s.cache.store = [pageEntry (js "/a") 3 6, pageEntry (js "/b") 2 5] ∧
      t.cache.store = [pageEntry (js "/b") 2 5, pageEntry (js "/c") 4 7] ∧
      ¬ EvictsLeastRecent (cacheConfig { defaultOptions with max := some (.ofNat 2) }) textReader
        s t (pageCapture (js "/c")) pageAnswer 4 := by
  refine ⟨⟨⟨[pageEntry (js "/a") 3 6, pageEntry (js "/b") 2 5], 8⟩, [pageCapture (js "/c")], 7⟩,
    ⟨⟨[pageEntry (js "/b") 2 5, pageEntry (js "/c") 4 7], 8⟩, [], 8⟩,
    by decide +kernel, by decide +kernel, rfl, rfl, ?_⟩
  intro h
  have hold := h (pageEntry (js "/c") 4 7).2.entry (by decide +kernel)
    (pageEntry (js "/a") 3 6).1 (pageEntry (js "/a") 3 6).2 (by decide +kernel)
    (by decide +kernel) (pageEntry (js "/b") 2 5) List.mem_cons_self
  exact absurd hold (by decide +kernel)

end Keala.Middleware
