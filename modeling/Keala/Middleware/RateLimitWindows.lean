import Keala.Lib.FixedWindow
import Keala.Middleware.RateLimit
import Mathlib.Algebra.Order.Ring.Rat
import Mathlib.Data.List.Dedup
import Mathlib.Data.List.Perm.Subperm

/-!
The hits of a key fall into fixed windows, and a request is refused exactly
when its window holds more than the limit.
-/

namespace Keala.Middleware

open Keala.Js
open FixedWindow

def timesOf (key : JsString) (hits : List Hit) : List ℚ :=
  (hits.filter fun h => decide (h.key = key)).map Hit.now

def bucketOf (windowMs : ℚ) (w : Window ℚ) : RateLimitBucket :=
  ⟨w.times.length, windowEnd windowMs w.start⟩

def bucketsAfter (config : RateLimitConfig) (hits : List Hit) : Buckets :=
  hits.foldl (fun buckets request => (limitRequest config buckets request).1) []

def distinctKeys (hits : List Hit) : ℕ := (hits.map Hit.key).dedup.length

theorem timesOf_concat_self (hits : List Hit) (request : Hit) :
    timesOf request.key (hits ++ [request]) = timesOf request.key hits ++ [request.now] := by
  simp [timesOf]

theorem timesOf_concat_ne (hits : List Hit) {request : Hit} {key : JsString}
    (h : request.key ≠ key) : timesOf key (hits ++ [request]) = timesOf key hits := by
  simp [timesOf, h]

structure Tracks (windowMs : ℚ) (hits : List Hit) (buckets : Buckets) : Prop where
  nodup : (OrderedMap.keys buckets).Nodup
  keys : OrderedMap.keys buckets ⊆ hits.map Hit.key
  bucket : ∀ key, OrderedMap.get? buckets key =
    (windows (windowEnd windowMs) (timesOf key hits)).getLast?.map (bucketOf windowMs)

theorem Tracks.nil (windowMs : ℚ) : Tracks windowMs [] [] :=
  ⟨List.nodup_nil, List.nil_subset _, fun _ => rfl⟩

variable {windowMs : ℚ} {hits : List Hit} {buckets : Buckets} {request : Hit}

theorem Tracks.set (h : Tracks windowMs hits buckets) {w : Window ℚ}
    (hw : (windows (windowEnd windowMs)
      (timesOf request.key (hits ++ [request]))).getLast? = some w) :
    Tracks windowMs (hits ++ [request])
      (OrderedMap.set buckets request.key (bucketOf windowMs w)) := by
  refine ⟨OrderedMap.nodup_set h.nodup _ _, ?_, ?_⟩
  · rw [OrderedMap.keys_set, List.map_append]
    split
    · exact List.subset_append_of_subset_left _ h.keys
    · exact List.append_subset.mpr ⟨List.subset_append_of_subset_left _ h.keys,
        List.subset_append_right _ _⟩
  · intro key
    rw [OrderedMap.get?_set]
    split
    · next heq =>
        subst heq
        rw [hw]
        rfl
    · next hne => rw [timesOf_concat_ne hits hne, h.bucket key]

theorem Tracks.length (h : Tracks windowMs hits buckets) : buckets.length ≤ distinctKeys hits := by
  have hsub : OrderedMap.keys buckets ⊆ (hits.map Hit.key).dedup :=
    fun k hk => List.mem_dedup.mpr (h.keys hk)
  have hlength := (h.nodup.subperm hsub).length_le
  rwa [OrderedMap.keys, List.length_map] at hlength

theorem openBucket_kept {maxKeys now : ℚ} {key : JsString}
    (h : ((OrderedMap.set buckets key ⟨1, windowEnd windowMs now⟩).length : ℚ) ≤ maxKeys) :
    openBucket (.finite maxKeys) windowMs now buckets key =
      (OrderedMap.set buckets key ⟨1, windowEnd windowMs now⟩, ⟨1, windowEnd windowMs now⟩) := by
  rw [openBucket, if_neg]
  have hnot := not_lt.mpr h
  simpa [Number.lt, Number.ofNat] using hnot

/-- One more hit, by what the last window of its key says. -/
theorem Tracks.hit (h : Tracks windowMs hits buckets) {maxKeys : ℚ}
    (hkeys : (distinctKeys (hits ++ [request]) : ℚ) ≤ maxKeys) :
    ∃ w, (windows (windowEnd windowMs)
        (timesOf request.key (hits ++ [request]))).getLast? = some w ∧
      Middleware.hit (.finite maxKeys) windowMs request.now buckets request.key =
        (OrderedMap.set buckets request.key (bucketOf windowMs w), bucketOf windowMs w) := by
  have hopen : ∀ {w : Window ℚ}, w = ⟨request.now, []⟩ →
      (windows (windowEnd windowMs) (timesOf request.key (hits ++ [request]))).getLast? = some w →
      openBucket (.finite maxKeys) windowMs request.now buckets request.key =
        (OrderedMap.set buckets request.key (bucketOf windowMs w), bucketOf windowMs w) := by
    rintro w rfl hw
    apply openBucket_kept
    have hlength := (h.set hw).length
    exact (Nat.cast_le.mpr hlength).trans hkeys
  rw [Middleware.hit, h.bucket request.key, timesOf_concat_self, windows_concat, extend]
  rw [timesOf_concat_self, windows_concat, extend] at hopen
  cases hlast : (windows (windowEnd windowMs) (timesOf request.key hits)).getLast? with
  | none =>
      rw [hlast] at hopen
      exact ⟨_, rfl, hopen rfl rfl⟩
  | some w =>
      rw [hlast] at hopen
      have hreset : (bucketOf windowMs w).resetAt = windowEnd windowMs w.start := rfl
      dsimp only [Option.map_some] at hopen ⊢
      rw [hreset]
      by_cases hwithin : request.now < windowEnd windowMs w.start
      · rw [if_pos hwithin, if_pos hwithin]
        refine ⟨_, List.getLast?_concat, ?_⟩
        have hnext : bucketOf windowMs { w with later := w.later ++ [request.now] } =
            ⟨w.times.length + 1, windowEnd windowMs w.start⟩ := by
          simp [bucketOf, Window.times]
        rw [hnext]
        rfl
      · rw [if_neg hwithin] at hopen ⊢
        rw [if_neg hwithin]
        exact ⟨_, List.getLast?_concat, hopen rfl List.getLast?_concat⟩

theorem distinctKeys_le_concat (hits : List Hit) (request : Hit) :
    distinctKeys hits ≤ distinctKeys (hits ++ [request]) := by
  rw [distinctKeys, distinctKeys, List.map_append]
  have hsub : (hits.map Hit.key).dedup ⊆ (hits.map Hit.key ++ [request.key]).dedup := by
    intro k hk
    rw [List.mem_dedup] at hk ⊢
    exact List.mem_append_left _ hk
  exact ((List.nodup_dedup _).subperm hsub).length_le

/-- By induction on the hits, from the last one back. -/
theorem bucketsAfter_tracks (config : RateLimitConfig) {hits : List Hit}
    (hkeys : (distinctKeys hits : ℚ) ≤ config.maxKeys) :
    Tracks config.windowMs hits (bucketsAfter config hits) := by
  induction hits using List.reverseRecOn with
  | nil => exact Tracks.nil _
  | append_singleton hits request ih =>
      have hle := distinctKeys_le_concat hits request
      have hfront := ih ((Nat.cast_le.mpr hle).trans hkeys)
      obtain ⟨w, hw, hhit⟩ := hfront.hit hkeys
      rw [bucketsAfter, List.foldl_append, List.foldl_cons, List.foldl_nil, limitRequest]
      change Tracks _ _ (Middleware.hit _ _ _ (bucketsAfter config hits) _).1
      rw [hhit]
      exact hfront.set hw

/-- Over hits in the order of a clock that never goes back, on no more keys than
the store keeps: the hits of a key fall into fixed windows, a request is refused
exactly when its window holds more than `limit`, and the other keys keep their
buckets. A window lasts `windowMs` as far as doubles can say it, to the
millisecond for whole ones. -/
theorem fixed_window_limit {options : RateLimitOptions} {config : RateLimitConfig}
    (hconfig : rateLimitConfig options = .ok config) (hits : List Hit) (request : Hit)
    (hclock : (hits ++ [request]).Pairwise fun a b => a.now ≤ b.now)
    (hkeys : (distinctKeys (hits ++ [request]) : ℚ) ≤ config.maxKeys) :
    options.windowMs.getD (.ofNat 60000) = .finite config.windowMs ∧
      (∀ start windowMs : ℕ, config.windowMs = windowMs → start + windowMs < 2 ^ 53 →
        windowEnd config.windowMs start = start + windowMs) ∧
      ∃ ws current,
        Partitions (windowEnd config.windowMs) (timesOf request.key (hits ++ [request]))
          (ws ++ [current]) ∧
        ((limitRequest config (bucketsAfter config hits) request).2.isRefused = true ↔
          config.limit < current.times.length) ∧
        ∀ key, key ≠ request.key →
          OrderedMap.get? (limitRequest config (bucketsAfter config hits) request).1 key =
            OrderedMap.get? (bucketsAfter config hits) key := by
  have hle := distinctKeys_le_concat hits request
  have htracks := bucketsAfter_tracks config ((Nat.cast_le.mpr hle).trans hkeys)
  obtain ⟨current, hcurrent, hhit⟩ := htracks.hit hkeys
  obtain ⟨ws, hws⟩ := List.getLast?_eq_some_iff.mp hcurrent
  have htimes : (timesOf request.key (hits ++ [request])).Pairwise (· ≤ ·) :=
    List.pairwise_map.mpr (hclock.filter _)
  refine ⟨(rateLimitConfig_ok hconfig).2.1, ?_, ws, current, hws ▸ windows_partitions _ htimes,
    ?_, ?_⟩
  · intro start windowMs hwindow hsmall
    rw [hwindow]
    exact windowEnd_whole hsmall
  · rw [limitRequest, hhit]
    change (check config (bucketOf config.windowMs current) request.now).isRefused = true ↔ _
    rw [check]
    split
    · next hlimit => exact iff_of_true rfl hlimit
    · next hlimit => exact iff_of_false Bool.false_ne_true hlimit
  · intro key hne
    rw [limitRequest, hhit]
    exact OrderedMap.get?_set_ne _ _ hne.symm

/-- A window of ten: the third hit within it is refused, the one at its end is not. -/
def briefOptions : RateLimitOptions where
  limit := some (.ofNat 2)
  windowMs := some (.ofNat 10)
  retryAfterSeconds := none
  headers := false
  maxKeys := some (.ofNat 2)

theorem fixed_window_limit_brief : ∃ config, rateLimitConfig briefOptions = .ok config ∧
    ∃ ws current, Partitions (windowEnd config.windowMs) [0, 4, 9] (ws ++ [current]) ∧
      config.limit < current.times.length := by
  have hkeys :
      ((distinctKeys [⟨0, js "a"⟩, ⟨4, js "a"⟩, ⟨4, js "b"⟩, ⟨9, js "a"⟩] : ℕ) : ℚ) ≤ 2 := by
    decide
  have hconfig : rateLimitConfig briefOptions = .ok _ := rfl
  obtain ⟨-, -, ws, current, hws, hrefused, -⟩ := fixed_window_limit hconfig
    [⟨0, js "a"⟩, ⟨4, js "a"⟩, ⟨4, js "b"⟩] ⟨9, js "a"⟩ (by decide) hkeys
  exact ⟨_, hconfig, ws, current, hws, hrefused.mp (by decide +kernel)⟩

/-- A window a little longer than 3.3 seconds, by less than a clock reading of today
can be told from the next double. -/
def frayedOptions : RateLimitOptions where
  limit := some (.ofNat 1)
  windowMs := some (.finite (3300 + 1 / 2 ^ 41))
  retryAfterSeconds := none
  headers := false
  maxKeys := none

def frayedConfig : RateLimitConfig where
  limit := 1
  windowMs := 3300 + 1 / 2 ^ 41
  retryAfter := .ofNat 1
  emitHeaders := false
  maxKeys := 10000
  limit_pos := by decide
  windowMs_pos := by norm_num
  maxKeys_pos := by decide

theorem rateLimitConfig_frayed : rateLimitConfig frayedOptions = .ok frayedConfig := by
  have hpos : (1 : ℚ) ≤ 3300 + 1 / 2 ^ 41 := by norm_num
  have hwindow : positive (js "rateLimit() requires a positive windowMs")
      (frayedOptions.windowMs.getD (.ofNat 60000)) = .ok ⟨3300 + 1 / 2 ^ 41, hpos⟩ := dif_pos hpos
  rw [rateLimitConfig, hwindow]
  rfl

/-- The second hit falls into the window of the first and is let through: the end of
the window was rounded down to it. -/
theorem frayed_window_admits : ∃ current, rateLimitConfig frayedOptions = .ok frayedConfig ∧
    roundDouble frayedConfig.windowMs = .finite frayedConfig.windowMs ∧
    Partitions (fun start => start + frayedConfig.windowMs) [1700000000000, 1700000003300]
      [current] ∧
    frayedConfig.limit < current.times.length ∧
    (limitRequest frayedConfig (bucketsAfter frayedConfig [⟨1700000000000, js "a"⟩])
      ⟨1700000003300, js "a"⟩).2.isRefused = false := by
  refine ⟨⟨1700000000000, [1700000003300]⟩, rateLimitConfig_frayed, by decide +kernel, ?_,
    by decide +kernel, by decide +kernel⟩
  refine ⟨rfl, ?_, List.pairwise_singleton _ _⟩
  intro w hw t ht
  obtain rfl := List.mem_singleton.mp hw
  obtain rfl := List.mem_singleton.mp ht
  decide +kernel

end Keala.Middleware
