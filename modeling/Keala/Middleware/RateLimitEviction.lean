import Keala.Lib.Lts
import Keala.Middleware.RateLimit
import Mathlib.Algebra.Order.Ring.Rat

/-!
Which buckets the bound of the store drops. The `Map` iterates from the first
insertion on, which is the order of the windows until a lapsed one is opened
again in its old place.
-/

namespace Keala.Middleware

open Keala.Js
open OrderedMap

structure StoreState where
  buckets : Buckets
  /-- The time of the last hit. -/
  clock : Option ℚ
  deriving DecidableEq

/-- The clock does not go back. -/
def StoreState.mayHit (s : StoreState) (now : ℚ) : Bool :=
  match s.clock with
  | none => true
  | some clock => clock ≤ now

def rateLimitStore (maxKeys : Number) (windowMs : ℚ) : Lts StoreState Hit where
  start := ⟨[], none⟩
  step s request :=
    if s.mayHit request.now then
      some ⟨(hit maxKeys windowMs request.now s.buckets request.key).1, some request.now⟩
    else none

/-- What a hit leaves: at most `maxKeys` buckets, its own among them, and none that
opened before one that was dropped. -/
structure DropsOldest (maxKeys : Number) (s : StoreState) (request : Hit) (t : StoreState) :
    Prop where
  bound : maxKeys.lt (.ofNat t.buckets.length) = false
  own : request.key ∈ keys t.buckets
  oldest : ∀ key bucket, get? s.buckets key = some bucket → key ∉ keys t.buckets →
    ∀ e ∈ t.buckets, bucket.resetAt ≤ e.2.resetAt

/-- A hit opens no lapsed window again in front of one that opened before. -/
def OpensBehind (windowMs : ℚ) (s : StoreState) (request : Hit) : Prop :=
  ∀ bucket, get? s.buckets request.key = some bucket → bucket.resetAt ≤ request.now →
    ∀ e ∈ behind s.buckets request.key, windowEnd windowMs request.now ≤ e.2.resetAt

/-! ### The loop -/

theorem dropFirst_suffix (toDrop : Number) (buckets : Buckets) :
    dropFirst toDrop buckets <:+ buckets := by
  induction buckets generalizing toDrop with
  | nil => exact List.suffix_refl _
  | cons entry rest ih =>
      rw [dropFirst]
      split
      · exact List.suffix_refl _
      · exact (ih _).trans (List.suffix_cons entry rest)

theorem dropFirst_length {toDrop : ℚ} {buckets : Buckets} (h : toDrop ≤ buckets.length) :
    ((dropFirst (.finite toDrop) buckets).length : ℚ) ≤ buckets.length - toDrop := by
  induction buckets generalizing toDrop with
  | nil =>
      rw [dropFirst, List.length_nil, Nat.cast_zero, zero_sub, neg_nonneg]
      simpa using h
  | cons entry rest ih =>
      rw [dropFirst]
      split
      · next hle =>
          have hle : toDrop ≤ 0 := by simpa [Number.ofNat] using hle
          exact le_sub_self_iff _ |>.mpr hle
      · have hrest : toDrop - 1 ≤ rest.length := by
          rw [List.length_cons, Nat.cast_add, Nat.cast_one] at h
          exact sub_le_iff_le_add.mpr h
        have hdropped := ih hrest
        rw [List.length_cons, Nat.cast_add, Nat.cast_one]
        change ((dropFirst (.finite (toDrop - (1 : ℕ))) rest).length : ℚ) ≤ _
        rw [Nat.cast_one]
        linarith

/-- Short of all of them, the last one stays. -/
theorem mem_dropFirst {toDrop : ℚ} {buckets : Buckets} {entry : JsString × RateLimitBucket}
    (h : toDrop ≤ buckets.length) :
    entry ∈ dropFirst (.finite toDrop) (buckets ++ [entry]) := by
  induction buckets generalizing toDrop with
  | nil =>
      have hle : toDrop ≤ 0 := by simpa using h
      rw [List.nil_append, dropFirst, if_pos (by simpa [Number.ofNat] using hle)]
      exact List.mem_cons_self
  | cons first rest ih =>
      rw [List.cons_append, dropFirst]
      split
      · exact List.mem_cons_of_mem _ (List.mem_append_right _ List.mem_cons_self)
      · have hrest : toDrop - (1 : ℕ) ≤ rest.length := by
          rw [List.length_cons, Nat.cast_add] at h
          exact sub_le_iff_le_add.mpr h
        exact ih hrest

/-! ### One hit -/

variable {maxKeys : Number} {windowMs : ℚ} {s t : StoreState} {request : Hit}

/-- The buckets stand in the order of their windows, and the clock has reached them all. -/
structure StoreInv (maxKeys : Number) (windowMs : ℚ) (s : StoreState) : Prop where
  nodup : (keys s.buckets).Nodup
  aged : Aged RateLimitBucket.resetAt s.buckets
  bound : maxKeys.lt (.ofNat s.buckets.length) = false
  clock : ∀ e ∈ s.buckets, ∀ now, s.mayHit now = true → e.2.resetAt ≤ windowEnd windowMs now

theorem number_cases (h : (Number.ofNat 1).le maxKeys = true) :
    maxKeys = .infinity ∨ ∃ m : ℚ, 1 ≤ m ∧ maxKeys = .finite m := by
  cases maxKeys with
  | nan => cases h
  | negInfinity => cases h
  | finite m =>
      have hle : 1 ≤ m := by simpa [Number.ofNat] using h
      exact .inr ⟨m, hle, rfl⟩
  | infinity => exact .inl rfl

/-- The end of `openBucket`: at most one bucket too many, which goes from the front. -/
theorem trimmed (hmax : (Number.ofNat 1).le maxKeys = true) {buckets : Buckets}
    (entry : JsString × RateLimitBucket) (hbound : maxKeys.lt (.ofNat buckets.length) = false) :
    let trimmed := if maxKeys.lt (.ofNat (buckets ++ [entry]).length)
      then dropFirst ((Number.ofNat (buckets ++ [entry]).length).sub maxKeys) (buckets ++ [entry])
      else buckets ++ [entry]
    trimmed <:+ buckets ++ [entry] ∧ maxKeys.lt (.ofNat trimmed.length) = false ∧
      entry ∈ trimmed := by
  dsimp only
  split
  · next hover =>
      rcases number_cases hmax with rfl | ⟨m, hm, rfl⟩
      · cases hover
      · have hle : (buckets.length : ℚ) ≤ m := by simpa [Number.ofNat] using hbound
        have hlength : ((buckets ++ [entry]).length : ℚ) = buckets.length + 1 := by simp
        refine ⟨dropFirst_suffix _ _, ?_, ?_⟩
        · have hdrop : ((buckets ++ [entry]).length : ℚ) - m ≤ (buckets ++ [entry]).length := by
            linarith
          have hdropped := dropFirst_length hdrop
          have hfits : ((dropFirst (.finite ((buckets ++ [entry]).length - m))
              (buckets ++ [entry])).length : ℚ) ≤ m := by linarith
          exact decide_eq_false (not_lt.mpr hfits)
        · refine mem_dropFirst ?_
          rw [hlength]
          linarith
  · next hunder =>
      exact ⟨List.suffix_refl _, by simpa using hunder,
        List.mem_append_right _ List.mem_cons_self⟩

theorem mem_set_age (h : StoreInv maxKeys windowMs s) (hnow : s.mayHit request.now = true)
    {bucket : RateLimitBucket} (hbucket : bucket.resetAt ≤ windowEnd windowMs request.now)
    {e : JsString × RateLimitBucket} (he : e ∈ OrderedMap.set s.buckets request.key bucket) :
    e.2.resetAt ≤ windowEnd windowMs request.now := by
  obtain ⟨key, b⟩ := e
  rw [mem_set_iff h.nodup] at he
  split at he
  · rw [← he]
    exact hbucket
  · exact h.clock _ he _ hnow

/-- The clock moves on to a hit. -/
theorem StoreInv.next {buckets : Buckets} (hnodup : (keys buckets).Nodup)
    (haged : Aged RateLimitBucket.resetAt buckets)
    (hbound : maxKeys.lt (.ofNat buckets.length) = false)
    (hages : ∀ e ∈ buckets, e.2.resetAt ≤ windowEnd windowMs request.now) :
    StoreInv maxKeys windowMs ⟨buckets, some request.now⟩ := by
  refine ⟨hnodup, haged, hbound, ?_⟩
  intro e he now hnow
  have hle : request.now ≤ now := of_decide_eq_true hnow
  exact (hages e he).trans (windowEnd_mono windowMs hle)

/-- A hit that keeps the keys drops nothing. -/
theorem overwrite_spec (h : StoreInv maxKeys windowMs s) (hnow : s.mayHit request.now = true)
    {old bucket : RateLimitBucket} (hold : get? s.buckets request.key = some old)
    (hbucket : bucket.resetAt ≤ windowEnd windowMs request.now)
    (haged : Aged RateLimitBucket.resetAt (OrderedMap.set s.buckets request.key bucket)) :
    StoreInv maxKeys windowMs
        ⟨OrderedMap.set s.buckets request.key bucket, some request.now⟩ ∧
      DropsOldest maxKeys s request
        ⟨OrderedMap.set s.buckets request.key bucket, some request.now⟩ := by
  have hkey : request.key ∈ keys s.buckets := mem_keys (mem_of_get? hold)
  have hkeys : keys (OrderedMap.set s.buckets request.key bucket) = keys s.buckets := by
    rw [keys_set, if_pos hkey]
  have hlength : (OrderedMap.set s.buckets request.key bucket).length = s.buckets.length := by
    have hmap := congrArg List.length hkeys
    rwa [keys, keys, List.length_map, List.length_map] at hmap
  have hbound : maxKeys.lt
      (.ofNat (OrderedMap.set s.buckets request.key bucket).length) = false := by
    rw [hlength]
    exact h.bound
  refine ⟨.next (nodup_set h.nodup _ _) haged hbound fun e he => mem_set_age h hnow hbucket he,
    hbound, ?_, ?_⟩
  · rw [hkeys]
    exact hkey
  · intro key b hb hdropped
    rw [hkeys] at hdropped
    exact absurd (mem_keys (mem_of_get? hb)) hdropped

/-- A hit on a new key, with the trimming that may follow. -/
theorem insert_spec (hmax : (Number.ofNat 1).le maxKeys = true)
    (h : StoreInv maxKeys windowMs s) (hnow : s.mayHit request.now = true)
    (hnone : get? s.buckets request.key = none) :
    StoreInv maxKeys windowMs
        ⟨(openBucket maxKeys windowMs request.now s.buckets request.key).1, some request.now⟩ ∧
      DropsOldest maxKeys s request
        ⟨(openBucket maxKeys windowMs request.now s.buckets request.key).1, some request.now⟩ := by
  have hnew : ∀ e ∈ s.buckets, e.2.resetAt ≤ windowEnd windowMs request.now :=
    fun e he => h.clock e he _ hnow
  have haged := h.aged.set_new (a := ⟨1, windowEnd windowMs request.now⟩) hnone hnew
  have hnodup := nodup_set h.nodup request.key
    (⟨1, windowEnd windowMs request.now⟩ : RateLimitBucket)
  have hset := set_of_get?_eq_none hnone (⟨1, windowEnd windowMs request.now⟩ : RateLimitBucket)
  obtain ⟨hsuffix, hbound, hown⟩ :=
    trimmed hmax (request.key, ⟨1, windowEnd windowMs request.now⟩) h.bound
  rw [openBucket, hset]
  rw [hset] at haged hnodup
  refine ⟨.next (hnodup.sublist (hsuffix.sublist.map Prod.fst)) (haged.sublist hsuffix.sublist)
    hbound ?_, hbound, mem_keys hown, ?_⟩
  · intro e he
    rcases List.mem_append.mp (hsuffix.sublist.subset he) with he | he
    · exact hnew e he
    · rw [List.mem_singleton] at he
      subst he
      exact le_refl _
  · intro key b hb hdropped e he
    have hne : request.key ≠ key := by
      rintro rfl
      rw [hnone] at hb
      cases hb
    have hkept : get? (s.buckets ++ [(request.key, ⟨1, windowEnd windowMs request.now⟩)]) key =
        some b := by
      rw [← hset, get?_set_ne _ _ hne, hb]
    exact haged.oldest hsuffix hnodup hkept hdropped he

/-- One hit in order keeps the order, and drops the oldest. -/
theorem hit_spec (hmax : (Number.ofNat 1).le maxKeys = true) (h : StoreInv maxKeys windowMs s)
    (hcond : OpensBehind windowMs s request)
    (hstep : (rateLimitStore maxKeys windowMs).step s request = some t) :
    StoreInv maxKeys windowMs t ∧ DropsOldest maxKeys s request t := by
  have hmay : s.mayHit request.now = true := by
    by_contra hnot
    rw [show (rateLimitStore maxKeys windowMs).step s request = none from if_neg hnot] at hstep
    cases hstep
  rw [show (rateLimitStore maxKeys windowMs).step s request = some
    ⟨(hit maxKeys windowMs request.now s.buckets request.key).1, some request.now⟩ from
    if_pos hmay] at hstep
  cases hstep
  rw [hit]
  cases hold : get? s.buckets request.key with
  | none => exact insert_spec hmax h hmay hold
  | some old =>
      dsimp only
      split
      · exact overwrite_spec h hmay hold (h.clock _ (mem_of_get? hold) _ hmay)
          (h.aged.set_same hold rfl)
      · next hlapsed =>
          have hlapsed : old.resetAt ≤ request.now := not_lt.mp hlapsed
          have haged := h.aged.set_old (a := ⟨1, windowEnd windowMs request.now⟩) hold
            (fun e he => h.clock e he _ hmay) (hcond old hold hlapsed)
          have hspec := overwrite_spec h hmay hold (le_refl _) haged
          have hopen : (openBucket maxKeys windowMs request.now s.buckets request.key).1 =
              OrderedMap.set s.buckets request.key ⟨1, windowEnd windowMs request.now⟩ := by
            rw [openBucket]
            exact if_neg (by rw [hspec.2.bound]; exact Bool.false_ne_true)
          rw [hopen]
          exact hspec

/-! ### Runs -/

/-- In a run whose hits open no lapsed window in front of an older one, every hit
drops the oldest windows only. -/
theorem drops_oldest (hmax : (Number.ofNat 1).le maxKeys = true)
    (h : (rateLimitStore maxKeys windowMs).Reach (OpensBehind windowMs) s)
    (hcond : OpensBehind windowMs s request)
    (hstep : (rateLimitStore maxKeys windowMs).step s request = some t) :
    DropsOldest maxKeys s request t := by
  have hstart : StoreInv maxKeys windowMs (rateLimitStore maxKeys windowMs).start := by
    refine ⟨List.nodup_nil, List.Pairwise.nil, ?_, fun e he => absurd he List.not_mem_nil⟩
    rcases number_cases hmax with rfl | ⟨m, hm, rfl⟩
    · rfl
    · have hpos : (0 : ℚ) ≤ m := zero_le_one.trans hm
      have hbound : ((0 : ℕ) : ℚ) ≤ m := by simpa using hpos
      exact decide_eq_false (not_lt.mpr hbound)
  have hinv : StoreInv maxKeys windowMs s :=
    Lts.Reach.invariant hstart (fun s e t hs hcond hstep => (hit_spec hmax hs hcond hstep).1) h
  exact (hit_spec hmax hinv hcond hstep).2

theorem opensBehind_new (h : get? s.buckets request.key = none) :
    OpensBehind windowMs s request := by
  intro bucket hbucket
  rw [h] at hbucket
  cases hbucket

theorem drops_oldest_third : DropsOldest (.finite 2)
    ⟨[(js "a", ⟨1, 10⟩), (js "b", ⟨1, 15⟩)], some 5⟩ ⟨11, js "c"⟩
    ⟨[(js "b", ⟨1, 15⟩), (js "c", ⟨1, 21⟩)], some 11⟩ := by
  have hfirst : (rateLimitStore (.finite 2) 10).Reach (OpensBehind 10)
      ⟨[(js "a", ⟨1, 10⟩)], some 0⟩ :=
    .step .start (e := ⟨0, js "a"⟩) (opensBehind_new rfl) (by decide +kernel)
  have hsecond : (rateLimitStore (.finite 2) 10).Reach (OpensBehind 10)
      ⟨[(js "a", ⟨1, 10⟩), (js "b", ⟨1, 15⟩)], some 5⟩ :=
    .step hfirst (e := ⟨5, js "b"⟩) (opensBehind_new rfl) (by decide +kernel)
  exact drops_oldest (by decide) hsecond (opensBehind_new rfl) (by decide +kernel)

/-- The window of "a", opened again at 10, stands before that of "b", opened at 5, and
goes first. -/
theorem reopened_window_dropped_first :
    ∃ s t, (rateLimitStore (.finite 2) 10).runFrom ⟨[], none⟩
        [⟨0, js "a"⟩, ⟨5, js "b"⟩, ⟨10, js "a"⟩] = some s ∧
      (rateLimitStore (.finite 2) 10).step s ⟨11, js "c"⟩ = some t ∧
      get? s.buckets (js "a") = some ⟨1, 10 + 10⟩ ∧ js "a" ∉ keys t.buckets ∧
      get? t.buckets (js "b") = some ⟨1, 5 + 10⟩ ∧ ¬ DropsOldest (.finite 2) s ⟨11, js "c"⟩ t := by
  refine ⟨⟨[(js "a", ⟨1, 20⟩), (js "b", ⟨1, 15⟩)], some 10⟩,
    ⟨[(js "b", ⟨1, 15⟩), (js "c", ⟨1, 21⟩)], some 11⟩, by decide +kernel, by decide +kernel,
    by decide +kernel, by decide +kernel, by decide +kernel, ?_⟩
  intro h
  have hold := h.oldest (js "a") ⟨1, 20⟩ rfl (by decide) (js "b", ⟨1, 15⟩) List.mem_cons_self
  exact absurd hold (by decide)

end Keala.Middleware
