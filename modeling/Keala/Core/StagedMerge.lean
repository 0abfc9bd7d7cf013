import Keala.Core.ErrorHeaders

/-!
The two merges of a staged record: in place, and by a rebuild for a response
whose guard refuses writes. They agree unless an array holds an empty item, or a
blank value ends the values of a name.
-/

namespace Keala.Http

open Keala.Js

/-- What `entries()` yields: the joined pairs, and the cookies one by one. -/
def Headers.listing (headers : Headers) : List (JsString × JsString) × List JsString :=
  (headers.combined, headers.getSetCookie)

/-- The names are in one order however the entries are. -/
theorem Headers.names_congr {a b : Headers}
    (h : ∀ n, n ≠ js "set-cookie" → (a.values n = [] ↔ b.values n = [])) : a.names = b.names := by
  have hperm : a.names.Perm b.names := by
    rw [List.perm_ext_iff_of_nodup (nodup_names a) (nodup_names b)]
    intro n
    rw [mem_names, mem_names]
    exact and_congr_left fun hn => not_congr (h n hn)
  have hsorted : ∀ headers : Headers, headers.names.Pairwise (· ≤ ·) := by
    intro headers
    have hsort : headers.names.Pairwise fun a b => decide (a ≤ b) = true := by
      apply List.pairwise_mergeSort
      · intro a b c hab hbc
        rw [decide_eq_true_iff] at hab hbc ⊢
        exact List.le_trans hab hbc
      · intro a b
        rw [Bool.or_eq_true, decide_eq_true_iff, decide_eq_true_iff]
        exact List.le_total a b
    exact hsort.imp fun h => of_decide_eq_true h
  exact hperm.eq_of_pairwise (fun a b _ _ hab hba => List.le_antisymm hab hba) (hsorted a)
    (hsorted b)

/-- Two lists of headers read alike when every name does. -/
theorem Headers.listing_eq_iff (a b : Headers) :
    a.listing = b.listing ↔
      (∀ n, n ≠ js "set-cookie" → a.get n = b.get n) ∧
        a.values (js "set-cookie") = b.values (js "set-cookie") := by
  rw [listing, listing, Prod.mk.injEq]
  refine and_congr_left fun _ => ⟨fun hcombined n hn => ?_, fun hget => ?_⟩
  · rw [← get?_combined a hn, ← get?_combined b hn, hcombined]
  · have hnames : a.names = b.names := by
      refine names_congr fun n hn => ?_
      rw [← getOf_eq_none_iff, ← getOf_eq_none_iff]
      exact iff_of_eq (congrArg (· = none) (hget n hn))
    rw [combined_eq, combined_eq, hnames]
    refine List.map_congr_left fun n hn => ?_
    obtain ⟨hsome, hcookie⟩ := (mem_names b n).mp hn
    have heq := hget n hcookie
    obtain ⟨value, values, hb⟩ := List.exists_cons_of_ne_nil hsome
    rw [Headers.get, Headers.get, hb] at heq
    cases ha : a.values n with
    | nil =>
        rw [ha] at heq
        cases heq
    | cons other others =>
        rw [ha] at heq
        rw [hb, Option.some.inj heq]

end Keala.Http

namespace Keala.Core

open Keala.Js Keala.Http

variable {β τ : Type}

/-! ### The rebuild -/

theorem setEntries_of_not_mem {name value : JsString} {entries : List (JsString × JsString)}
    (h : name ∉ entries.map Prod.fst) :
    Headers.setEntries name value entries = entries ++ [(name, value)] := by
  induction entries with
  | nil => rfl
  | cons entry entries ih =>
      rw [List.map_cons, List.mem_cons, not_or] at h
      rw [Headers.setEntries, if_neg (Ne.symm h.1), ih h.2, List.cons_append]

/-- Names that are new are set in their order. -/
theorem foldlM_set_eq {entries : List (JsString × JsString)} {headers : Headers}
    (hmutable : headers.immutable = false) (hnodup : (OrderedMap.keys entries).Nodup)
    (hnew : ∀ n ∈ OrderedMap.keys entries, n ∉ headers.entries.map Prod.fst) :
    (entries.foldlM (fun headers entry => headers.set entry.1 entry.2) headers :
        Except (Thrown τ) Headers) =
      .ok { headers with
        entries := headers.entries ++ entries.map fun entry => (entry.1, normalized entry.2) } := by
  induction entries generalizing headers with
  | nil => rw [List.foldlM_nil, List.map_nil, List.append_nil]; rfl
  | cons entry entries ih =>
      rw [OrderedMap.keys_cons, List.nodup_cons] at hnodup
      rw [List.foldlM_cons, Headers.set_eq headers hmutable,
        setEntries_of_not_mem (hnew _ (OrderedMap.keys_cons entry entries ▸ List.mem_cons_self))]
      have hlater : ∀ n ∈ OrderedMap.keys entries,
          n ∉ (headers.entries ++ [(entry.1, normalized entry.2)]).map Prod.fst := by
        intro n hn
        rw [List.map_append, List.mem_append, not_or, List.map_singleton, List.mem_singleton]
        refine ⟨hnew n (OrderedMap.keys_cons entry entries ▸ List.mem_cons_of_mem _ hn), ?_⟩
        rintro rfl
        exact hnodup.1 hn
      have hrest := @ih
        { headers with entries := headers.entries ++ [(entry.1, normalized entry.2)] } hmutable
        hnodup.2 hlater
      rw [List.append_assoc, List.singleton_append] at hrest
      exact hrest

/-- The rebuild writes the record over a copy of what the response carries. -/
theorem headersWith_spec (res : Response β) {record : HeaderMap}
    (hnodup : (OrderedMap.keys record).Nodup) :
    ∃ rebuilt, (headersWith res record : Except (Thrown τ) Headers) = .ok rebuilt ∧
      ∀ n, rebuilt.values n = mergedBy id record res.headers.copy n := by
  have hset : (res.headers.combined.foldlM
      (fun headers entry => headers.set entry.1 entry.2) Headers.empty :
        Except (Thrown τ) Headers) =
      .ok ⟨res.headers.combined.map fun entry => (entry.1, normalized entry.2), false⟩ := by
    rw [foldlM_set_eq rfl]
    · rfl
    · rw [keys_combined]
      exact nodup_names res.headers
    · exact fun _ _ => List.not_mem_nil
  obtain ⟨rebuilt, hrebuilt, -, hvalues⟩ :=
    foldlM_mergeEntry_spec (τ := τ) id hnodup res.headers.copy rfl
  refine ⟨rebuilt, ?_, hvalues⟩
  rw [headersWith, hset]
  change (do
    let headers ← (⟨res.headers.combined.map fun entry => (entry.1, normalized entry.2), false⟩ :
      Headers).appendAll (js "set-cookie") res.headers.getSetCookie
    record.foldlM headersWithEntry headers : Except (Thrown τ) Headers) = _
  rw [Headers.appendAll_eq _ rfl]
  have hcopy : (⟨(res.headers.combined.map fun entry => (entry.1, normalized entry.2)) ++
      res.headers.getSetCookie.map fun cookie => (js "set-cookie", normalized cookie), false⟩ :
        Headers) = res.headers.copy := by
    rw [Headers.copy, List.map_append, List.map_map]
    rfl
  change (record.foldlM headersWithEntry _ : Except (Thrown τ) Headers) = _
  rw [hcopy]
  exact hrebuilt

/-! ### The two branches -/

def frozenResponse (res : Response β) : Response β :=
  { res with headers := { res.headers with immutable := true } }

theorem keptOf_id (value : HeaderValue) : keptOf id value = (itemsOf value).map normalized := by
  cases value <;> rfl

/-- A staged value reads alike after both merges. -/
def MergesAlike (n : JsString) (value : HeaderValue) : Prop :=
  Full value ∧ (n ≠ js "set-cookie" → ¬EndsBlank (itemsOf value))

theorem getOf_wireOf_iff (value : HeaderValue) :
    getOf (wireOf value) = (getOf ((itemsOf value).map normalized)).map normalized ↔
      Full value ∧ ¬EndsBlank (itemsOf value) := by
  cases value with
  | one value =>
      refine iff_of_true (congrArg some (normalized_normalized value).symm) ⟨trivial, ?_⟩
      rintro ⟨front, last, hfront, heq, -⟩
      cases front with
      | nil => exact hfront rfl
      | cons first front =>
          obtain ⟨-, hnil⟩ := List.cons.inj heq
          simp at hnil
  | many values => exact getOf_filter_eq_iff values

theorem cookies_wireOf_iff (cookies : List JsString) (value : HeaderValue) :
    cookies ++ wireOf value = cookies ++ (itemsOf value).map normalized ↔ Full value := by
  rw [List.append_right_inj]
  refine ⟨fun h => ?_, wireOf_full⟩
  cases value with
  | one value => trivial
  | many values =>
      have hlength := congrArg List.length h
      rw [wireOf, itemsOf, List.length_map, List.length_map] at hlength
      have hall := List.length_filter_eq_length_iff.mp hlength
      intro hmem
      exact absurd (hall [] hmem) (by decide)

section
variable {record : HeaderMap} {headers : Headers}

theorem replayed_reads_iff (hnormal : headers.Normal) {n : JsString} (hn : n ≠ js "set-cookie") :
    getOf (replayed record headers n) =
        (getOf (mergedBy id record headers.copy n)).map normalized ↔
      (∀ value, OrderedMap.get? record n = some value → MergesAlike n value) ∧
        (OrderedMap.get? record n = none → ¬EndsBlank (headers.values n)) := by
  rw [replayed, mergedBy]
  cases hget : OrderedMap.get? record n with
  | none =>
      dsimp only
      have hread : (getOf (headers.reading n)).map normalized =
          (getOf (headers.values n)).map normalized := by
        rw [Headers.reading_eq headers hn, Headers.get]
        cases getOf (headers.values n) with
        | none => rfl
        | some text => exact congrArg some (normalized_normalized text)
      rw [Headers.values_copy, hread, getOf_normal_iff (normal_values hnormal n)]
      exact ⟨fun h => ⟨fun _ hsome => (by cases hsome), fun _ => h⟩, fun h => h.2 rfl⟩
  | some value =>
      dsimp only
      rw [if_neg hn, if_neg hn, keptOf_id, getOf_wireOf_iff]
      constructor
      · rintro ⟨hfull, hends⟩
        refine ⟨fun other hother => ?_, fun hnone => (by cases hnone)⟩
        obtain rfl := Option.some.inj hother
        exact ⟨hfull, fun _ => hends⟩
      · rintro ⟨halike, -⟩
        exact ⟨(halike value rfl).1, (halike value rfl).2 hn⟩

theorem replayed_cookies_iff (hnormal : headers.Normal) :
    replayed record headers (js "set-cookie") =
        (mergedBy id record headers.copy (js "set-cookie")).map normalized ↔
      ∀ value, OrderedMap.get? record (js "set-cookie") = some value →
        MergesAlike (js "set-cookie") value := by
  have hsame : (headers.values (js "set-cookie")).map normalized =
      headers.values (js "set-cookie") :=
    (List.map_congr_left (normal_values hnormal _)).trans (List.map_id _)
  have hread : (headers.copy.values (js "set-cookie")).map normalized =
      headers.values (js "set-cookie") := by
    rw [Headers.values_copy, Headers.reading_cookie, hsame, hsame]
  rw [replayed, mergedBy]
  cases OrderedMap.get? record (js "set-cookie") with
  | none => exact iff_of_true hread.symm fun _ hsome => (by cases hsome)
  | some value =>
      dsimp only
      have hitems :
          ((itemsOf value).map normalized).map normalized = (itemsOf value).map normalized := by
        rw [List.map_map]
        apply List.map_congr_left
        exact fun item _ => normalized_normalized item
      rw [if_pos rfl, if_pos rfl, keptOf_id, List.map_append, hread, hitems, cookies_wireOf_iff]
      constructor
      · intro hfull other hother
        obtain rfl := Option.some.inj hother
        exact ⟨hfull, fun hne => absurd rfl hne⟩
      · exact fun h => (h value rfl).1

end

/-- The headers that the two branches make of one record read alike exactly when
no array of the record holds an empty item or ends in a blank one, and no name
that the record leaves alone has a blank value behind others. The rebuild gives
what it makes to a `Response`, which takes a copy. -/
theorem applyStagedHeaders_guard_iff (runtime : Runtime β) {res : Response β}
    (hmutable : res.headers.immutable = false) (hnormal : res.headers.Normal)
    {record : HeaderMap} (hnodup : (OrderedMap.keys record).Nodup) :
    (applyStagedHeaders runtime res record : Except (Thrown τ) _).map
          (fun merged => merged.headers.listing) =
        (headersWith (frozenResponse res) record : Except (Thrown τ) _).map
          (fun rebuilt => rebuilt.copy.listing) ↔
      (∀ entry ∈ record, MergesAlike entry.1 entry.2) ∧
        ∀ n, n ∉ OrderedMap.keys record → n ≠ js "set-cookie" →
          ¬EndsBlank (res.headers.values n) := by
  obtain ⟨inPlace, hinPlace, -, hreplayed⟩ :=
    foldlM_applyStaged_spec (τ := τ) hnodup res.headers hmutable
  obtain ⟨rebuilt, hrebuilt, hmerged⟩ :=
    headersWith_spec (τ := τ) (frozenResponse res) hnodup
  rw [applyStagedHeaders, hinPlace, hrebuilt]
  change (Except.ok inPlace.listing : Except (Thrown τ) _) = .ok rebuilt.copy.listing ↔ _
  rw [Except.ok.injEq, Headers.listing_eq_iff]
  have hcopied : ∀ n, n ≠ js "set-cookie" → rebuilt.copy.get n =
      (getOf (mergedBy id record res.headers.copy n)).map normalized := by
    intro n hn
    rw [Headers.get, Headers.values_copy, Headers.reading_eq rebuilt hn, Headers.get, hmerged]
    change getOf ((getOf (mergedBy id record res.headers.copy n)).map normalized).toList = _
    cases (getOf (mergedBy id record res.headers.copy n)).map normalized <;> rfl
  have hjoined : rebuilt.copy.values (js "set-cookie") =
      (mergedBy id record res.headers.copy (js "set-cookie")).map normalized := by
    rw [Headers.values_copy, Headers.reading_cookie, hmerged]
    rfl
  have hplace : ∀ n, inPlace.get n = getOf (replayed record res.headers n) := by
    intro n
    rw [Headers.get, hreplayed]
  have hentries : (∀ entry ∈ record, MergesAlike entry.1 entry.2) ↔
      ∀ n value, OrderedMap.get? record n = some value → MergesAlike n value := by
    constructor
    · intro halike n value hget
      exact halike (n, value) (OrderedMap.mem_of_get? hget)
    · rintro halike ⟨n, value⟩ hentry
      exact halike n value ((OrderedMap.get?_eq_some_iff hnodup n value).mpr hentry)
  have hplain : ∀ n, n ≠ js "set-cookie" → (inPlace.get n = rebuilt.copy.get n ↔
      (∀ value, OrderedMap.get? record n = some value → MergesAlike n value) ∧
        (OrderedMap.get? record n = none → ¬EndsBlank (res.headers.values n))) := by
    intro n hn
    rw [hplace, hcopied n hn, replayed_reads_iff hnormal hn]
  rw [hreplayed, hjoined, replayed_cookies_iff hnormal, hentries]
  simp only [← OrderedMap.get?_eq_none_iff]
  constructor
  · rintro ⟨hnames, hcookies⟩
    refine ⟨fun n => ?_, fun n hnone hn => ((hplain n hn).mp (hnames n hn)).2 hnone⟩
    by_cases hn : n = js "set-cookie"
    · exact hn ▸ hcookies
    · exact ((hplain n hn).mp (hnames n hn)).1
  · rintro ⟨halike, hends⟩
    exact ⟨fun n hn => (hplain n hn).mpr ⟨halike n, fun hnone => hends n hnone hn⟩, halike _⟩

def plainResponse : Response Unit := ⟨200, [], ⟨[(js "vary", js "Origin")], false⟩, none⟩

theorem applyStagedHeaders_guard_two :
    (applyStagedHeaders ⟨fun _ => (), false⟩ plainResponse
          [(js "vary", .many [js "Accept", js "Origin"])] : Except (Thrown Unit) _).map
          (fun merged => merged.headers.listing) =
      (headersWith (frozenResponse plainResponse)
        [(js "vary", .many [js "Accept", js "Origin"])] : Except (Thrown Unit) _).map
          (fun rebuilt => rebuilt.copy.listing) := by
  have hnormal : plainResponse.headers.Normal := by
    intro entry hentry
    obtain rfl := List.mem_singleton.mp hentry
    decide
  refine (applyStagedHeaders_guard_iff _ rfl hnormal (by decide)).mpr
    ⟨fun entry hentry => ?_, fun n hn _ => ?_⟩
  · rw [List.mem_singleton.mp hentry]
    refine ⟨by change [] ∉ [js "Accept", js "Origin"]; decide, fun _ => ?_⟩
    rintro ⟨front, last, -, heq, hblank⟩
    have hlast := congrArg List.getLast? heq
    rw [List.getLast?_concat] at hlast
    obtain rfl := Option.some.inj hlast
    exact absurd hblank (by decide)
  · -- The record names all that the response carries.
    have hnone : plainResponse.headers.values n = [] := by
      rw [Headers.values, plainResponse, List.filter_cons_of_neg]
      · rfl
      · simpa [eq_comm] using hn
    rw [hnone]
    rintro ⟨front, last, -, heq, -⟩
    simp at heq

/-- In place an empty item is left out, the rebuild keeps it as ", Accept". -/
theorem headersWith_keeps_empty :
    (applyStagedHeaders ⟨fun _ => (), false⟩ plainResponse
          [(js "vary", .many [[], js "Accept"])] : Except (Thrown Unit) _).map
          (fun merged => merged.headers.listing) = .ok ([(js "vary", js "Accept")], []) ∧
      (headersWith (frozenResponse plainResponse)
        [(js "vary", .many [[], js "Accept"])] : Except (Thrown Unit) _).map
          (fun rebuilt => rebuilt.copy.listing) = .ok ([(js "vary", js ", Accept")], []) := by
  decide +kernel

end Keala.Core
