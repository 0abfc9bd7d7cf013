import Keala.Middleware.Jwks

/-!
What a key document leaves in the cache: the last key that can be imported for
each `kid`, the first one of those without, and nothing else.
-/

namespace Keala.Middleware

open Js OrderedMap

variable {platform : JwksPlatform} {keys : List Json} {slot : Slot} {entry : CachedKey}

/-- The key that an entry of a document is, where it can be imported. -/
def usableKey (platform : JwksPlatform) : Json → Option CachedKey
  | .object members =>
      (importParams ⟨members⟩).bind fun params =>
        (platform.importJwk ⟨members⟩ params).toOption.map (⟨·, ⟨members⟩⟩)
  | _ => none

def CachedKey.kid (entry : CachedKey) : Option Json := entry.jwk.members.lookup (js "kid")

/-- One entry of a document, by the key that it is. -/
theorem importEntry_eq (taken : KeySet) (json : Json) (place : ℕ) :
    importEntry platform taken (json, place) =
      match usableKey platform json with
      | none => taken
      | some entry =>
          if entry.kid.isNone && taken.kidlessTaken then taken
          else
            { next := set taken.next (slotOf place entry.kid) entry
              kidlessTaken := taken.kidlessTaken || entry.kid.isNone } := by
  cases json with
  | object members =>
      rw [importEntry, usableKey]
      cases hparams : importParams ⟨members⟩ with
      | none => rfl
      | some params =>
          rw [Option.bind_some]
          dsimp only
          cases himport : platform.importJwk ⟨members⟩ params with
          | error error =>
              dsimp only [Except.toOption, Option.map_none]
              split
              · rfl
              · rfl
          | ok key => rfl
  | null => rfl
  | bool value => rfl
  | number value => rfl
  | string text => rfl
  | array items => rfl

def takenOf (platform : JwksPlatform) (keys : List Json) : KeySet :=
  keys.zipIdx.foldl (importEntry platform) ⟨[], false⟩

theorem takenOf_concat (keys : List Json) (json : Json) :
    takenOf platform (keys ++ [json]) =
      importEntry platform (takenOf platform keys) (json, keys.length) := by
  rw [takenOf, List.zipIdx_append, List.foldl_append]
  simp [takenOf]

def usableKeys (platform : JwksPlatform) (keys : List Json) : List CachedKey :=
  keys.filterMap (usableKey platform)

theorem usableKeys_concat (keys : List Json) (json : Json) :
    usableKeys platform (keys ++ [json]) =
      usableKeys platform keys ++ (usableKey platform json).toList := by
  rw [usableKeys, List.filterMap_append, usableKeys]
  cases hjson : usableKey platform json with
  | none => simp [hjson]
  | some entry => simp [hjson]

/-- The key is one that the document publishes: an RSA or EC key, imported for
that family alone, in the slot of its `kid`. -/
structure Published (platform : JwksPlatform) (keys : List Json) (slot : Slot)
    (entry : CachedKey) : Prop where
  mem : Json.object entry.jwk.members ∈ keys
  family : entry.jwk.kty = some (js "RSA") ∨ entry.jwk.kty = some (js "EC")
  imported : ∃ params, importParams entry.jwk = some params ∧
    platform.importJwk entry.jwk params = .ok entry.key
  slot : ∃ place, slot = slotOf place entry.kid

theorem importParams_family {jwk : Jwk} {params : AlgorithmParams}
    (h : importParams jwk = some params) :
    jwk.kty = some (js "RSA") ∨ jwk.kty = some (js "EC") := by
  rw [importParams] at h
  split at h
  · next hrsa => exact .inl hrsa
  · split at h
    · next hec => exact .inr hec
    · cases h

theorem usableKey_spec {json : Json} (h : usableKey platform json = some entry) :
    json = .object entry.jwk.members ∧
      (entry.jwk.kty = some (js "RSA") ∨ entry.jwk.kty = some (js "EC")) ∧
      ∃ params, importParams entry.jwk = some params ∧
        platform.importJwk entry.jwk params = .ok entry.key := by
  cases json with
  | object members =>
      rw [usableKey, Option.bind_eq_some_iff] at h
      obtain ⟨params, hparams, himport⟩ := h
      obtain ⟨key, hkey, rfl⟩ := Option.map_eq_some_iff.mp himport
      refine ⟨rfl, importParams_family hparams, params, hparams, ?_⟩
      cases hresult : platform.importJwk ⟨members⟩ params with
      | error error =>
          rw [hresult] at hkey
          cases hkey
      | ok key' =>
          rw [hresult] at hkey
          cases hkey
          rfl
  | null => cases h
  | bool value => cases h
  | number value => cases h
  | string text => cases h
  | array items => cases h

theorem published_of_mem (h : (slot, entry) ∈ importKeys platform keys) :
    Published platform keys slot entry := by
  have hall : (OrderedMap.keys (takenOf platform keys).next).Nodup ∧
      ∀ slot entry, (slot, entry) ∈ (takenOf platform keys).next →
        Published platform keys slot entry := by
    clear h
    induction keys using List.reverseRecOn with
    | nil => exact ⟨List.nodup_nil, fun _ _ h => by cases h⟩
    | append_singleton keys json ih =>
        obtain ⟨hnodup, hmem⟩ := ih
        have hold : ∀ slot entry, (slot, entry) ∈ (takenOf platform keys).next →
            Published platform (keys ++ [json]) slot entry := fun slot entry hin =>
          { hmem slot entry hin with mem := List.mem_append_left _ (hmem slot entry hin).mem }
        rw [takenOf_concat, importEntry_eq]
        cases hjson : usableKey platform json with
        | none => exact ⟨hnodup, hold⟩
        | some key =>
            dsimp only
            split
            · exact ⟨hnodup, hold⟩
            · refine ⟨nodup_set hnodup _ _, fun slot entry hin => ?_⟩
              obtain ⟨rfl, hfamily, himported⟩ := usableKey_spec hjson
              rw [mem_set_iff hnodup] at hin
              split at hin
              · next heq =>
                  subst heq hin
                  exact ⟨List.mem_append_right _ List.mem_cons_self, hfamily, himported, _, rfl⟩
              · exact hold slot entry hin
  exact hall.2 slot entry h

/-! ### Which key a slot holds -/

def CachedKey.kidText (entry : CachedKey) : Option JsString :=
  memberText entry.jwk.members (js "kid")

theorem slotOf_text {place : ℕ} {kid : JsString} (hkid : kid ≠ []) :
    slotOf place entry.kid = .text kid ↔ entry.kidText = some kid := by
  rw [CachedKey.kidText, memberText, ← CachedKey.kid]
  cases hentry : entry.kid with
  | none => simp [slotOf, hkid.symm]
  | some json =>
      cases json with
      | null => simp [slotOf, Json.text?, hkid.symm]
      | bool value => simp [slotOf, Json.text?]
      | number value => simp [slotOf, Json.text?]
      | string text => simp [slotOf, Json.text?]
      | array items => simp [slotOf, Json.text?]
      | object members => simp [slotOf, Json.text?]

/-- A `kid` that stands for the empty slot although it is there. -/
def EmptyKid (entry : CachedKey) : Prop :=
  entry.kid = some .null ∨ entry.kid = some (.string [])

theorem slotOf_eq_empty (place : ℕ) :
    slotOf place entry.kid = .text [] ↔ entry.kid = none ∨ EmptyKid entry := by
  rw [EmptyKid]
  cases entry.kid with
  | none => simp [slotOf]
  | some json =>
      cases json with
      | null => simp [slotOf]
      | bool value => simp [slotOf]
      | number value => simp [slotOf]
      | string text => simp [slotOf]
      | array items => simp [slotOf]
      | object members => simp [slotOf]

theorem slotOf_empty (place : ℕ) (hentry : ¬EmptyKid entry) :
    slotOf place entry.kid = .text [] ↔ entry.kid = none :=
  (slotOf_eq_empty place).trans (or_iff_left hentry)

structure Holds (taken : KeySet) (entries : List CachedKey) : Prop where
  kids : ∀ kid, kid ≠ [] → get? taken.next (.text kid) =
    (entries.filter fun entry => entry.kidText = some kid).getLast?
  kidless : taken.kidlessTaken = entries.any fun entry => entry.kid.isNone
  empty : (∀ entry ∈ entries, ¬EmptyKid entry) → get? taken.next (.text []) =
    (entries.filter fun entry => entry.kid.isNone).head?

theorem CachedKey.kidText_of_none (h : entry.kid = none) : entry.kidText = none := by
  rw [kidText, memberText, ← CachedKey.kid, h]
  rfl

theorem any_iff_head? {entries : List CachedKey} {p : CachedKey → Bool} :
    entries.any p = (entries.filter p).head?.isSome := by
  induction entries with
  | nil => rfl
  | cons entry entries ih =>
      rw [List.any_cons, List.filter_cons, ih]
      cases p entry with
      | true => rfl
      | false => rfl

/-- A second key without a `kid` is not taken. -/
theorem Holds.skip {taken : KeySet} {entries : List CachedKey} (h : Holds taken entries)
    (hkid : entry.kid = none) (htaken : taken.kidlessTaken = true) :
    Holds taken (entries ++ [entry]) := by
  refine ⟨fun kid hne => ?_, ?_, fun hproper => ?_⟩
  · rw [List.filter_append, List.filter_singleton, CachedKey.kidText_of_none hkid,
      decide_eq_false (Option.some_ne_none kid).symm, cond_false, List.append_nil]
    exact h.kids kid hne
  · rw [List.any_append, ← h.kidless, htaken, Bool.true_or]
  · rw [h.empty fun entry hin => hproper entry (List.mem_append_left _ hin), List.filter_append,
      List.head?_append]
    have hsome := h.kidless
    rw [htaken, any_iff_head?] at hsome
    obtain ⟨first, hfirst⟩ := Option.isSome_iff_exists.mp hsome.symm
    rw [hfirst, Option.some_or]

/-- Any other key is put into its slot. -/
theorem Holds.add {taken : KeySet} {entries : List CachedKey} (h : Holds taken entries)
    (place : ℕ) (hfree : ¬(entry.kid = none ∧ taken.kidlessTaken = true)) :
    Holds { next := set taken.next (slotOf place entry.kid) entry
            kidlessTaken := taken.kidlessTaken || entry.kid.isNone } (entries ++ [entry]) := by
  refine ⟨fun kid hne => ?_, ?_, fun hproper => ?_⟩
  · rw [List.filter_append, List.filter_singleton]
    by_cases hthis : entry.kidText = some kid
    · rw [(slotOf_text hne).mpr hthis, get?_set_self, decide_eq_true hthis, cond_true,
        List.getLast?_append, List.getLast?_singleton, Option.some_or]
    · rw [get?_set_ne _ _ (mt (slotOf_text hne).mp hthis), decide_eq_false hthis, cond_false,
        List.append_nil]
      exact h.kids kid hne
  · rw [List.any_append, ← h.kidless, List.any_cons, List.any_nil, Bool.or_false]
  · have hold := h.empty fun entry hin => hproper entry (List.mem_append_left _ hin)
    have hslot := slotOf_empty place
      (hproper entry (List.mem_append_right _ List.mem_cons_self))
    rw [List.filter_append, List.filter_singleton, List.head?_append]
    by_cases hkid : entry.kid = none
    · have hnone := h.kidless
      rw [Bool.eq_false_of_not_eq_true fun htaken => hfree ⟨hkid, htaken⟩, any_iff_head?,
        eq_comm, Option.isSome_eq_false_iff, Option.isNone_iff_eq_none] at hnone
      rw [hslot.mpr hkid, get?_set_self, hnone, Option.none_or, hkid]
      rfl
    · rw [get?_set_ne _ _ (mt hslot.mp hkid), hold, Option.isNone_eq_false_iff.mpr
        (Option.isSome_iff_ne_none.mpr hkid), cond_false, List.head?_nil, Option.or_none]

/-- The slot of a `kid` holds the last key of the document that can be imported
and has it; the empty slot holds the first one without a `kid`, where no key
has an empty one. -/
theorem importKeys_slots (platform : JwksPlatform) (keys : List Json) :
    (∀ kid, kid ≠ [] → get? (importKeys platform keys) (.text kid) =
      ((usableKeys platform keys).filter fun entry => entry.kidText = some kid).getLast?) ∧
    ((∀ entry ∈ usableKeys platform keys, ¬EmptyKid entry) →
      get? (importKeys platform keys) (.text []) =
        ((usableKeys platform keys).filter fun entry => entry.kid.isNone).head?) := by
  have hall : Holds (takenOf platform keys) (usableKeys platform keys) := by
    induction keys using List.reverseRecOn with
    | nil => exact ⟨fun _ _ => rfl, rfl, fun _ => rfl⟩
    | append_singleton keys json ih =>
        rw [takenOf_concat, importEntry_eq, usableKeys_concat]
        cases usableKey platform json with
        | none =>
            rw [Option.toList_none, List.append_nil]
            exact ih
        | some entry =>
            rw [Option.toList_some]
            dsimp only
            split
            · next hskip =>
                rw [Bool.and_eq_true, Option.isNone_iff_eq_none] at hskip
                exact ih.skip hskip.1 hskip.2
            · next hfree =>
                rw [Bool.and_eq_true, Option.isNone_iff_eq_none] at hfree
                exact ih.add keys.length hfree
  exact ⟨hall.kids, hall.empty⟩

/-! ### A published key and its token -/

def es256Header : JsString := js "eyJhbGciOiJFUzI1NiIsImtpZCI6ImEifQ"

def emptyPayload : JsString := js "e30"

def es256Signature : JsString :=
  js ("v-xOhB1fDytGyfGKhu8nsu7_cGemALWdnb_cFGeoSs1AorYb2EJ-FzM8e4MSTelwlT2aMp5JX9e0a_-6tU" ++
    "-fbg")

def es256Bytes : List UInt8 :=
  [191, 236, 78, 132, 29, 95, 15, 43, 70, 201, 241, 138, 134, 239, 39, 178, 238, 255, 112, 103,
    166, 0, 181, 157, 157, 191, 220, 20, 103, 168, 74, 205, 64, 162, 182, 27, 216, 66, 126, 23, 51,
    60, 123, 131, 18, 77, 233, 112, 149, 61, 154, 50, 158, 73, 95, 215, 180, 107, 255, 186, 181,
    79, 159, 110]

def es256Token : JsString := es256Header ++ 46 :: (emptyPayload ++ 46 :: es256Signature)

def es256Jwk : List (JsString × Json) :=
  [(js "kty", .string (js "EC")), (js "kid", .string (js "a")), (js "crv", .string (js "P-256")),
    (js "x", .string (js "p6MPqs6r68gtYfsr_uZsP7i3BeUd3LAltnd5uP3zkZA")),
    (js "y", .string (js "TZM-I3Tgz_WqulJFd0cLeYaGAU_Monj294kseWt6X_8"))]

def es256Key : CryptoKey where
  id := 0
  type := .public
  name := some (js "ECDSA")
  hash := none
  namedCurve := some (js "P-256")
  hmac_secret h := by revert h; decide
  pair_not_secret _ := by decide

def es256Claims : Json :=
  .object [(js "alg", .string (js "ES256")), (js "kid", .string (js "a"))]

def es256Platform : JwksPlatform where
  fromBase64Url text :=
    if text = es256Header then utf8Bytes (js "\x7b\"alg\":\"ES256\",\"kid\":\"a\"\x7d")
    else if text = emptyPayload then utf8Bytes (js "\x7b\x7d")
    else es256Bytes
  parseJson bytes :=
    if bytes = utf8Bytes (js "\x7b\"alg\":\"ES256\",\"kid\":\"a\"\x7d") then some es256Claims
    else some (.object [])
  importRaw _ _ := .error (.crypto [])
  importJwk _ _ := .ok es256Key
  exportJwk _ := .error (.crypto [])
  verify _ _ signature data :=
    .ok (signature = es256Bytes && data = utf8Bytes (es256Header ++ 46 :: emptyPayload))
  parseHeader text := if text = es256Header then some es256Claims else none

def kidlessJwk : List (JsString × Json) := es256Jwk.eraseIdx 1

theorem importKeys_slots_kidless :
    get? (importKeys es256Platform [.object es256Jwk, .object kidlessJwk]) (.text []) =
      some ⟨es256Key, ⟨kidlessJwk⟩⟩ := by
  have husable : usableKeys es256Platform [.object es256Jwk, .object kidlessJwk] =
      [⟨es256Key, ⟨es256Jwk⟩⟩, ⟨es256Key, ⟨kidlessJwk⟩⟩] := rfl
  refine ((importKeys_slots es256Platform [.object es256Jwk, .object kidlessJwk]).2 ?_).trans ?_
  · intro entry hentry
    rw [husable] at hentry
    rcases List.mem_pair.mp hentry with rfl | rfl
    · rintro (hnull | hempty)
      · cases hnull
      · cases hempty
    · rintro (hnull | hempty)
      · cases hnull
      · cases hempty
  · rw [husable]
    rfl

/-! ### Which key a token finds -/

/-- The key is the one that a document holds for the `kid` of a token: the last
with that `kid`. The empty one finds a key that has none, or a null or empty one;
a token without a `kid` gets the sole key there is. -/
def Named (platform : JwksPlatform) (keys : List Json) (entry : CachedKey) :
    Option JsString → Prop
  | none => ∃ slot, importKeys platform keys = [(slot, entry)]
  | some [] => entry.kid = none ∨ EmptyKid entry
  | some kid =>
      ((usableKeys platform keys).filter fun entry => entry.kidText = some kid).getLast? =
        some entry

/-- What is found under a `kid` is published, and named by it. -/
theorem named_of_lookupKey {kid : Option JsString}
    (h : lookupKey (importKeys platform keys) kid = some entry) :
    (∃ slot, Published platform keys slot entry) ∧ Named platform keys entry kid := by
  rw [lookupKey.eq_def] at h
  split at h
  · next kid =>
      have hpublished := published_of_mem (mem_of_get? h)
      refine ⟨⟨_, hpublished⟩, ?_⟩
      cases kid with
      | nil =>
          obtain ⟨place, hplace⟩ := hpublished.slot
          exact (slotOf_eq_empty place).mp hplace.symm
      | cons unit kid =>
          rw [(importKeys_slots platform keys).1 _ (List.cons_ne_nil unit kid)] at h
          exact h
  · split at h
    · next slot sole hkeys =>
        cases h
        have hmem : (slot, entry) ∈ importKeys platform keys := hkeys ▸ List.mem_cons_self
        exact ⟨⟨slot, published_of_mem hmem⟩, slot, hkeys⟩
    · cases h

end Keala.Middleware
