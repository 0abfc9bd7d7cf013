import Keala.Js.Lower
import Keala.Js.Trim
import Keala.Lib.Memo
import Keala.Negotiation.Ranges

/-!
Acceptance of gzip (`acceptsGzip` of `src/negotiation/accepts.ts`): the lane
for a lone token, the table of earlier verdicts and the parser behind both.
-/

namespace Keala.Negotiation

open Keala.Js

/-! ### The lone token -/

def isTokenChar (code : CodeUnit) : Bool :=
  (97 ≤ code && code ≤ 122) || (65 ≤ code && code ≤ 90) || (48 ≤ code && code ≤ 57) ||
    (33 ≤ code && code ≤ 46) || code = 94 || code = 95 || code = 96 || code = 124 || code = 126

def lowerCode (code : CodeUnit) : CodeUnit := if 65 ≤ code ∧ code ≤ 90 then code + 32 else code

/-- The scan of `loneTokenVerdict` from position `i` on: the token's start
(`none` is -1) and its end, or `none` where the lane cannot decide. -/
def scanLone : JsString → ℕ → Option ℕ → ℕ → Option (Option ℕ × ℕ)
  | [], _, start, stop => some (start, stop)
  | code :: header, i, start, stop =>
      if code = 44 || code = 59 || code = 34 then none
      else if code = 32 || code = 9 then scanLone header (i + 1) start stop
      else if !isTokenChar code then none
      else scanLone header (i + 1) (some (start.getD i)) (i + 1)

/-- `none` is `null`. -/
def loneTokenVerdict (header : JsString) : Option Bool :=
  match scanLone header 0 none 0 with
  | none => none
  | some (none, _) => some false
  | some (some start, stop) =>
      let len := stop - start
      let code := fun i => header.getD i 0
      if len = 1 then some (code start = 42)
      else if len ≠ 4 then some false
      else
        some (lowerCode (code start) = 103 && lowerCode (code (start + 1)) = 122 &&
          lowerCode (code (start + 2)) = 105 && lowerCode (code (start + 3)) = 112)

/-! ### The parser and the table -/

/-- The loop over the entries with its two variables; `none` is `null`. -/
def gzipQualities : List Preference → Option ℚ × Option ℚ → Option ℚ × Option ℚ
  | [], found => found
  | pref :: prefs, (explicit, wildcard) =>
      if pref.value = js "gzip" ∧ explicit = none then gzipQualities prefs (some pref.q, wildcard)
      else if pref.value = js "*" ∧ wildcard = none then
        gzipQualities prefs (explicit, some pref.q)
      else gzipQualities prefs (explicit, wildcard)

variable (lower : JsString → JsString)

def parseGzipVerdict (header : JsString) : Bool :=
  let found := gzipQualities (parsePreferenceEntries lower (some header)) (none, none)
  match found.1 <|> found.2 with
  | none => false
  | some quality => 0 < quality

abbrev GzipMemo := List (JsString × Bool)

def GZIP_MEMO_MAX : ℕ := 64

/-- The verdict and the table after the call. -/
def acceptsGzip (gzipMemo : GzipMemo) (header : JsString) : Bool × GzipMemo :=
  match loneTokenVerdict header with
  | some lone => (lone, gzipMemo)
  | none =>
      match OrderedMap.get? gzipMemo header with
      | some memo => (memo, gzipMemo)
      | none =>
          let verdict := parseGzipVerdict lower header
          (verdict, Memo.remember GZIP_MEMO_MAX gzipMemo header verdict)

example : (acceptsGzip id [] (js "br, gzip;q=0, *")).1 = false := by decide +kernel

def memoAfter (history : List JsString) : GzipMemo :=
  history.foldl (fun memo header => (acceptsGzip lower memo header).2) []

/-! ### What the verdict should be -/

def firstQuality (value : JsString) (prefs : List Preference) : Option ℚ :=
  (prefs.find? fun pref => pref.value = value).map Preference.q

/-- The quality of the first `gzip` entry, else of the first `*` entry, exists
and is positive. -/
def gzipAcceptable (prefs : List Preference) : Prop :=
  ∃ quality, (firstQuality (js "gzip") prefs <|> firstQuality (js "*") prefs) = some quality ∧
    0 < quality

variable {lower}

/-! ### The scan of a lone token -/

def isLone (c : CodeUnit) : Bool :=
  isOws c || (isTokenChar c && !(c = 44 || c = 59 || c = 34))

/-- What the scan knows of the text in front of it: blanks only, or a token
between blanks. -/
inductive Scanned (front : JsString) : Option ℕ → ℕ → Prop
  | blank (stop : ℕ) (h : ∀ c ∈ front, isOws c = true) : Scanned front none stop
  | token (left token right : JsString) (hfront : front = left ++ token ++ right)
      (hleft : ∀ c ∈ left, isOws c = true) (hright : ∀ c ∈ right, isOws c = true)
      (htoken : ∀ c ∈ token, isLone c = true) (hne : token ≠ [])
      (hhead : ∀ c ∈ token.head?, isSpace c = false)
      (hlast : ∀ c ∈ token.getLast?, isSpace c = false) :
      Scanned front (some left.length) (left.length + token.length)

theorem isTokenChar_bounds {c : CodeUnit} (h : isTokenChar c = true) : 33 ≤ c ∧ c ≤ 126 := by
  simp only [isTokenChar, Bool.or_eq_true, Bool.and_eq_true, decide_eq_true_eq] at h
  simp only [UInt16.le_iff_toNat_le, ← UInt16.toNat_inj] at h ⊢
  simp at h ⊢
  omega

theorem isSpace_of_isTokenChar {c : CodeUnit} (h : isTokenChar c = true) : isSpace c = false := by
  obtain ⟨hlow, hhigh⟩ := isTokenChar_bounds h
  rw [Bool.eq_false_iff]
  intro hspace
  simp only [isSpace, Bool.or_eq_true, Bool.and_eq_true, decide_eq_true_eq] at hspace
  simp only [UInt16.le_iff_toNat_le, ← UInt16.toNat_inj] at hlow hhigh hspace
  simp at hlow hhigh hspace
  omega

theorem isLone_ascii {c : CodeUnit} (h : isLone c = true) : c < 128 := by
  simp only [isLone, isOws, Bool.or_eq_true, Bool.and_eq_true, decide_eq_true_eq] at h
  rcases h with (rfl | rfl) | ⟨htoken, -⟩
  · decide
  · decide
  · exact UInt16.lt_of_le_of_lt (isTokenChar_bounds htoken).2 (by decide)

theorem isLatin_of_isLone {c : CodeUnit} (h : isLone c = true) : isLatin c = true :=
  decide_eq_true (UInt16.le_of_lt (UInt16.lt_of_lt_of_le (isLone_ascii h) (by decide)))

theorem forall_concat {p : CodeUnit → Bool} {text : JsString} {c : CodeUnit}
    (h : ∀ d ∈ text, p d = true) (hc : p c = true) : ∀ d ∈ text ++ [c], p d = true := by
  intro d hd
  rcases List.mem_append.mp hd with hd | hd
  · exact h d hd
  · rw [List.mem_singleton.mp hd]
    exact hc

theorem Scanned.blank_step {front : JsString} {start : Option ℕ} {stop : ℕ} {c : CodeUnit}
    (h : Scanned front start stop) (hc : isOws c = true) : Scanned (front ++ [c]) start stop := by
  cases h with
  | blank stop h => exact .blank stop (forall_concat h hc)
  | token left token right hfront hleft hright htoken hne hhead hlast =>
      refine .token left token (right ++ [c]) ?_ hleft (forall_concat hright hc) htoken hne hhead
        hlast
      rw [hfront, List.append_assoc]

theorem Scanned.token_step {front : JsString} {start : Option ℕ} {stop : ℕ} {c : CodeUnit}
    (h : Scanned front start stop) (hc : isLone c = true) (hspace : isSpace c = false) :
    Scanned (front ++ [c]) (some (start.getD front.length)) (front.length + 1) := by
  cases h with
  | blank stop h =>
      refine .token front [c] [] ?_ h ?_ ?_ ?_ ?_ ?_
      · rw [List.append_nil]
      · exact fun d hd => absurd hd List.not_mem_nil
      · exact fun d hd => List.mem_singleton.mp hd ▸ hc
      · exact List.cons_ne_nil c []
      · rintro d ⟨⟩
        exact hspace
      · rintro d ⟨⟩
        exact hspace
  | token left token right hfront hleft hright htoken hne hhead hlast =>
      have hstop : front.length + 1 = left.length + (token ++ right ++ [c]).length := by
        simp [hfront, Nat.add_assoc]
      rw [hstop]
      refine .token left (token ++ right ++ [c]) [] ?_ hleft ?_ ?_ ?_ ?_ ?_
      · rw [hfront]
        simp
      · exact fun d hd => absurd hd List.not_mem_nil
      · refine forall_concat (fun d hd => ?_) hc
        rcases List.mem_append.mp hd with hd | hd
        · exact htoken d hd
        · rw [isLone, hright d hd, Bool.true_or]
      · simp
      · intro d hd
        obtain ⟨first, rest, rfl⟩ := List.exists_cons_of_ne_nil hne
        exact hhead d hd
      · intro d hd
        rw [List.getLast?_concat] at hd
        cases hd
        exact hspace

theorem scanLone_scanned (header : JsString) {front : JsString} {start : Option ℕ} {stop : ℕ}
    {found : Option ℕ × ℕ} (h : Scanned front start stop)
    (hscan : scanLone header front.length start stop = some found) :
    Scanned (front ++ header) found.1 found.2 := by
  induction header generalizing front start stop with
  | nil =>
      rw [List.append_nil]
      cases hscan
      exact h
  | cons code header ih =>
      have hfront : front ++ code :: header = front ++ [code] ++ header := by simp
      have hlength : front.length + 1 = (front ++ [code]).length := by simp
      rw [scanLone] at hscan
      split at hscan
      · cases hscan
      · next hseparator =>
          rw [hfront]
          split at hscan
          · next hblank =>
              rw [hlength] at hscan
              exact ih (h.blank_step hblank) hscan
          · split at hscan
            · cases hscan
            · next htoken =>
                have htoken : isTokenChar code = true := by simpa using htoken
                have hlone : isLone code = true := by
                  rw [isLone, htoken, Bool.eq_false_iff.mpr hseparator]
                  simp
                rw [hlength] at hscan
                refine ih ?_ hscan
                rw [← hlength]
                exact h.token_step hlone (isSpace_of_isTokenChar htoken)

/-! ### The lane agrees with the parser -/

theorem firstQuality_cons (value : JsString) (pref : Preference) (prefs : List Preference) :
    firstQuality value (pref :: prefs) =
      if pref.value = value then some pref.q else firstQuality value prefs := by
  unfold firstQuality
  split
  · next h => rw [List.find?_cons_of_pos (by simpa using h), Option.map_some]
  · next h => rw [List.find?_cons_of_neg (by simpa using h)]

theorem gzipQualities_eq (prefs : List Preference) (explicit wildcard : Option ℚ) :
    gzipQualities prefs (explicit, wildcard) =
      (explicit <|> firstQuality (js "gzip") prefs, wildcard <|> firstQuality (js "*") prefs) := by
  induction prefs generalizing explicit wildcard with
  | nil => cases explicit <;> cases wildcard <;> rfl
  | cons pref prefs ih =>
      rw [gzipQualities, ih, ih, ih, firstQuality_cons, firstQuality_cons]
      by_cases hgzip : pref.value = js "gzip"
      · have hstar : pref.value ≠ js "*" := by
          rw [hgzip]
          decide
        rw [if_pos hgzip, if_neg hstar]
        cases explicit with
        | none => rw [if_pos ⟨hgzip, rfl⟩]; rfl
        | some q => rw [if_neg (by simp), if_neg (by simp [hstar])]; rfl
      · rw [if_neg hgzip, if_neg (by simp [hgzip])]
        by_cases hstar : pref.value = js "*"
        · rw [if_pos hstar]
          cases wildcard with
          | none => rw [if_pos ⟨hstar, rfl⟩]; rfl
          | some q => rw [if_neg (by simp)]; rfl
        · rw [if_neg hstar, if_neg (by simp [hstar])]

theorem parseGzipVerdict_iff (header : JsString) :
    parseGzipVerdict lower header = true ↔
      gzipAcceptable (parsePreferenceEntries lower (some header)) := by
  rw [parseGzipVerdict, gzipQualities_eq, gzipAcceptable]
  generalize firstQuality (js "gzip") (parsePreferenceEntries lower (some header)) = explicit
  generalize firstQuality (js "*") (parsePreferenceEntries lower (some header)) = wildcard
  cases explicit with
  | some q => simp
  | none =>
      cases wildcard with
      | some q => simp
      | none => simp

/-- A header without commas and semicolons is one entry with the quality 1. -/
theorem parsePreferenceEntries_lone (hlower : LowersLatin lower) {header : JsString}
    (hcomma : (44 : CodeUnit) ∉ header) (hsemi : (59 : CodeUnit) ∉ header) :
    parsePreferenceEntries lower (some header) =
      if lower (trim header) = [] then [] else [⟨lower (trim header), 1, 0, none⟩] := by
  by_cases hempty : header = []
  · have hnil : lower [] = [] := hlower [] fun _ h => absurd h List.not_mem_nil
    rw [hempty, trim_nil, hnil, if_pos rfl]
    rfl
  · have hsplit : split 59 header = [header] := List.splitOn_eq_singleton hsemi
    have hrange : rangeOf lower header =
        if lower (trim header) = [] then none else some ⟨lower (trim header), 1, 0, none⟩ := by
      rw [rangeOf, hsplit]
      rfl
    rw [parsePreferenceEntries_eq hempty, ranges, splitHeader, if_neg hcomma,
      List.filterMap_cons, hrange]
    by_cases hvalue : lower (trim header) = []
    · rw [if_pos hvalue, if_pos hvalue]
      rfl
    · rw [if_neg hvalue, if_neg hvalue]
      rfl

theorem parseGzipVerdict_lone (hlower : LowersLatin lower) {header : JsString}
    (hcomma : (44 : CodeUnit) ∉ header) (hsemi : (59 : CodeUnit) ∉ header) :
    parseGzipVerdict lower header =
      decide (lower (trim header) = js "gzip" ∨ lower (trim header) = js "*") := by
  rw [Bool.eq_iff_iff, parseGzipVerdict_iff, parsePreferenceEntries_lone hlower hcomma hsemi,
    decide_eq_true_eq, gzipAcceptable]
  by_cases hvalue : lower (trim header) = []
  · rw [if_pos hvalue, hvalue]
    simp [firstQuality, js]
  · rw [if_neg hvalue]
    simp only [firstQuality_cons]
    by_cases hgzip : lower (trim header) = js "gzip"
    · simp [hgzip]
    · by_cases hstar : lower (trim header) = js "*"
      · simp [hstar, firstQuality, js]
      · simp [hgzip, hstar, firstQuality]

theorem lowerUnit_ascii {c : CodeUnit} (h : c < 128) : lowerUnit c = lowerCode c := by
  have hlatin : ¬ (0xC0 ≤ c ∧ c ≤ 0xDE ∧ c ≠ 0xD7) := by
    rintro ⟨hlow, -, -⟩
    exact absurd (UInt16.lt_of_lt_of_le h (UInt16.le_trans (by decide) hlow)) (UInt16.lt_irrefl c)
  rw [lowerUnit, lowerCode]
  simp [hlatin]

theorem lowerCode_eq_star {c : CodeUnit} : lowerCode c = 42 ↔ c = 42 := by
  unfold lowerCode
  split
  · next h =>
      simp only [UInt16.le_iff_toNat_le, ← UInt16.toNat_inj, UInt16.toNat_add] at h ⊢
      simp at h ⊢
      omega
  · exact Iff.rfl

/-- What the lane answers on a token between blanks. -/
theorem loneTokenVerdict_token {header left token right : JsString}
    (hheader : header = left ++ token ++ right)
    (hscan : scanLone header 0 none 0 = some (some left.length, left.length + token.length)) :
    loneTokenVerdict header =
      some (decide (token.map lowerCode = js "gzip" ∨ token.map lowerCode = js "*")) := by
  have hcode : ∀ i < token.length, header[left.length + i]? = token[i]? := by
    intro i hi
    rw [hheader, List.append_assoc, List.getElem?_append_right (Nat.le_add_right _ _),
      Nat.add_sub_cancel_left, List.getElem?_append_left hi]
  rw [loneTokenVerdict, hscan]
  dsimp only
  rw [Nat.add_sub_cancel_left]
  simp only [List.getD_eq_getElem?_getD]
  rcases token with _ | ⟨a, _ | ⟨b, _ | ⟨c, _ | ⟨d, _ | ⟨e, rest⟩⟩⟩⟩⟩
  · rfl
  · have ha := hcode 0 (by simp)
    rw [Nat.add_zero] at ha
    simp [ha, js, lowerCode_eq_star]
  · simp [js]
  · simp [js]
  · have ha := hcode 0 (by simp)
    rw [Nat.add_zero] at ha
    simp [ha, hcode 1, hcode 2, hcode 3, js, Bool.and_assoc]
  · simp [js]

/-- Where the lane decides, it decides as the parser. -/
theorem loneTokenVerdict_eq (hlower : LowersLatin lower) {header : JsString} {lone : Bool}
    (h : loneTokenVerdict header = some lone) : lone = parseGzipVerdict lower header := by
  cases hscan : scanLone header 0 none 0 with
  | none =>
      rw [loneTokenVerdict, hscan] at h
      cases h
  | some found =>
      obtain ⟨start, stop⟩ := found
      have hscanned : Scanned header start stop :=
        @scanLone_scanned header [] _ _ _ (.blank 0 fun _ hc => absurd hc List.not_mem_nil) hscan
      have habsent : ∀ sep, isLone sep = false → (∀ c ∈ header, isLone c = true) →
          sep ∉ header := fun sep hsep hall hmem => by simp [hall sep hmem] at hsep
      cases hscanned with
      | blank _ hblank =>
          have hall : ∀ c ∈ header, isLone c = true := fun c hc => by
            rw [isLone, hblank c hc, Bool.true_or]
          have hnil : lower [] = [] := hlower [] fun _ hc => absurd hc List.not_mem_nil
          rw [loneTokenVerdict, hscan] at h
          rw [parseGzipVerdict_lone hlower (habsent 44 rfl hall) (habsent 59 rfl hall),
            trim_of_forall fun c hc => isSpace_of_isOws (hblank c hc), hnil]
          cases h
          rfl
      | token left token right hheader hleft hright htoken hne hhead hlast =>
          have hall : ∀ c ∈ header, isLone c = true := by
            intro c hc
            rw [hheader, List.mem_append, List.mem_append] at hc
            rcases hc with (hc | hc) | hc
            · rw [isLone, hleft c hc, Bool.true_or]
            · exact htoken c hc
            · rw [isLone, hright c hc, Bool.true_or]
          have htrim : trim header = token := by
            rw [hheader, trim_append_blank fun c hc => isSpace_of_isOws (hright c hc),
              trim_blank_append fun c hc => isSpace_of_isOws (hleft c hc),
              trim_eq_self hhead hlast]
          have hvalue : lower token = token.map lowerCode := by
            rw [hlower token fun c hc => isLatin_of_isLone (htoken c hc)]
            exact List.map_congr_left fun c hc => lowerUnit_ascii (isLone_ascii (htoken c hc))
          rw [loneTokenVerdict_token hheader hscan] at h
          rw [parseGzipVerdict_lone hlower (habsent 44 rfl hall) (habsent 59 rfl hall), htrim,
            hvalue]
          exact (Option.some.inj h).symm

/-! ### Every history of calls -/

abbrev GzipSound (lower : JsString → JsString) : GzipMemo → Prop :=
  Memo.Sound GZIP_MEMO_MAX fun header verdict => verdict = parseGzipVerdict lower header

theorem acceptsGzip_eq (hlower : LowersLatin lower) {gzipMemo : GzipMemo}
    (h : GzipSound lower gzipMemo) (header : JsString) :
    (acceptsGzip lower gzipMemo header).1 = parseGzipVerdict lower header := by
  unfold acceptsGzip
  split
  · next lone hlone => exact loneTokenVerdict_eq hlower hlone
  · split
    · next memo hmemo => exact h.answers hmemo
    · rfl

theorem acceptsGzip_sound {gzipMemo : GzipMemo} (h : GzipSound lower gzipMemo)
    (header : JsString) : GzipSound lower (acceptsGzip lower gzipMemo header).2 := by
  unfold acceptsGzip
  split
  · exact h
  · split
    · exact h
    · exact h.remember rfl

theorem memoAfter_sound (lower : JsString → JsString) (history : List JsString) :
    GzipSound lower (memoAfter lower history) :=
  Memo.Sound.nil.foldl (fun _ h header => acceptsGzip_sound h header) history

/-- After every history of calls the verdict on a header is that of its
parsed entries. -/
theorem acceptsGzip_iff_acceptable (hlower : LowersLatin lower) (history : List JsString)
    (header : JsString) :
    (acceptsGzip lower (memoAfter lower history) header).1 = true ↔
      gzipAcceptable (parsePreferenceEntries lower (some header)) := by
  rw [acceptsGzip_eq hlower (memoAfter_sound lower history), parseGzipVerdict_iff]

theorem acceptsGzip_after_two :
    (acceptsGzip (List.map lowerUnit) (memoAfter (List.map lowerUnit)
        [js "gzip;q=0, *", js "br,GZip"]) (js "gzip;q=0, *")).1 = true ↔
      gzipAcceptable
        (parsePreferenceEntries (List.map lowerUnit) (some (js "gzip;q=0, *"))) :=
  acceptsGzip_iff_acceptable lowersLatin_map _ _

end Keala.Negotiation
