import Keala.Core.HeaderRuns
import Keala.Js.Lower
import Keala.Js.Trim
import Keala.Middleware.Cors

/-!
The `Vary` header of a negotiated answer. What is staged under the name hides
what the handler's response carries, and then replaces it, so a token of the
response survives only where nothing is staged or the staged value has it too.
-/

namespace Keala.Middleware

open Keala.Js Keala.Http Keala.Core

variable {σ β τ : Type} {text : FieldText}

/-! ### Lists of tokens -/

/-- A part of a list: trimmed, not empty and without a comma. -/
structure IsListToken (token : JsString) : Prop where
  trimmed : trim token = token
  nonempty : token ≠ []
  plain : (44 : CodeUnit) ∉ token

theorem isListToken_of_mem {value token : JsString} (h : token ∈ listTokens value) :
    IsListToken token := by
  obtain ⟨hmem, hne⟩ := List.mem_filter.mp h
  obtain ⟨part, hpart, rfl⟩ := List.mem_map.mp hmem
  refine ⟨trim_trim part, by simpa using hne, fun hcomma => ?_⟩
  exact not_mem_of_mem_split hpart (mem_of_mem_trim hcomma)

theorem trim_space_cons (token : JsString) : trim (32 :: token) = trim token := by
  have hblank : ∀ c ∈ [(32 : CodeUnit)], isSpace c = true := by simp [isSpace]
  exact trim_blank_append hblank token

theorem split_of_not_mem {part : JsString} (h : (44 : CodeUnit) ∉ part) :
    split 44 part = [part] := by
  have hjoin := @split_join 44 [part] (by simpa using h) (by simp)
  rwa [join_singleton] at hjoin

/-- A space after the comma is not read. -/
theorem map_trim_split_space (rest : JsString) :
    (split 44 (32 :: rest)).map trim = (split 44 rest).map trim := by
  rw [split, List.splitOn_cons_eq_if_modifyHead, if_neg (by decide)]
  change ((split 44 rest).modifyHead ((32 : CodeUnit) :: ·)).map trim = _
  cases split 44 rest with
  | nil => rfl
  | cons part parts => rw [List.modifyHead_cons, List.map_cons, List.map_cons, trim_space_cons]

theorem listTokens_cons {token : JsString} (h : IsListToken token) (rest : JsString) :
    listTokens (token ++ js ", " ++ rest) = token :: listTokens rest := by
  have hshape : token ++ js ", " ++ rest = token ++ 44 :: (32 :: rest) := by
    rw [List.append_assoc]
    rfl
  rw [listTokens, hshape, split_append_cons, List.map_append, map_trim_split_space,
    split_of_not_mem h.plain, List.map_singleton, h.trimmed, List.singleton_append,
    List.filter_cons_of_pos (by simpa using h.nonempty)]
  rfl

/-- A list that is joined is read back. -/
theorem listTokens_joinValues {tokens : List JsString} (h : ∀ token ∈ tokens, IsListToken token) :
    listTokens (Headers.joinValues tokens) = tokens := by
  induction tokens with
  | nil => rfl
  | cons token tokens ih =>
    have htoken := h token List.mem_cons_self
    cases tokens with
    | nil =>
      rw [Headers.joinValues, listTokens, split_of_not_mem htoken.plain, List.map_singleton,
        htoken.trimmed, List.filter_cons_of_pos (by simpa using htoken.nonempty), List.filter_nil]
    | cons other tokens =>
      have hrest := ih fun t ht => h t (List.mem_cons_of_mem _ ht)
      rw [Headers.joinValues, listTokens_cons htoken, hrest]
      simp

theorem isSpace_of_isHttpSpace {c : CodeUnit} (h : isHttpSpace c = true) : isSpace c = true := by
  simp only [isHttpSpace, Bool.or_eq_true, decide_eq_true_eq] at h
  rcases h with ((rfl | rfl) | rfl) | rfl <;> decide

/-- A token is stored as it is. -/
theorem IsListToken.normal {token : JsString} (h : IsListToken token) :
    normalized token = token := by
  have hnot : ∀ c, isSpace c = false → isHttpSpace c = false := by
    intro c hc
    by_contra hspace
    rw [isSpace_of_isHttpSpace (by simpa using hspace)] at hc
    cases hc
  have htrimmed := h.trimmed
  refine normalized_eq_self (fun c hc => hnot c ?_) fun c hc => hnot c ?_
  · rw [← htrimmed] at hc
    exact trimBy_head? hc
  · rw [← htrimmed] at hc
    exact trimBy_getLast? hc

/-- So is a list of tokens. -/
theorem normalized_joinTokens {tokens : List JsString}
    (h : ∀ token ∈ tokens, IsListToken token) :
    normalized (Headers.joinValues tokens) = Headers.joinValues tokens := by
  have hnormal : ∀ token ∈ tokens, normalized token = token := fun token ht => (h token ht).normal
  refine normalized_eq_self (head_joinValues hnormal) (last_joinValues hnormal ?_)
  rintro ⟨front, last, -, rfl, hblank⟩
  have hlast := h last (List.mem_append_right _ List.mem_cons_self)
  rw [hlast.normal] at hblank
  exact hlast.nonempty hblank

/-! ### One write -/

theorem isListToken_origin : IsListToken (js "Origin") :=
  ⟨by decide, by decide, by decide⟩

variable (text) in
def Lists (value token : JsString) : Prop :=
  ∃ other ∈ listTokens value, text.lower other = text.lower token

def stagedText : HeaderValue → JsString
  | .one value => value
  | .many values => Headers.joinValues values

def carriedText (c : Context σ β) (name : JsString) : JsString :=
  (c.res.bind fun res => res.headers.get name).getD []

theorem responseHeaderValue_eq (c : Context σ β) (field : JsString) :
    responseHeaderValue text c field =
      ((c.stagedAt (text.lower field)).map stagedText).getD (carriedText c (text.lower field)) := by
  rw [responseHeaderValue]
  cases c.stagedAt (text.lower field) with
  | none => rfl
  | some value => cases value <;> rfl

def withToken (text : FieldText) (value field : JsString) : List JsString :=
  if text.lower field ∈ (listTokens value).map text.lower then listTokens value
  else listTokens value ++ [field]

theorem addVary_eq (c : Context σ β) (field : JsString) :
    (addVary text c field : Except (Thrown τ) _) =
      setResponseHeader text c (js "Vary") (some (.one (Headers.joinValues
        (withToken text (responseHeaderValue text c (js "Vary")) field)))) := rfl

theorem isListToken_of_mem_withToken {value field : JsString} (h : IsListToken field) :
    ∀ token ∈ withToken text value field, IsListToken token := by
  intro token htoken
  rw [withToken] at htoken
  split_ifs at htoken
  · exact isListToken_of_mem htoken
  · rcases List.mem_append.mp htoken with hold | hnew
    · exact isListToken_of_mem hold
    · rw [List.mem_singleton.mp hnew]
      exact h

theorem listTokens_withToken (value : JsString) {field : JsString} (h : IsListToken field) :
    listTokens (Headers.joinValues (withToken text value field)) = withToken text value field := by
  exact listTokens_joinValues (isListToken_of_mem_withToken h)

/-- The list has the tokens from before, and the field. -/
theorem lists_withToken {value field : JsString} (h : IsListToken field) (token : JsString) :
    Lists text (Headers.joinValues (withToken text value field)) token ↔
      Lists text value token ∨ text.lower field = text.lower token := by
  rw [Lists, listTokens_withToken value h, withToken]
  split_ifs with hlisted
  · constructor
    · exact .inl
    · rintro (hold | hnew)
      · exact hold
      · obtain ⟨other, hother, hlower⟩ := List.mem_map.mp hlisted
        exact ⟨other, hother, hlower.trans hnew⟩
  · simp only [List.mem_append, List.mem_singleton, or_and_right, exists_or, exists_eq_left]
    rfl

/-- A header that is written where a condition holds. -/
theorem setWhen_spec {condition : Bool} {c after : Context σ β} {field value : JsString}
    (h : (setWhen text condition c field value : Except (Thrown τ) _) = .ok after) :
    WritesOnly (· = text.lower field) c after ∧
      (condition = true → c.res ≠ none → text.lower field ≠ js "set-cookie" →
        text.lower field ∉ MIRROR_FORBIDDEN →
        after.stagedAt (text.lower field) = some (.one value)) := by
  rw [setWhen] at h
  split_ifs at h with hcondition
  · obtain ⟨hwrites, -, hcommitted⟩ := setResponseHeader_spec h
    refine ⟨hwrites, fun _ hres hcookie hmirrors => ?_⟩
    rw [(hcommitted hres).2, if_neg (by simp [hcookie, hmirrors])]
  · obtain rfl := Except.ok.inj h
    exact ⟨.refl _ _, fun h => absurd h hcondition⟩

/-! ### What the middleware writes -/

section Written

variable {options : CorsOptions β} {header : JsString → JsString}

theorem lower_names (hlower : LowersLatin text.lower) :
    text.lower (js "Vary") = js "vary" ∧
      text.lower (js "Access-Control-Allow-Origin") = js "access-control-allow-origin" ∧
      text.lower (js "Access-Control-Expose-Headers") = js "access-control-expose-headers" ∧
      text.lower (js "Access-Control-Allow-Credentials") =
        js "access-control-allow-credentials" := by
  refine ⟨?_, ?_, ?_, ?_⟩
  all_goals
    rw [hlower _ (List.all_eq_true.mp (by decide))]
    decide

/-- Once `next` has returned: the tokens are merged and staged, and the origin is staged where it
is allowed. -/
theorem afterNext_spec (hlower : LowersLatin text.lower) {c after : Context σ β}
    (hvary : options.varyOrigin = true) (hres : c.res ≠ none)
    (h : (afterNext text options header c : Except (Thrown τ) _) = .ok after) :
    WritesOnly (fun _ => True) c after ∧
      after.stagedAt (js "vary") = some (.one (Headers.joinValues
        (withToken text (responseHeaderValue text c (js "Vary")) (js "Origin")))) ∧
      (options.allows (header (js "origin")) = true →
        after.stagedAt (js "access-control-allow-origin") =
          some (.one (header (js "origin")))) ∧
      (options.allows (header (js "origin")) = false →
        after.stagedAt (js "access-control-allow-origin") =
            c.stagedAt (js "access-control-allow-origin") ∧
          after.carriedAt (js "access-control-allow-origin") =
            c.carriedAt (js "access-control-allow-origin")) := by
  obtain ⟨hv, ha, he, hc⟩ := lower_names hlower
  have hwild : options.wildcard = false := by simpa [CorsOptions.varyOrigin] using hvary
  rw [afterNext] at h
  simp only [hvary, if_true, hwild, Bool.false_eq_true, if_false] at h
  obtain ⟨varied, hvaried, h⟩ := Except.ok_of_bind h
  obtain ⟨allowed, hallowed, h⟩ := Except.ok_of_bind h
  obtain ⟨exposed, hexposed, h⟩ := Except.ok_of_bind h
  rw [addVary_eq] at hvaried
  obtain ⟨hfirst, -, hset⟩ := setResponseHeader_spec hvaried
  obtain ⟨hsecond, hsetOrigin⟩ := setWhen_spec hallowed
  obtain ⟨hthird, -⟩ := setWhen_spec hexposed
  obtain ⟨hfourth, -⟩ := setWhen_spec h
  rw [hv] at hfirst hset
  rw [ha] at hsecond hsetOrigin
  rw [he] at hthird
  rw [hc] at hfourth
  have hall : ∀ {names : JsString → Prop} {a b : Context σ β}, WritesOnly names a b →
      WritesOnly (fun _ => True) a b := fun hw => hw.mono fun _ _ => trivial
  have hvariedRes : varied.res ≠ none := fun hnone => hres ((res_eq_none_iff hfirst).mp hnone)
  refine ⟨(hall hfirst).trans ((hall hsecond).trans ((hall hthird).trans (hall hfourth))),
    ?_, fun hallows => ?_, fun hdenies => ?_⟩
  · rw [hfourth.staged _ (by decide), hthird.staged _ (by decide),
      hsecond.staged _ (by decide), (hset hres).2, if_neg (by decide)]
  · rw [hfourth.staged _ (by decide), hthird.staged _ (by decide)]
    exact hsetOrigin hallows hvariedRes (by decide) (by decide)
  · rw [hdenies] at hallowed
    obtain rfl := Except.ok.inj hallowed
    refine ⟨?_, ?_⟩
    · rw [hfourth.staged _ (by decide), hthird.staged _ (by decide),
        hfirst.staged _ (by decide)]
    · rw [hfourth.carried _ (by decide), hthird.carried _ (by decide),
        hfirst.carried _ (by decide)]

end Written

/-! ### What is shipped -/

variable (text) in
/-- The final `Vary` has `Origin`, the tokens of the handler's response and those staged. -/
def KeepsVary (settled : Context σ β) (final : Response β) : Prop :=
  let vary := (final.headers.get (js "vary")).getD []
  Lists text vary (js "Origin") ∧
    (∀ token ∈ listTokens (carriedText settled (js "vary")), Lists text vary token) ∧
    ∀ value, settled.stagedAt (js "vary") = some value →
      ∀ token ∈ listTokens (stagedText value), Lists text vary token

/-- The final `Access-Control-Allow-Origin` is the request's own allowed origin,
as a `Headers` stores it. -/
def OwnOrigin (options : CorsOptions β) (origin : JsString) (final : Response β) : Prop :=
  ∀ value, final.headers.get (js "access-control-allow-origin") = some value →
    options.allows origin = true ∧ value = normalized origin

variable (text) in
/-- Nothing is staged under `Vary`, or the staged value has every token of the response but
`Origin`. -/
def StagedCovers (settled : Context σ β) : Prop :=
  ∀ value, settled.stagedAt (js "vary") = some value →
    ∀ token ∈ listTokens (carriedText settled (js "vary")),
      text.lower (js "Origin") = text.lower token ∨ Lists text (stagedText value) token

/-- The origin is allowed, or no other code has written an `Access-Control-Allow-Origin`. -/
def OriginUncontested (options : CorsOptions β) (origin : JsString) (settled : Context σ β) :
    Prop :=
  options.allows origin = true ∨
    ((settled.stagedAt (js "access-control-allow-origin")).map wireOf).getD
      (settled.carriedAt (js "access-control-allow-origin")) = []

theorem keepsVary_iff {settled : Context σ β} {final : Response β}
    (hfinal : final.headers.get (js "vary") = some (Headers.joinValues (withToken text
      (((settled.stagedAt (js "vary")).map stagedText).getD (carriedText settled (js "vary")))
      (js "Origin")))) :
    KeepsVary text settled final ↔ StagedCovers text settled := by
  simp only [KeepsVary, hfinal, Option.getD_some, lists_withToken isListToken_origin]
  cases hstaged : settled.stagedAt (js "vary") with
  | none =>
    refine iff_of_true ⟨.inr trivial, fun token htoken => .inl ⟨token, htoken, rfl⟩, by simp⟩ ?_
    intro value hvalue
    rw [hstaged] at hvalue
    cases hvalue
  | some staged =>
    constructor
    · rintro ⟨-, hcarried, -⟩ value hvalue token htoken
      obtain rfl := Option.some.inj (hstaged.symm.trans hvalue)
      exact (hcarried token htoken).symm
    · intro hcovers
      refine ⟨.inr trivial, fun token htoken => (hcovers staged hstaged token htoken).symm, ?_⟩
      rintro value ⟨⟩ token htoken
      exact .inl ⟨token, htoken, rfl⟩

/-- The answer to a request that is let through has lost no token of `Vary`, and allows no origin
but the request's own, exactly when what is staged under `Vary` has the tokens of the handler's
response, and the origin is allowed or no other code has written one. -/
theorem cors_keepsVary_iff {app : Application σ β τ} {upper : JsString → JsString} {native : Bool}
    {options : CorsOptions β} {header : JsString → JsString} {c settled after done : Context σ β}
    {next : Context σ β → Except (Thrown τ) (Context σ β)} {final : Response β}
    (hlower : LowersLatin text.lower) (hvary : options.varyOrigin = true)
    (hrequest : isPreflight header c = false)
    (hthrough : header (js "origin") = [] ∨ options.allows (header (js "origin")) = true)
    (hnext : next c = .ok settled) (hsettled : settled.Writable) (hres : settled.res ≠ none)
    (hcors : corsHandler text upper app.runtime native options header c next = .ok (after, none))
    (hfinal : finalize app after = (done, .ok final)) :
    KeepsVary text settled final ∧ OwnOrigin options (header (js "origin")) final ↔
      StagedCovers text settled ∧
        OriginUncontested options (header (js "origin")) settled := by
  have hafter : (afterNext text options header settled : Except (Thrown τ) _) = .ok after := by
    have hpass : ¬(header (js "origin") ≠ [] ∧ options.allows (header (js "origin")) = false) := by
      rintro ⟨hne, hdenied⟩
      rcases hthrough with hnone | hallowed
      · exact hne hnone
      · rw [hallowed] at hdenied
        cases hdenied
    rw [corsHandler] at hcors
    simp only [hrequest, Bool.false_eq_true, if_false, if_neg hpass, hnext] at hcors
    obtain ⟨_, hsettles, hcors⟩ := Except.ok_of_bind hcors
    obtain rfl := Except.ok.inj hsettles
    obtain ⟨written, hwritten, hreturned⟩ := Except.ok_of_bind hcors
    obtain ⟨rfl, -⟩ := Prod.mk.inj (Except.ok.inj hreturned)
    exact hwritten
  obtain ⟨hwrites, hstagedVary, hallowed, hdenied⟩ := afterNext_spec hlower hvary hres hafter
  have hafterRes : after.res ≠ none := fun hnone => hres ((res_eq_none_iff hwrites).mp hnone)
  obtain ⟨-, hvalues⟩ := finalize_values (hwrites.writable hsettled) hafterRes hfinal
  have hplain : ∀ n, n ∉ CONTENT_HEADERS → ∀ values, shipped final.status n values = values :=
    fun n hn values => if_neg fun h => hn h.2
  -- A staged text is shipped as it is stored.
  have htext : ∀ n value, n ∉ CONTENT_HEADERS → n ≠ js "set-cookie" →
      after.stagedAt n = some (.one value) → final.headers.get n = some (normalized value) := by
    intro n value hcontent hcookie hstaged
    have hshipped := hvalues n hcookie
    simp only [hstaged, hplain n hcontent, Option.map_some, Option.getD_some, wireOf,
      readingOf_singleton, normalized_normalized, or_self] at hshipped
    rw [Headers.get, hshipped]
    rfl
  refine and_congr (keepsVary_iff ?_) ?_
  · rw [htext _ _ (by decide) (by decide) hstagedVary, responseHeaderValue_eq,
      (lower_names hlower).1, normalized_joinTokens]
    exact isListToken_of_mem_withToken isListToken_origin
  · rw [OwnOrigin, OriginUncontested]
    cases hallows : options.allows (header (js "origin")) with
    | true =>
      refine iff_of_true (fun value hvalue => ⟨rfl, ?_⟩) (.inl rfl)
      rw [htext _ _ (by decide) (by decide) (hallowed hallows)] at hvalue
      exact (Option.some.inj hvalue).symm
    | false =>
      obtain ⟨hstaged, hcarried⟩ := hdenied hallows
      have hnone : final.headers.get (js "access-control-allow-origin") = none ↔
          ((after.stagedAt (js "access-control-allow-origin")).map wireOf).getD
            (after.carriedAt (js "access-control-allow-origin")) = [] := by
        rw [Headers.get, getOf_eq_none_iff]
        rcases hvalues (js "access-control-allow-origin") (by decide) with heq | heq
        · rw [heq, hplain _ (by decide)]
        · rw [heq, hplain _ (by decide), readingOf_eq_nil_iff]
      rw [← hstaged, ← hcarried, ← hnone]
      simp [Option.eq_none_iff_forall_ne_some]

/-! ### Two answers -/

def latinText : FieldText := ⟨List.map lowerUnit, id⟩

def oneOrigin : CorsOptions JsString where
  origin := some (.text (js "https://a"))

def originHeader (name : JsString) : JsString := if name = js "origin" then js "https://a" else []

def variesBy (field : JsString) (c : Context Unit JsString) :
    Except (Thrown Unit) (Context Unit JsString) :=
  .ok (c.withRes ⟨200, [], ⟨[(js "vary", field)], false⟩, none⟩)

theorem cors_keepsVary_language : ∃ settled after done final,
    variesBy (js "Accept-Language") getContext = .ok settled ∧
      corsHandler latinText id plainApp.runtime false oneOrigin originHeader getContext
        (variesBy (js "Accept-Language")) = .ok (after, none) ∧
      finalize plainApp after = (done, .ok final) ∧ KeepsVary latinText settled final := by
  refine ⟨_, _, _, _, rfl, rfl, rfl, ?_⟩
  refine ((@cors_keepsVary_iff Unit JsString Unit latinText plainApp id false oneOrigin originHeader
    getContext _ _ _ (variesBy (js "Accept-Language")) _ lowersLatin_map rfl (by decide)
    (.inr (by decide)) rfl ⟨List.nodup_nil, ?_⟩ (fun h => Option.some_ne_none _ h) rfl
    rfl).mpr
    ⟨?_, .inl (by decide)⟩).1
  · rintro _ ⟨⟩
    rfl
  · rintro _ ⟨⟩

/-- What other middleware has staged hides the token of the handler's response. -/
theorem cors_drops_language : ∃ settled after done final,
    variesBy (js "Accept-Language") (stageHeader getContext (js "vary") (.one (js "Accept"))) =
        .ok settled ∧
      corsHandler latinText id plainApp.runtime false oneOrigin originHeader
        (stageHeader getContext (js "vary") (.one (js "Accept")))
        (variesBy (js "Accept-Language")) = .ok (after, none) ∧
      finalize plainApp after = (done, .ok final) ∧ ¬KeepsVary latinText settled final := by
  refine ⟨_, _, _, _, rfl, rfl, rfl, ?_⟩
  rintro ⟨-, hcarried, -⟩
  obtain ⟨other, hother, hlower⟩ := hcarried (js "Accept-Language") (by decide)
  have hnone : ∀ token ∈ [js "Accept", js "Origin"],
      latinText.lower token ≠ latinText.lower (js "Accept-Language") := by decide
  exact hnone other hother hlower

end Keala.Middleware
