import Keala.Negotiation.Ranges

/-!
The choice among the provided values. The range that defines a value is its
most specific one, of the highest quality, the first of these; the value chosen
is the greatest by quality, specificity and the two positions.
-/

namespace Keala.Negotiation

open Keala.Js

variable {lower normalize : JsString → JsString} {score : Preference → JsString → ℕ}

structure Defines (score : Preference → JsString → ℕ) (ranges : List Preference)
    (target : JsString) (range : Preference) : Prop where
  mem : range ∈ ranges
  matched : 0 < score range target
  first : ∀ other ∈ ranges, score other target < score range target ∨
    score other target = score range target ∧
      (other.q < range.q ∨ other.q = range.q ∧ range.order ≤ other.order)

structure Rank where
  quality : ℚ
  specificity : ℕ
  position : ℕ
  index : ℕ

/-- The lexicographic order; earlier positions are greater. -/
def Rank.le (a b : Rank) : Prop :=
  a.quality < b.quality ∨ a.quality = b.quality ∧
    (a.specificity < b.specificity ∨ a.specificity = b.specificity ∧
      (b.position < a.position ∨ b.position = a.position ∧ b.index ≤ a.index))

theorem Rank.le_refl (a : Rank) : a.le a := .inr ⟨rfl, .inr ⟨rfl, .inr ⟨rfl, Nat.le_refl _⟩⟩⟩

theorem Rank.le_trans {a b c : Rank} (hab : a.le b) (hbc : b.le c) : a.le c := by
  rw [Rank.le] at hab hbc ⊢
  rcases hab with hq | ⟨hq, hs⟩
  · left
    rcases hbc with hq' | ⟨hq', -⟩
    · exact hq.trans hq'
    · exact hq' ▸ hq
  · rcases hbc with hq' | ⟨hq', hs'⟩
    · exact .inl (hq ▸ hq')
    · refine .inr ⟨hq.trans hq', ?_⟩
      omega

theorem Rank.le_total (a b : Rank) : a.le b ∨ b.le a := by
  rw [Rank.le, Rank.le]
  rcases lt_trichotomy a.quality b.quality with hlt | heq | hgt
  · exact .inl (.inl hlt)
  · simp only [heq, lt_irrefl, true_and, false_or]
    omega
  · exact .inr (.inl hgt)

theorem Rank.index_eq {a b : Rank} (hab : a.le b) (hba : b.le a) : a.index = b.index := by
  rw [Rank.le] at hab hba
  rcases hab with hlt | ⟨heq, hab⟩
  · rcases hba with hlt' | ⟨heq', -⟩
    · exact absurd hlt (lt_asymm hlt')
    · exact absurd hlt (heq' ▸ lt_irrefl _)
  · rcases hba with hlt' | ⟨-, hba⟩
    · exact absurd hlt' (heq ▸ lt_irrefl _)
    · omega

/-- A provided value that is accepted, by the range that defines its quality. -/
def Ranked (normalize : JsString → JsString) (score : Preference → JsString → ℕ)
    (ranges : List Preference) (provided : List JsString) (rank : Rank) : Prop :=
  ∃ value range, provided[rank.index]? = some value ∧ normalize value ≠ [] ∧
    Defines score ranges (normalize value) range ∧ 0 < range.q ∧
    rank = ⟨range.q, score range (normalize value), range.order, rank.index⟩

/-! ### The range of a value -/

def Found (score : Preference → JsString → ℕ) (ranges : List Preference) (target : JsString) :
    Option Preference × ℕ → Prop
  | (none, s) => s = 0 ∧ ∀ range ∈ ranges, score range target = 0
  | (some range, s) => s = score range target ∧ Defines score ranges target range

theorem definingMatch_found (target : JsString) {ranges : List Preference}
    (h : ranges.Pairwise fun a b => a.order < b.order) :
    Found score ranges target (definingMatch score ranges target) := by
  induction ranges using List.reverseRecOn with
  | nil => exact ⟨rfl, fun _ hrange => absurd hrange List.not_mem_nil⟩
  | append_singleton ranges last ih =>
      rw [List.pairwise_append] at h
      have hfound := ih h.1
      have hlater : ∀ other ∈ ranges, other.order < last.order :=
        fun other hother => h.2.2 other hother last (List.mem_singleton_self last)
      rw [definingMatch, List.foldl_append, List.foldl_cons, List.foldl_nil]
      change Found score _ target (matchStep score target (definingMatch score ranges target) last)
      generalize definingMatch score ranges target = found at hfound
      match found, hfound with
      | (none, s), ⟨hzero, hnone⟩ =>
          subst hzero
          rw [matchStep]
          split
          · next htaken =>
              have hpos : 0 < score last target := by
                simp only [Bool.or_eq_true, Bool.and_eq_true, decide_eq_true_eq] at htaken
                omega
              refine ⟨rfl, by simp, hpos, ?_⟩
              intro other hother
              rcases List.mem_append.mp hother with hother | hother
              · exact .inl (hnone other hother ▸ hpos)
              · rw [List.mem_singleton.mp hother]
                exact .inr ⟨rfl, .inr ⟨rfl, Nat.le_refl _⟩⟩
          · next hleft =>
              refine ⟨rfl, ?_⟩
              intro other hother
              rcases List.mem_append.mp hother with hother | hother
              · exact hnone other hother
              · rw [List.mem_singleton.mp hother]
                simp only [Bool.or_eq_true, decide_eq_true_eq, not_or] at hleft
                omega
      | (some range, s), ⟨hs, hdefines⟩ =>
          subst hs
          rw [matchStep]
          split
          · next htaken =>
              -- More specific than all before, or as specific and of a higher quality.
              simp only [Bool.or_eq_true, Bool.and_eq_true, decide_eq_true_eq, Option.map_some,
                Option.getD_some] at htaken
              have hpos := hdefines.matched
              refine ⟨rfl, by simp, by omega, ?_⟩
              intro other hother
              rcases List.mem_append.mp hother with hother | hother
              · have hfirst := hdefines.first other hother
                rcases htaken with hmore | ⟨⟨hsame, -⟩, hq⟩
                · left
                  omega
                · rcases hfirst with hless | ⟨heq, hquality⟩
                  · left
                    omega
                  · refine .inr ⟨by omega, .inl ?_⟩
                    rcases hquality with hlt | ⟨heq', -⟩
                    · exact hlt.trans hq
                    · exact heq' ▸ hq
              · rw [List.mem_singleton.mp hother]
                exact .inr ⟨rfl, .inr ⟨rfl, Nat.le_refl _⟩⟩
          · next hleft =>
              refine ⟨rfl, by simp [hdefines.mem], hdefines.matched, ?_⟩
              intro other hother
              rcases List.mem_append.mp hother with hother | hother
              · exact hdefines.first other hother
              · rw [List.mem_singleton.mp hother]
                simp only [Bool.or_eq_true, Bool.and_eq_true, decide_eq_true_eq, Option.map_some,
                  Option.getD_some, not_or, not_and, not_lt] at hleft
                have hpos := hdefines.matched
                rcases Nat.lt_or_eq_of_le hleft.1 with hless | heq
                · exact .inl hless
                · have hq := hleft.2 ⟨heq, by omega⟩
                  refine .inr ⟨heq, ?_⟩
                  rcases lt_or_eq_of_le hq with hlt | hsame
                  · exact .inl hlt
                  · exact .inr ⟨hsame, (hlater range hdefines.mem).le⟩

/-- Two ranges that define a value agree in what it competes on. -/
theorem Defines.unique {ranges : List Preference} {target : JsString} {a b : Preference}
    (ha : Defines score ranges target a) (hb : Defines score ranges target b) :
    a.q = b.q ∧ score a target = score b target ∧ a.order = b.order := by
  have hab := hb.first a ha.mem
  have hba := ha.first b hb.mem
  rcases hab with hless | ⟨hs, hq⟩
  · omega
  · rcases hba with hless | ⟨-, hq'⟩
    · omega
    · rcases hq with hlt | ⟨heq, hle⟩
      · rcases hq' with hlt' | ⟨heq', -⟩
        · exact absurd hlt (lt_asymm hlt')
        · exact absurd hlt (heq' ▸ lt_irrefl _)
      · rcases hq' with hlt' | ⟨-, hle'⟩
        · exact absurd hlt' (heq ▸ lt_irrefl _)
        · exact ⟨heq, hs, Nat.le_antisymm hle' hle⟩

/-! ### The value -/

/-- The variables of the outer loop hold the greatest rank so far. -/
def Leads (normalize : JsString → JsString) (score : Preference → JsString → ℕ)
    (ranges : List Preference) (provided : List JsString) (best : Best) : Prop :=
  best = ⟨none, 0, 0, ⊤⟩ ∧ (∀ rank, ¬ Ranked normalize score ranges provided rank) ∨
    ∃ rank, Ranked normalize score ranges provided rank ∧
      best = ⟨some rank.index, rank.quality, rank.specificity, rank.position⟩ ∧
      ∀ other, Ranked normalize score ranges provided other → other.le rank

theorem Ranked.concat {ranges : List Preference} {provided : List JsString} {rank : Rank}
    (value : JsString) (h : Ranked normalize score ranges provided rank) :
    Ranked normalize score ranges (provided ++ [value]) rank := by
  obtain ⟨v, range, hv, hrest⟩ := h
  refine ⟨v, range, ?_, hrest⟩
  have hlt : rank.index < provided.length := (List.getElem?_eq_some_iff.mp hv).1
  rw [List.getElem?_append_left hlt, hv]

theorem Ranked.index_lt {ranges : List Preference} {provided : List JsString} {rank : Rank}
    (h : Ranked normalize score ranges provided rank) : rank.index < provided.length := by
  obtain ⟨v, range, hv, -⟩ := h
  exact (List.getElem?_eq_some_iff.mp hv).1

/-- A rank among one value more is that value's or an earlier one. -/
theorem ranked_concat {ranges : List Preference} {provided : List JsString} {value : JsString}
    {rank : Rank} (h : Ranked normalize score ranges (provided ++ [value]) rank) :
    Ranked normalize score ranges provided rank ∨
      rank.index = provided.length ∧ normalize value ≠ [] ∧
        ∃ range, Defines score ranges (normalize value) range ∧ 0 < range.q ∧
          rank = ⟨range.q, score range (normalize value), range.order, provided.length⟩ := by
  have hlt := h.index_lt
  obtain ⟨v, range, hv, hne, hdefines, hq, hrank⟩ := h
  rw [List.length_append, List.length_singleton] at hlt
  rcases Nat.lt_or_eq_of_le (Nat.le_of_lt_succ hlt) with hearlier | hlast
  · rw [List.getElem?_append_left hearlier] at hv
    exact .inl ⟨v, range, hv, hne, hdefines, hq, hrank⟩
  · rw [hlast, List.getElem?_concat_length] at hv
    cases hv
    exact .inr ⟨hlast, hne, range, hdefines, hq, hlast ▸ hrank⟩

/-- The comparison of the outer loop is that of the ranks. -/
theorem beats_iff {range : Preference} {s : ℕ} {rank : Rank} {index : ℕ}
    (hindex : rank.index < index) :
    beats range s ⟨some rank.index, rank.quality, rank.specificity, rank.position⟩ = true ↔
      ¬ Rank.le ⟨range.q, s, range.order, index⟩ rank := by
  simp only [beats, Rank.le, Bool.or_eq_true, Bool.and_eq_true, decide_eq_true_eq,
    Nat.cast_lt]
  rcases lt_trichotomy rank.quality range.q with hlt | heq | hgt
  · simp [hlt, hlt.ne', lt_asymm hlt]
  · simp only [heq, lt_irrefl, true_and, false_or]
    omega
  · simp [hgt, hgt.ne, lt_asymm hgt]

/-- A value without an accepted range adds no rank. -/
theorem Leads.skip {ranges : List Preference} {provided : List JsString} {best : Best}
    (h : Leads normalize score ranges provided best) {value : JsString}
    (hnone : ∀ range, normalize value ≠ [] → Defines score ranges (normalize value) range →
      ¬ 0 < range.q) :
    Leads normalize score ranges (provided ++ [value]) best := by
  have hsame : ∀ rank, Ranked normalize score ranges (provided ++ [value]) rank →
      Ranked normalize score ranges provided rank := by
    intro rank hrank
    rcases ranked_concat hrank with hearlier | ⟨-, hne, range, hdefines, hq, -⟩
    · exact hearlier
    · exact absurd hq (hnone range hne hdefines)
  rcases h with ⟨hbest, hempty⟩ | ⟨rank, hrank, hbest, hmax⟩
  · exact .inl ⟨hbest, fun rank hrank => hempty rank (hsame rank hrank)⟩
  · exact .inr ⟨rank, hrank.concat value, hbest,
    fun other hother => hmax other (hsame other hother)⟩

/-- A value competes by its rank. -/
theorem Leads.compete {ranges : List Preference} {provided : List JsString} {best : Best}
    (h : Leads normalize score ranges provided best) {value : JsString} {range : Preference}
    (hne : normalize value ≠ []) (hdefines : Defines score ranges (normalize value) range)
    (hq : 0 < range.q) :
    Leads normalize score ranges (provided ++ [value])
      (if beats range (score range (normalize value)) best then
        ⟨some provided.length, range.q, score range (normalize value), range.order⟩ else best) := by
  have hnew : Ranked normalize score ranges (provided ++ [value])
      ⟨range.q, score range (normalize value), range.order, provided.length⟩ :=
    ⟨value, range, List.getElem?_concat_length, hne, hdefines, hq, rfl⟩
  have hcases : ∀ other, Ranked normalize score ranges (provided ++ [value]) other →
      Ranked normalize score ranges provided other ∨
        other = ⟨range.q, score range (normalize value), range.order, provided.length⟩ := by
    intro other hother
    rcases ranked_concat hother with hearlier | ⟨-, -, range', hdefines', -, rfl⟩
    · exact .inl hearlier
    · obtain ⟨hquality, hscore, horder⟩ := hdefines'.unique hdefines
      rw [hquality, hscore, horder]
      exact .inr rfl
  rcases h with ⟨rfl, hempty⟩ | ⟨rank, hrank, rfl, hmax⟩
  · have hbeats : beats range (score range (normalize value)) ⟨none, 0, 0, ⊤⟩ = true := by
      simp [beats, hq]
    rw [if_pos hbeats]
    refine .inr ⟨_, hnew, rfl, ?_⟩
    intro other hother
    rcases hcases other hother with hearlier | rfl
    · exact absurd hearlier (hempty other)
    · exact Rank.le_refl _
  · have hbeats : beats range (score range (normalize value))
        ⟨some rank.index, rank.quality, rank.specificity, rank.position⟩ = true ↔
          ¬ Rank.le ⟨range.q, score range (normalize value), range.order, provided.length⟩ rank :=
      beats_iff hrank.index_lt
    split
    · next htaken =>
        have hgreater := (Rank.le_total _ rank).resolve_left (hbeats.mp htaken)
        refine .inr ⟨_, hnew, rfl, ?_⟩
        intro other hother
        rcases hcases other hother with hearlier | rfl
        · exact Rank.le_trans (hmax other hearlier) hgreater
        · exact Rank.le_refl _
    · next hleft =>
        refine .inr ⟨rank, hrank.concat value, rfl, ?_⟩
        intro other hother
        rcases hcases other hother with hearlier | rfl
        · exact hmax other hearlier
        · by_contra hless
          exact hleft (hbeats.mpr hless)

theorem Leads.step {ranges : List Preference}
    (hordered : ranges.Pairwise fun a b => a.order < b.order) {provided : List JsString}
    {best : Best} (h : Leads normalize score ranges provided best) (value : JsString) :
    Leads normalize score ranges (provided ++ [value])
      (pickStep normalize score ranges best (value, provided.length)) := by
  rw [pickStep]
  split
  · next hempty => exact h.skip fun range hne => absurd hempty hne
  · next hne =>
      have hfound : Found score ranges (normalize value)
          (definingMatch score ranges (normalize value)) := definingMatch_found _ hordered
      generalize definingMatch score ranges (normalize value) = found at hfound
      match found, hfound with
      | (none, s), ⟨_, hnone⟩ =>
          refine h.skip fun range _ hdefines => ?_
          exact absurd (hnone range hdefines.mem) (Nat.ne_of_gt hdefines.matched)
      | (some range, s), ⟨hs, hdefines⟩ =>
          subst hs
          dsimp only
          split
          · next hrefused =>
              refine h.skip fun other _ hother => ?_
              rw [(hother.unique hdefines).1]
              exact not_lt.mpr hrefused
          · next haccepted => exact h.compete hne hdefines (not_le.mp haccepted)

theorem leads_fold {ranges : List Preference}
    (hordered : ranges.Pairwise fun a b => a.order < b.order) (provided : List JsString) :
    Leads normalize score ranges provided
      (provided.zipIdx.foldl (pickStep normalize score ranges) ⟨none, 0, 0, ⊤⟩) := by
  induction provided using List.reverseRecOn with
  | nil =>
      refine .inl ⟨rfl, fun rank hrank => ?_⟩
      exact absurd hrank.index_lt (Nat.not_lt_zero _)
  | append_singleton provided value ih =>
      have hstep := ih.step hordered value
      rwa [List.zipIdx_append, List.foldl_append, List.zipIdx_singleton, Nat.zero_add,
        List.foldl_cons, List.foldl_nil]

/-- Without a header the first value is chosen. Otherwise it is a value whose rank is the
greatest, of those that are not empty when normalized and that a range accepts; there is
no choice exactly when there are none of these. -/
theorem pickPreference_best (lower : JsString → JsString) (header : Option JsString)
    (provided : List JsString) (normalize : JsString → JsString)
    (score : Preference → JsString → ℕ) :
    (header.getD [] = [] →
      pickPreference lower header provided normalize score = provided.head?) ∧
    ∀ text, header = some text → text ≠ [] →
      (∀ value, pickPreference lower header provided normalize score = some value ↔
        ∃ rank, Ranked normalize score (ranges lower text) provided rank ∧
          provided[rank.index]? = some value ∧
          ∀ other, Ranked normalize score (ranges lower text) provided other → other.le rank) ∧
      (pickPreference lower header provided normalize score = none ↔
        ∀ rank, ¬ Ranked normalize score (ranges lower text) provided rank) := by
  refine ⟨fun hempty => by rw [pickPreference, if_pos hempty], ?_⟩
  rintro text rfl hne
  have hleads : Leads normalize score (ranges lower text) provided _ :=
    leads_fold (ranges_ordered text) provided
  rw [pickPreference, if_neg (by simpa using hne), parsePreferenceEntries_eq hne]
  dsimp only
  rcases hleads with ⟨hbest, hnone⟩ | ⟨rank, hrank, hbest, hmax⟩
  · rw [hbest]
    refine ⟨fun value => ⟨nofun, ?_⟩, fun _ => hnone, fun _ => rfl⟩
    rintro ⟨rank, hrank, -⟩
    exact absurd hrank (hnone rank)
  · rw [hbest, Option.bind_some]
    refine ⟨fun value => ⟨fun hvalue => ⟨rank, hrank, hvalue, hmax⟩, ?_⟩, ?_⟩
    · rintro ⟨other, hother, hvalue, hgreatest⟩
      rw [Rank.index_eq (hgreatest rank hrank) (hmax other hother), hvalue]
    · have hlt := hrank.index_lt
      rw [List.getElem?_eq_getElem hlt]
      exact ⟨nofun, fun hnone => absurd hrank (hnone rank)⟩

theorem pickPreference_best_json :
    ∃ rank, Ranked (expand id) (mediaScore id) (ranges id (js "text/*, application/json;q=0.5"))
        [js "json", js "html"] rank ∧ [js "json", js "html"][rank.index]? = some (js "html") := by
  have hbest := (pickPreference_best id (some (js "text/*, application/json;q=0.5"))
    [js "json", js "html"] (expand id) (mediaScore id)).2 _ rfl (by decide)
  obtain ⟨rank, hrank, hvalue, -⟩ := (hbest.1 (js "html")).mp (by decide +kernel)
  exact ⟨rank, hrank, hvalue⟩

/-- A range accepts the empty value, which is passed over all the same. -/
theorem empty_value_passed_over :
    pickPreference id (some (js "*/*")) [[]] (expand id) (mediaScore id) = none ∧
      ∃ range, Defines (mediaScore id) (ranges id (js "*/*")) (expand id []) range ∧
        0 < range.q := by
  refine ⟨by decide +kernel, ⟨js "*/*", 1, 0, none⟩, ⟨by decide +kernel, by decide +kernel, ?_⟩,
    by decide⟩
  intro other hother
  have hranges : ranges id (js "*/*") = [⟨js "*/*", 1, 0, none⟩] := by decide +kernel
  rw [hranges, List.mem_singleton] at hother
  rw [hother]
  exact .inr ⟨rfl, .inr ⟨rfl, Nat.le_refl _⟩⟩

end Keala.Negotiation
