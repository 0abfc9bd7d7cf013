import Keala.Http.QueryScan
import Keala.Js.WellFormed
import Keala.Lib.Grouping
import Mathlib.Algebra.Order.BigOperators.Group.List

/-!
The values a targeted lookup returns beside the pairs of the query string: they
are the same unless a key that holds a separator is read out of other pairs, or
the name cannot be encoded.
-/

namespace Keala.Http

open Keala.Js Grouping

variable {input name form : JsString}

/-! ### The pairs of one key -/

def pairsKeyed (input key : JsString) : List JsString :=
  (split 38 input).filter fun pair => pairKey pair = key

theorem filter_pairKey_cons (pair key : JsString) (pairs : List JsString) :
    ((pair :: pairs).filter fun p => pairKey p = key) =
      if pairKey pair = key then pair :: pairs.filter fun p => pairKey p = key
      else pairs.filter fun p => pairKey p = key := by
  rw [List.filter_cons]
  simp only [decide_eq_true_eq]

/-- From pair to pair the entries of a plain key are those of its pairs. -/
theorem entriesWithin_pairs (hname : PlainKey name) {pairs : List JsString} (hne : pairs ≠ [])
    (hbare : ∀ p ∈ pairs, 38 ∉ p) {front : JsString} (hinput : input = front ++ join 38 pairs)
    (hbefore : front = [] ∨ front.getLast? = some 38) {fuel : ℕ} (hfuel : pairs.length ≤ fuel) :
    (entriesWithin input name fuel front.length).map (entryValue input) =
      (pairs.filter fun p => pairKey p = name).map valueOf := by
  induction pairs generalizing front fuel with
  | nil => exact absurd rfl hne
  | cons pair pairs ih =>
      obtain ⟨fuel, rfl⟩ : ∃ rounds, fuel = rounds + 1 :=
        ⟨fuel - 1, by rw [List.length_cons] at hfuel; omega⟩
      rw [filter_pairKey_cons]
      cases pairs with
      | nil =>
          rw [join_singleton] at hinput
          -- The last pair: the scan ends behind it.
          have hin : PairIn input front pair [] :=
            ⟨by rw [hinput, List.append_nil], hbare pair List.mem_cons_self, hbefore, .inl rfl⟩
          have hlength : input.length = front.length + pair.length := by
            rw [hinput, List.length_append]
          by_cases hkey : pairKey pair = name
          · have hhit := (hin.stands_iff hname (Nat.zero_le _)).mpr ⟨rfl, hkey⟩
            obtain ⟨hstop, hvalue⟩ := hin.entryAt hname hkey
            rw [Nat.add_zero] at hhit
            have hafter : ∀ q, front.length + pair.length ≤ q → ¬ Stands input name q := by
              intro q hq hstands
              have hlt := hstands.lt
              omega
            rw [if_pos hkey, entriesWithin, findQueryEntry_hit hhit]
            dsimp only
            rw [hstop, entriesWithin_nil fuel hafter, List.map_cons, hvalue]
            rfl
          · rw [if_neg hkey, entriesWithin_nil (fuel + 1)]
            · rfl
            · intro q hq hstands
              have hlt := hstands.lt
              obtain ⟨j, rfl⟩ := Nat.exists_eq_add_of_le hq
              exact hkey ((hin.stands_iff hname (by omega)).mp hstands).2
      | cons next pairs =>
          rw [join_cons_cons] at hinput
          have hin : PairIn input front pair (38 :: join 38 (next :: pairs)) :=
            ⟨by rw [hinput, List.append_assoc], hbare pair List.mem_cons_self, hbefore, .inr rfl⟩
          have hnext : input = (front ++ pair ++ [38]) ++ join 38 (next :: pairs) := by
            rw [hinput]
            simp
          have hfront : (front ++ pair ++ [38]).length = front.length + pair.length + 1 := by
            simp [Nat.add_assoc]
          have hrest := fun rounds (hrounds : (next :: pairs).length ≤ rounds) =>
            ih (List.cons_ne_nil _ _) (fun p hp => hbare p (List.mem_cons_of_mem _ hp)) hnext
              (.inr (List.getLast?_concat ..)) hrounds
          rw [hfront] at hrest
          rw [List.length_cons] at hfuel
          by_cases hkey : pairKey pair = name
          · -- A hit: the scan goes on behind the separator, a round later.
            have hhit := (hin.stands_iff hname (Nat.zero_le _)).mpr ⟨rfl, hkey⟩
            obtain ⟨hstop, hvalue⟩ := hin.entryAt hname hkey
            rw [Nat.add_zero] at hhit
            have hsep : ∀ r, front.length + pair.length ≤ r → r < front.length + pair.length + 1 →
                ¬ Stands input name r := by
              intro r hr hlt hstands
              obtain rfl : r = front.length + pair.length := by omega
              have hempty := ((hin.stands_iff hname (Nat.le_refl _)).mp hstands).1
              rw [List.eq_nil_of_length_eq_zero hempty] at hkey
              exact hname.nonempty hkey.symm
            rw [if_pos hkey, entriesWithin, findQueryEntry_hit hhit]
            dsimp only
            rw [hstop, entriesWithin_skip fuel (Nat.le_succ _) hsep, List.map_cons, hvalue,
              hrest fuel (by omega)]
            rfl
          · -- The key is nowhere in the pair, so the same round finds the next hit.
            have hskip : ∀ r, front.length ≤ r → r < front.length + pair.length + 1 →
                ¬ Stands input name r := by
              intro r hr hlt hstands
              obtain ⟨j, rfl⟩ := Nat.exists_eq_add_of_le hr
              exact hkey ((hin.stands_iff hname (by omega)).mp hstands).2
            rw [if_neg hkey, entriesWithin_skip (fuel + 1) (by omega) hskip,
              hrest (fuel + 1) (by omega)]

theorem entriesOf_plain (hname : PlainKey name) (input : JsString) :
    (entriesOf input name).map (entryValue input) = (pairsKeyed input name).map valueOf :=
  entriesWithin_pairs hname (split_ne_nil 38 input) (fun _ => not_mem_of_mem_split)
    (join_split 38 input).symm (.inl rfl) (length_split_le 38 input)

/-! ### Keys with a separator -/

/-- A key that holds a separator stands in the query string where a key would:
at its start or behind an `&`, before its end, an `=` or an `&`. -/
def Misread (input form : JsString) : Prop :=
  (38 ∈ form ∨ 61 ∈ form) ∧
    ∃ front rest, input = front ++ form ++ rest ∧ (front = [] ∨ front.getLast? = some 38) ∧
      (rest = [] ∨ rest.head? = some 61 ∨ rest.head? = some 38)

theorem exists_stands_iff :
    (∃ q, Stands input form q) ↔ form ≠ [] ∧
      ∃ front rest, input = front ++ form ++ rest ∧ (front = [] ∨ front.getLast? = some 38) ∧
        (rest = [] ∨ rest.head? = some 61 ∨ rest.head? = some 38) := by
  constructor
  · rintro ⟨q, hstands⟩
    obtain ⟨front, rest, hinput, rfl⟩ := hstands.exists_split
    have hsplit := hstands
    rw [hinput, stands_split] at hsplit
    exact ⟨hsplit.1, front, rest, hinput, hsplit.2⟩
  · rintro ⟨hne, front, rest, rfl, haround⟩
    exact ⟨front.length, (stands_split front form rest).mpr ⟨hne, haround⟩⟩

theorem pairKey_plain {pair : JsString} (h : pair ∈ split 38 input) :
    38 ∉ pairKey pair ∧ 61 ∉ pairKey pair := by
  constructor
  · exact fun hmem => not_mem_of_mem_split h ((List.takeWhile_prefix _).subset hmem)
  · exact fun hmem => by simpa using List.mem_takeWhile_imp hmem

/-- A key with a separator has no pairs, and entries only where it is misread. -/
theorem entriesOf_separator (hne : form ≠ []) (hsep : 38 ∈ form ∨ 61 ∈ form) :
    pairsKeyed input form = [] ∧ (entriesOf input form = [] ↔ ¬ Misread input form) := by
  constructor
  · refine List.filter_eq_nil_iff.mpr fun pair hpair hkey => ?_
    obtain ⟨hamp, hequals⟩ := pairKey_plain hpair
    rw [decide_eq_true_eq] at hkey
    rw [hkey] at hamp hequals
    exact hsep.elim hamp hequals
  · rw [entriesOf_eq_nil_iff, ← not_exists, exists_stands_iff, Misread]
    simp [hne, hsep]

/-- Each form contributes at least the values of its pairs, and exactly these
where it is not misread. -/
theorem entriesOf_form (hne : form ≠ []) (input : JsString) :
    (¬ Misread input form →
        (entriesOf input form).map (entryValue input) = (pairsKeyed input form).map valueOf) ∧
      (pairsKeyed input form).length ≤ (entriesOf input form).length ∧
      (Misread input form → (pairsKeyed input form).length < (entriesOf input form).length) := by
  by_cases hsep : 38 ∈ form ∨ 61 ∈ form
  · obtain ⟨hnone, hentries⟩ := @entriesOf_separator input form hne hsep
    rw [hnone]
    refine ⟨fun h => ?_, Nat.zero_le _, fun h => ?_⟩
    · rw [hentries.mpr h]
      rfl
    · exact List.length_pos_of_ne_nil fun hempty => hentries.mp hempty h
  · rw [not_or] at hsep
    have hplain := entriesOf_plain ⟨hne, hsep.1, hsep.2⟩ input
    have hlength := congrArg List.length hplain
    rw [List.length_map, List.length_map] at hlength
    refine ⟨fun _ => hplain, Nat.le_of_eq hlength.symm, fun h => ?_⟩
    exact absurd h.1 (by simp [hsep])

/-! ### The forms of a name -/

structure FormsOf (name : JsString) (forms : List JsString) : Prop where
  nodup : forms.Nodup
  spells : ∀ key, key ∈ forms ↔ Spells name key
  nonempty : ∀ form ∈ forms, form ≠ []

theorem mem_replaceUnit {old new c : CodeUnit} {text : JsString} :
    c ∈ replaceUnit old new text ↔ (c ∈ text ∧ c ≠ old) ∨ (c = new ∧ old ∈ text) := by
  rw [replaceUnit, List.mem_map]
  constructor
  · rintro ⟨d, hd, heq⟩
    split at heq
    · next hold => exact .inr ⟨heq.symm, hold ▸ hd⟩
    · next hold => exact .inl ⟨heq ▸ hd, heq ▸ hold⟩
  · rintro (⟨hc, hold⟩ | ⟨rfl, hold⟩)
    · exact ⟨c, hc, if_neg hold⟩
    · exact ⟨old, hold, if_pos rfl⟩

/-- No encoded name holds a separator, a blank or a `+`. -/
theorem notMem_encoded {encoded : JsString} (h : encodeURIComponent name = some encoded)
    {c : CodeUnit} (hc : isEncoded c = false) : c ∉ encoded := fun hmem => by
  rw [isEncoded_of_mem h hmem] at hc
  cases hc

theorem encoded_ne_nil {encoded : JsString} (h : encodeURIComponent name = some encoded)
    (hne : name ≠ []) : encoded ≠ [] := by
  rintro rfl
  exact hne (encodeURIComponent_inj h rfl)

theorem replaceUnit_eq_nil_iff {old new : CodeUnit} {text : JsString} :
    replaceUnit old new text = [] ↔ text = [] :=
  List.map_eq_nil_iff

/-- What the forms of a name are: the name, its encoded form where that is
another text, and its form with `+` where it holds a blank. -/
inductive FormsShape (name : JsString) : List JsString → Prop
  | raw (hencoded : encodeURIComponent name = some name) (hplus : replaceUnit 32 43 name = name) :
      FormsShape name [name]
  | encoded {encoded : JsString} (hencoded : encodeURIComponent name = some encoded)
      (hplus : replaceUnit 32 43 name = name) (hne : encoded ≠ name) :
      FormsShape name [name, encoded]
  | plus {encoded : JsString} (hencoded : encodeURIComponent name = some encoded)
      (hne : encoded ≠ name) (hname : replaceUnit 32 43 name ≠ name)
      (hplus : replaceUnit 32 43 name ≠ encoded) :
      FormsShape name [name, encoded, replaceUnit 32 43 name]

theorem formsShape_of_compute {forms : List JsString} (h : computeWireForms name = some forms) :
    FormsShape name forms := by
  obtain ⟨encoded, hencoded, rfl⟩ := Option.map_eq_some_iff.mp h
  dsimp only
  by_cases hblank : 32 ∈ name
  · -- a blank is encoded, and the `+` for it is in no encoded text
    have hsame : encoded ≠ name := by
      rintro rfl
      exact notMem_encoded hencoded (by decide) hblank
    have hplus : (43 : CodeUnit) ∈ replaceUnit 32 43 name :=
      mem_replaceUnit.mpr (.inr ⟨rfl, hblank⟩)
    have hplusEncoded : replaceUnit 32 43 name ≠ encoded := by
      intro heq
      exact notMem_encoded hencoded (by decide) (heq ▸ hplus)
    have hplusName : replaceUnit 32 43 name ≠ name := by
      intro heq
      rcases mem_replaceUnit.mp (heq.symm ▸ hblank) with ⟨-, hold⟩ | ⟨hold, -⟩
      · exact hold rfl
      · exact absurd hold (by decide)
    rw [if_neg hsame, if_pos hblank]
    exact .plus hencoded hsame hplusName hplusEncoded
  · have hplus : replaceUnit 32 43 name = name := replaceUnit_of_notMem hblank 43
    rw [if_neg hblank]
    split
    · next hsame => exact .raw (hsame ▸ hencoded) hplus
    · next hsame => exact .encoded hencoded hplus hsame

theorem formsOf_computeWireForms {forms : List JsString} (hne : name ≠ [])
    (h : computeWireForms name = some forms) : FormsOf name forms := by
  have hplusNil : replaceUnit 32 43 name ≠ [] := fun hnil => hne (replaceUnit_eq_nil_iff.mp hnil)
  cases formsShape_of_compute h with
  | raw hencoded hplus =>
      refine ⟨by simp, fun key => ?_, by simpa using hne⟩
      rw [Spells, hencoded, hplus, Option.some.injEq, List.mem_singleton]
      tauto
  | @encoded encoded hencoded hplus hother =>
      refine ⟨by simp [Ne.symm hother], fun key => ?_, by simp [hne, encoded_ne_nil hencoded hne]⟩
      rw [Spells, hencoded, hplus, Option.some.injEq]
      simp only [List.mem_cons, List.not_mem_nil, or_false]
      tauto
  | @plus encoded hencoded hother hname hplus =>
      refine ⟨by simp [Ne.symm hother, Ne.symm hname, Ne.symm hplus], fun key => ?_,
        by simp [hne, encoded_ne_nil hencoded hne, hplusNil]⟩
      rw [Spells, hencoded, Option.some.injEq]
      simp only [List.mem_cons, List.not_mem_nil, or_false]
      tauto

/-- Form by form the pairs are those of the name, in some order. -/
theorem pairsNamed_perm {forms : List JsString} (hne : name ≠ []) (hforms : FormsOf name forms)
    (input : JsString) :
    (grouped pairKey forms (split 38 input)).Perm (pairsNamed input name) := by
  refine (grouped_perm hforms.nodup (split 38 input)).trans (List.Perm.of_eq ?_)
  refine List.filter_congr fun pair _ => ?_
  simp [hne, hforms.spells]

/-! ### The table of forms -/

abbrev FormsSound : WireFormsCache → Prop :=
  Memo.Sound WIRE_FORMS_MAX fun name forms => computeWireForms name = some forms

theorem wireForms_eq {cache : WireFormsCache} (h : FormsSound cache) (name : JsString) :
    (wireForms cache name).1 = computeWireForms name := by
  unfold wireForms
  split
  · next memo hmemo => exact (h.answers hmemo).symm
  · split
    · next hnone => rw [hnone]
    · next forms hforms => rw [hforms]

theorem wireForms_sound {cache : WireFormsCache} (h : FormsSound cache) (name : JsString) :
    FormsSound (wireForms cache name).2 := by
  unfold wireForms
  split
  · exact h
  · split
    · exact h
    · next forms hforms => exact h.remember hforms

theorem findAllQueryValues_sound {cache : WireFormsCache} (h : FormsSound cache)
    (input name : JsString) : FormsSound (findAllQueryValues cache input name).2 := by
  unfold findAllQueryValues
  split
  · exact h
  · exact wireForms_sound h name

theorem cacheAfter_sound (history : List (JsString × JsString)) :
    FormsSound (cacheAfter history) := by
  have hrun : ∀ (calls : List (JsString × JsString)) (cache : WireFormsCache), FormsSound cache →
      FormsSound (calls.foldl (fun cache call => (findAllQueryValues cache call.1 call.2).2)
        cache) := by
    intro calls
    induction calls with
    | nil => exact fun _ h => h
    | cons call calls ih => exact fun cache h => ih _ (findAllQueryValues_sound h call.1 call.2)
  exact hrun history [] Memo.Sound.nil

/-! ### What the readers return -/

theorem findAllQueryValues_eq {cache : WireFormsCache} (h : FormsSound cache)
    {input name : JsString} (hinput : input ≠ []) (hname : name ≠ []) :
    (findAllQueryValues cache input name).1 = (computeWireForms name).map (allValues input) := by
  have hempty : ¬ (input.length = 0 ∨ name.length = 0) := by simp [hinput, hname]
  rw [findAllQueryValues, if_neg hempty, ← wireForms_eq h]

theorem findQueryValue_eq {cache : WireFormsCache} (h : FormsSound cache) {input name : JsString}
    (hinput : input ≠ []) (hname : name ≠ []) :
    (findQueryValue cache input name).1 =
      (computeWireForms name).map fun forms => (allValues input forms).head? := by
  have hempty : ¬ (input.length = 0 ∨ name.length = 0) := by simp [hinput, hname]
  rw [findQueryValue, if_neg hempty, ← wireForms_eq h]
  exact congrArg (Option.map · _) (funext fun forms => firstValue_eq input forms)

/-- No form of the name is misread, and the name can be encoded unless there is
nothing to read. -/
structure Legible (input name : JsString) : Prop where
  encodes : input ≠ [] → isWellFormed name = true
  raw : ¬ Misread input name
  plus : ¬ Misread input (replaceUnit 32 43 name)

theorem not_misread_of_spells {key : JsString} (h : Legible input name) (hkey : Spells name key) :
    ¬ Misread input key := by
  rcases hkey with rfl | hencoded | rfl
  · exact h.raw
  · rintro ⟨hamp | hequals, -⟩
    · exact notMem_encoded hencoded (by decide) hamp
    · exact notMem_encoded hencoded (by decide) hequals
  · exact h.plus

/-- In a legible query string the values come form by form. -/
theorem allValues_legible {forms : List JsString} (h : Legible input name)
    (hforms : FormsOf name forms) :
    allValues input forms = (grouped pairKey forms (split 38 input)).map valueOf := by
  rw [allValues, grouped, List.map_flatMap]
  refine List.flatMap_congr fun form hform => ?_
  exact (entriesOf_form (hforms.nonempty form hform) input).1
    (not_misread_of_spells h ((hforms.spells form).mp hform))

theorem length_allValues_lt {forms : List JsString} (hforms : FormsOf name forms) {form : JsString}
    (hform : form ∈ forms) (hmis : Misread input form) :
    (grouped pairKey forms (split 38 input)).length < (allValues input forms).length := by
  rw [allValues, grouped, List.length_flatMap, List.length_flatMap]
  refine List.sum_lt_sum _ _ (fun other hother => ?_) ⟨form, hform, ?_⟩
  · rw [List.length_map]
    exact (entriesOf_form (hforms.nonempty other hother) input).2.1
  · rw [List.length_map]
    exact (entriesOf_form (hforms.nonempty form hform) input).2.2 hmis

/-! ### Exactly the pairs of the name -/

/-- The readers see the pairs of the name: all their values, in some order, and
a first value when there is a pair. -/
structure LookupExact (cache : WireFormsCache) (input name : JsString) : Prop where
  all : ∃ values, (findAllQueryValues cache input name).1 = some values ∧
    values.Perm ((pairsNamed input name).map valueOf)
  first : ∃ found, (findQueryValue cache input name).1 = some found ∧
    (found = none ↔ pairsNamed input name = [])

theorem pairsNamed_nil (hne : name ≠ []) : pairsNamed [] name = [] := by
  have hother : ¬ Spells name [] := by
    rintro (hnil | hencoded | hplus)
    · exact hne hnil.symm
    · exact encoded_ne_nil hencoded hne rfl
    · exact hne (replaceUnit_eq_nil_iff.mp hplus.symm)
  have hfilter :
      ([[]] : List JsString).filter (fun pair => name ≠ [] ∧ Spells name (pairKey pair)) = [] := by
    rw [List.filter_eq_nil_iff]
    intro pair hpair
    rw [List.mem_singleton.mp hpair]
    simpa [pairKey] using fun _ => hother
  exact hfilter

theorem Misread.ne_nil {form : JsString} (h : Misread input form) : input ≠ [] := by
  rintro rfl
  obtain ⟨hsep, front, rest, hinput, -⟩ := h
  have hnil := List.append_eq_nil_iff.mp hinput.symm
  rw [(List.append_eq_nil_iff.mp hnil.1).2] at hsep
  simp at hsep

theorem exists_forms_iff (name : JsString) :
    (∃ forms, computeWireForms name = some forms) ↔ isWellFormed name = true := by
  rw [← exists_encodeURIComponent_iff]
  constructor
  · rintro ⟨forms, h⟩
    obtain ⟨encoded, hencoded, -⟩ := Option.map_eq_some_iff.mp h
    exact ⟨encoded, hencoded⟩
  · rintro ⟨encoded, h⟩
    exact ⟨_, by rw [computeWireForms, h, Option.map_some]⟩

theorem LookupExact.legible {cache : WireFormsCache} (hcache : FormsSound cache) (hne : name ≠ [])
    (h : LookupExact cache input name) : Legible input name := by
  obtain ⟨values, hvalues, hperm⟩ := h.all
  have hread : input ≠ [] → ∃ forms, computeWireForms name = some forms ∧
      values = allValues input forms := by
    intro hinput
    rw [findAllQueryValues_eq hcache hinput hne] at hvalues
    obtain ⟨forms, hforms, hall⟩ := Option.map_eq_some_iff.mp hvalues
    exact ⟨forms, hforms, hall.symm⟩
  have hkey : ∀ key, Spells name key → ¬ Misread input key := by
    intro key hspells hmis
    obtain ⟨forms, hcompute, rfl⟩ := hread hmis.ne_nil
    have hforms := formsOf_computeWireForms hne hcompute
    have hlt := length_allValues_lt hforms ((hforms.spells key).mpr hspells) hmis
    rw [(pairsNamed_perm hne hforms input).length_eq, hperm.length_eq, List.length_map] at hlt
    exact Nat.lt_irrefl _ hlt
  refine ⟨fun hinput => ?_, hkey name (.inl rfl), hkey _ (.inr (.inr rfl))⟩
  obtain ⟨forms, hcompute, -⟩ := hread hinput
  exact (exists_forms_iff name).mp ⟨forms, hcompute⟩

theorem LookupExact.of_legible {cache : WireFormsCache} (hcache : FormsSound cache)
    (hne : name ≠ []) (h : Legible input name) : LookupExact cache input name := by
  by_cases hinput : input = []
  · subst hinput
    refine ⟨⟨[], rfl, ?_⟩, ⟨none, rfl, ?_⟩⟩
    · rw [pairsNamed_nil hne]
      exact List.Perm.refl _
    · rw [pairsNamed_nil hne]
      simp
  · obtain ⟨forms, hcompute⟩ := (exists_forms_iff name).mpr (h.encodes hinput)
    have hforms := formsOf_computeWireForms hne hcompute
    have hperm : (allValues input forms).Perm ((pairsNamed input name).map valueOf) := by
      rw [allValues_legible h hforms]
      exact (pairsNamed_perm hne hforms input).map valueOf
    refine ⟨⟨allValues input forms, ?_, hperm⟩, ⟨(allValues input forms).head?, ?_, ?_⟩⟩
    · rw [findAllQueryValues_eq hcache hinput hne, hcompute, Option.map_some]
    · rw [findQueryValue_eq hcache hinput hne, hcompute, Option.map_some]
    · rw [List.head?_eq_none_iff, ← List.length_eq_zero_iff, hperm.length_eq, List.length_map,
        List.length_eq_zero_iff]

/-- After every history of lookups the readers see exactly the pairs of a name
where it is legible in the query string. -/
theorem lookup_exact_iff_legible (history : List (JsString × JsString)) (input name : JsString)
    (hne : name ≠ []) : LookupExact (cacheAfter history) input name ↔ Legible input name :=
  ⟨LookupExact.legible (cacheAfter_sound history) hne,
    LookupExact.of_legible (cacheAfter_sound history) hne⟩

theorem lookup_exact_iff_legible_page :
    LookupExact (cacheAfter [(js "page=1", js "page")]) (js "pagesize=1&page=2") (js "page") ↔
      Legible (js "pagesize=1&page=2") (js "page") :=
  lookup_exact_iff_legible _ _ _ (by decide)

/-- The pair `a=b=c` has the key `a`, and yet it is read under the name `a=b`. -/
theorem lookup_misreads_equals :
    ¬ LookupExact (cacheAfter []) (js "a=b=c") (js "a=b") := by
  intro h
  obtain ⟨found, hfound, hnone⟩ := h.first
  have hread : (findQueryValue (cacheAfter []) (js "a=b=c") (js "a=b")).1 =
      some (some (js "c")) := by decide +kernel
  rw [hread] at hfound
  cases hfound
  have hpairs : pairsNamed (js "a=b=c") (js "a=b") = [] := by decide +kernel
  exact absurd (hnone.mpr hpairs) (Option.some_ne_none _)

end Keala.Http
