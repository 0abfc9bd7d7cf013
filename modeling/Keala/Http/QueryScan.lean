import Keala.Http.QueryLookup
import Keala.Js.Search

/-!
What the scan for a key finds: the first position at which the key stands
alone, and for a key without separators exactly the pairs of that key.
-/

namespace Keala.Http

open Keala.Js

variable {input name front pair rest : JsString} {position hit q r : ℕ}

/-! ### From position to position -/

theorem indexOfFrom_none (h : indexOfFrom input name position = none) (hq : position ≤ q) :
    startsWith (input.drop q) name = false := by
  rw [indexOfFrom, Option.map_eq_none_iff] at h
  have hdrop := indexOfText_none h (q - position)
  rwa [List.drop_drop, Nat.add_sub_cancel' hq] at hdrop

theorem indexOfFrom_some (h : indexOfFrom input name position = some hit) :
    position ≤ hit ∧ startsWith (input.drop hit) name = true ∧
      ∀ q, position ≤ q → q < hit → startsWith (input.drop q) name = false := by
  rw [indexOfFrom] at h
  obtain ⟨i, hi, rfl⟩ := Option.map_eq_some_iff.mp h
  obtain ⟨hfound, hbefore⟩ := indexOfText_some hi
  refine ⟨Nat.le_add_left position i, ?_, fun q hle hlt => ?_⟩
  · rwa [List.drop_drop, Nat.add_comm] at hfound
  · have hdrop := hbefore (q - position) (by omega)
    rwa [List.drop_drop, Nat.add_sub_cancel' hle] at hdrop

def Stands (input name : JsString) (q : ℕ) : Prop :=
  startsWith (input.drop q) name = true ∧ standsAlone input name q = true

theorem Stands.ne_nil (h : Stands input name q) : name ≠ [] := by
  rintro rfl
  have halone := h.2
  simp [standsAlone] at halone

theorem Stands.lt (h : Stands input name q) : q < input.length := by
  obtain ⟨rest, hrest⟩ := startsWith_iff.mp h.1
  have hlength := congrArg List.length hrest
  rw [List.length_drop, List.length_append] at hlength
  have hpos := List.length_pos_of_ne_nil h.ne_nil
  omega

/-- The boundaries of a key in terms of the texts around it. -/
theorem stands_split (front name rest : JsString) :
    Stands (front ++ name ++ rest) name front.length ↔
      name ≠ [] ∧ (front = [] ∨ front.getLast? = some 38) ∧
        (rest = [] ∨ rest.head? = some 61 ∨ rest.head? = some 38) := by
  have hstart : startsWith ((front ++ name ++ rest).drop front.length) name = true := by
    rw [List.append_assoc, List.drop_left]
    exact startsWith_iff.mpr ⟨rest, rfl⟩
  have hbefore : (front.length = 0 ∨ (front ++ name ++ rest)[front.length - 1]? = some 38) ↔
      (front = [] ∨ front.getLast? = some 38) := by
    rcases List.eq_nil_or_concat front with rfl | ⟨more, c, rfl⟩
    · simp
    · simp
  have hbehind : (front ++ name ++ rest)[front.length + name.length]? = rest.head? := by
    rw [← List.length_append, List.getElem?_append_right (Nat.le_refl _), Nat.sub_self,
      List.head?_eq_getElem?]
  rw [Stands, standsAlone, hbehind]
  simp only [hstart, true_and, Bool.and_eq_true, Bool.or_eq_true, decide_eq_true_eq, hbefore,
    List.length_pos_iff, List.head?_eq_none_iff]
  constructor
  · rintro ⟨⟨hfront, (hrest | hrest) | hrest⟩, hname⟩
    · exact ⟨hname, hfront, .inr (.inl hrest)⟩
    · exact ⟨hname, hfront, .inr (.inr hrest)⟩
    · exact ⟨hname, hfront, .inl hrest⟩
  · rintro ⟨hname, hfront, hrest | hrest | hrest⟩
    · exact ⟨⟨hfront, .inr hrest⟩, hname⟩
    · exact ⟨⟨hfront, .inl (.inl hrest)⟩, hname⟩
    · exact ⟨⟨hfront, .inl (.inr hrest)⟩, hname⟩

theorem Stands.exists_split (h : Stands input name q) :
    ∃ front rest, input = front ++ name ++ rest ∧ front.length = q := by
  obtain ⟨rest, hrest⟩ := startsWith_iff.mp h.1
  refine ⟨input.take q, rest, ?_, ?_⟩
  · rw [List.append_assoc, ← hrest, List.take_append_drop]
  · rw [List.length_take, Nat.min_eq_left (Nat.le_of_lt h.lt)]

theorem findQueryEntryWithin_spec {fuel : ℕ} (hfuel : input.length < fuel + position) :
    (findQueryEntryWithin input name fuel position = none ∧
        ∀ q, position ≤ q → ¬ Stands input name q) ∨
      ∃ q, position ≤ q ∧ Stands input name q ∧
        (∀ r, position ≤ r → r < q → ¬ Stands input name r) ∧
        findQueryEntryWithin input name fuel position = some (entryAt input name q) := by
  induction fuel generalizing position with
  | zero =>
      refine .inl ⟨rfl, fun q hq hstands => ?_⟩
      have hlt := hstands.lt
      omega
  | succ fuel ih =>
      rw [findQueryEntryWithin]
      cases hhit : indexOfFrom input name position with
      | none =>
          refine .inl ⟨rfl, fun q hq hstands => ?_⟩
          rw [Stands, indexOfFrom_none hhit hq] at hstands
          cases hstands.1
      | some hit =>
          obtain ⟨hle, hfound, hbefore⟩ := indexOfFrom_some hhit
          have hearlier : ∀ q, position ≤ q → q < hit → ¬ Stands input name q := by
            intro q hq hlt hstands
            rw [Stands, hbefore q hq hlt] at hstands
            cases hstands.1
          dsimp only
          split
          · next halone => exact .inr ⟨hit, hle, ⟨hfound, halone⟩, hearlier, rfl⟩
          · next halone =>
              have hhere : ∀ q, position ≤ q → q < hit + 1 → ¬ Stands input name q := by
                intro q hq hlt hstands
                rcases Nat.lt_succ_iff_lt_or_eq.mp hlt with hlt | rfl
                · exact hearlier q hq hlt hstands
                · exact halone hstands.2
              rcases @ih (hit + 1) (by omega) with ⟨hnone, hafter⟩ | hsome
              · refine .inl ⟨hnone, fun q hq => ?_⟩
                by_cases hlt : q < hit + 1
                · exact hhere q hq hlt
                · exact hafter q (by omega)
              · obtain ⟨q, hq, hstands, hfirst, hentry⟩ := hsome
                refine .inr ⟨q, by omega, hstands, fun r hr hlt => ?_, hentry⟩
                by_cases hle : r < hit + 1
                · exact hhere r hr hle
                · exact hfirst r (by omega) hlt

theorem findQueryEntry_spec (input name : JsString) (position : ℕ) :
    (findQueryEntry input name position = none ∧ ∀ q, position ≤ q → ¬ Stands input name q) ∨
      ∃ q, position ≤ q ∧ Stands input name q ∧
        (∀ r, position ≤ r → r < q → ¬ Stands input name r) ∧
        findQueryEntry input name position = some (entryAt input name q) :=
  findQueryEntryWithin_spec (by omega)

theorem findQueryEntry_none_iff :
    findQueryEntry input name position = none ↔ ∀ q, position ≤ q → ¬ Stands input name q := by
  rcases findQueryEntry_spec input name position with ⟨hnone, hafter⟩ | ⟨q, hq, hstands, -, hentry⟩
  · exact ⟨fun _ => hafter, fun _ => hnone⟩
  · rw [hentry]
    constructor
    · intro h
      cases h
    · exact fun h => absurd hstands (h q hq)

theorem findQueryEntry_hit (h : Stands input name position) :
    findQueryEntry input name position = some (entryAt input name position) := by
  rcases findQueryEntry_spec input name position with ⟨-, hafter⟩ | ⟨q, hq, -, hfirst, hentry⟩
  · exact absurd h (hafter position (Nat.le_refl _))
  · rw [hentry]
    rcases Nat.lt_or_eq_of_le hq with hlt | rfl
    · exact absurd h (hfirst position (Nat.le_refl _) hlt)
    · rfl

/-- The scan may start behind positions where the key does not stand. -/
theorem findQueryEntry_skip (hle : position ≤ q)
    (h : ∀ r, position ≤ r → r < q → ¬ Stands input name r) :
    findQueryEntry input name position = findQueryEntry input name q := by
  rcases findQueryEntry_spec input name q with ⟨hnone, hafter⟩ | ⟨p, hp, hstands, hfirst, hentry⟩
  · rw [hnone]
    refine findQueryEntry_none_iff.mpr fun r hr => ?_
    by_cases hlt : r < q
    · exact h r hr hlt
    · exact hafter r (by omega)
  · have hnew : ∀ r, position ≤ r → r < p → ¬ Stands input name r := by
      intro r hr hlt
      by_cases hbefore : r < q
      · exact h r hr hbefore
      · exact hfirst r (by omega) hlt
    rw [hentry]
    rcases findQueryEntry_spec input name position with
      ⟨-, hafter⟩ | ⟨p', hp', hstands', hfirst', hsame⟩
    · exact absurd hstands (hafter p (by omega))
    · rw [hsame]
      rcases Nat.lt_trichotomy p p' with hlt | rfl | hlt
      · exact absurd hstands (hfirst' p (by omega) hlt)
      · rfl
      · exact absurd hstands' (hnew p' hp' hlt)

/-! ### The entries of one form -/

theorem entriesWithin_nil (fuel : ℕ) (h : ∀ q, position ≤ q → ¬ Stands input name q) :
    entriesWithin input name fuel position = [] := by
  cases fuel with
  | zero => rfl
  | succ fuel => rw [entriesWithin, findQueryEntry_none_iff.mpr h]

theorem entriesWithin_skip (fuel : ℕ) (hle : position ≤ q)
    (h : ∀ r, position ≤ r → r < q → ¬ Stands input name r) :
    entriesWithin input name fuel position = entriesWithin input name fuel q := by
  cases fuel with
  | zero => rfl
  | succ fuel => rw [entriesWithin, entriesWithin, findQueryEntry_skip hle h]

theorem entriesOf_eq_nil_iff :
    entriesOf input name = [] ↔ ∀ q, ¬ Stands input name q := by
  constructor
  · intro h q hstands
    rw [entriesOf, entriesWithin] at h
    split at h
    · next hnone => exact findQueryEntry_none_iff.mp hnone q (Nat.zero_le q) hstands
    · cases h
  · exact fun h => entriesWithin_nil _ fun q _ => h q

/-- The first entry is the one that a single lookup finds. -/
theorem entriesOf_head? : (entriesOf input name).head? = findQueryEntry input name 0 := by
  rw [entriesOf, entriesWithin]
  split
  · next h => rw [h, List.head?_nil]
  · next h => rw [h, List.head?_cons]

theorem firstValue_eq (input : JsString) (forms : List JsString) :
    firstValue input forms = (allValues input forms).head? := by
  induction forms with
  | nil => rfl
  | cons form forms ih =>
      have hhead : (entriesOf input form).head? = findQueryEntry input form 0 := entriesOf_head?
      rw [firstValue, allValues, List.flatMap_cons]
      cases hentry : findQueryEntry input form 0 with
      | none =>
          rw [hentry, List.head?_eq_none_iff] at hhead
          rw [hhead, List.map_nil, List.nil_append]
          exact ih
      | some entry =>
          obtain ⟨more, hmore⟩ := List.head?_eq_some_iff.mp (hhead.trans hentry)
          rw [hmore, List.map_cons, List.cons_append, List.head?_cons]

/-! ### The pairs -/

/-- Nothing or an `&` stands before a pair, nothing or an `&` behind it. -/
structure PairIn (input front pair rest : JsString) : Prop where
  whole : input = front ++ pair ++ rest
  bare : 38 ∉ pair
  before : front = [] ∨ front.getLast? = some 38
  behind : rest = [] ∨ rest.head? = some 38

structure PlainKey (name : JsString) : Prop where
  nonempty : name ≠ []
  ampersand : 38 ∉ name
  equals : 61 ∉ name

theorem pairKey_eq_iff (hname : PlainKey name) :
    pairKey pair = name ↔ ∃ tail, pair = name ++ tail ∧ (tail = [] ∨ tail.head? = some 61) := by
  constructor
  · intro h
    refine ⟨pair.dropWhile (· ≠ 61), ?_, ?_⟩
    · rw [← h, pairKey, List.takeWhile_append_dropWhile]
    · have hhead := List.head?_dropWhile_not (fun c : CodeUnit => decide (c ≠ 61)) pair
      cases htail : pair.dropWhile (fun c => decide (c ≠ 61)) with
      | nil => exact .inl rfl
      | cons c tail =>
          rw [htail] at hhead
          right
          simpa using hhead
  · rintro ⟨tail, rfl, htail⟩
    have hall : ∀ c ∈ name, decide (c ≠ 61) = true := by
      intro c hc
      refine decide_eq_true ?_
      rintro rfl
      exact hname.equals hc
    rw [pairKey, List.takeWhile_append_of_pos hall]
    rcases htail with rfl | htail
    · rw [List.takeWhile_nil, List.append_nil]
    · obtain ⟨value, rfl⟩ := List.head?_eq_some_iff.mp htail
      rw [List.takeWhile_cons_of_neg (by simp), List.append_nil]

theorem PairIn.drop (h : PairIn input front pair rest) (k : ℕ) :
    input.drop (front.length + k) = (pair ++ rest).drop k := by
  rw [h.whole, List.append_assoc, List.drop_append, List.drop_of_length_le (Nat.le_add_right _ _),
    Nat.add_sub_cancel_left, List.nil_append]

/-- A plain key at the front of a pair and its rest is a key within the pair. -/
theorem PairIn.key_within (h : PairIn input front pair rest) (hname : PlainKey name)
    {more : JsString} (hmore : pair ++ rest = name ++ more) :
    ∃ tail, pair = name ++ tail ∧ more = tail ++ rest := by
  rcases List.append_eq_append_iff.mp hmore with ⟨extra, hover, hrest⟩ | ⟨tail, htail, hrest⟩
  · -- what the key has over the pair would start with the separator
    cases extra with
    | nil => exact ⟨[], by simpa using hover.symm, hrest.symm⟩
    | cons c extra =>
        rcases h.behind with hnil | hhead
        · rw [hnil] at hrest
          cases hrest
        · rw [hrest] at hhead
          cases hhead
          exact absurd (hover ▸ List.mem_append_right pair List.mem_cons_self) hname.ampersand
  · exact ⟨tail, htail, hrest⟩

/-- Within a pair a plain key stands at most at the start, and there when it is
the key of the pair. -/
theorem PairIn.stands_iff (h : PairIn input front pair rest) (hname : PlainKey name) {j : ℕ}
    (hj : j ≤ pair.length) :
    Stands input name (front.length + j) ↔ j = 0 ∧ pairKey pair = name := by
  constructor
  · intro hstands
    obtain ⟨left, more, hinput, hleft⟩ := hstands.exists_split
    have hsplit := hstands
    rw [hinput, ← hleft, stands_split] at hsplit
    obtain ⟨-, hbefore, hbehind⟩ := hsplit
    rw [h.whole] at hinput
    obtain rfl : j = 0 := by
      -- inside the pair the unit before the key is no `&`
      by_contra hne
      obtain ⟨k, rfl⟩ := Nat.exists_eq_succ_of_ne_zero hne
      have hlast : left.getLast? = pair[k]? := by
        have hget := congrArg (fun text : JsString => text[front.length + k]?) hinput
        rw [List.append_assoc, List.append_assoc, List.getElem?_append_right (Nat.le_add_right _ _),
          Nat.add_sub_cancel_left, List.getElem?_append_left hj,
          List.getElem?_append_left (by omega)] at hget
        rw [List.getLast?_eq_getElem?, hleft, Nat.add_succ, Nat.succ_sub_one, hget]
      rcases hbefore with rfl | hbefore
      · simp at hleft
      · exact h.bare (List.mem_of_getElem? (hlast ▸ hbefore))
    have hfront : front = left := by
      have htake := congrArg (List.take front.length) hinput
      rwa [List.append_assoc, List.append_assoc, List.take_left,
        List.take_left' (by simpa using hleft)] at htake
    rw [← hfront, List.append_assoc, List.append_assoc] at hinput
    obtain ⟨tail, hpair, htail⟩ := h.key_within hname (List.append_cancel_left hinput)
    refine ⟨rfl, (pairKey_eq_iff hname).mpr ⟨tail, hpair, ?_⟩⟩
    cases tail with
    | nil => exact .inl rfl
    | cons c tail =>
        rw [htail] at hbehind
        rcases hbehind with hnil | hequals | hamp
        · cases hnil
        · exact .inr hequals
        · cases hamp
          exact absurd (hpair ▸ List.mem_append_right name List.mem_cons_self) h.bare
  · rintro ⟨rfl, hkey⟩
    obtain ⟨tail, hpair, htail⟩ := (pairKey_eq_iff hname).mp hkey
    have hwhole : input = front ++ name ++ (tail ++ rest) := by
      rw [h.whole, hpair]
      simp only [List.append_assoc]
    rw [Nat.add_zero, hwhole, stands_split]
    refine ⟨hname.nonempty, h.before, ?_⟩
    rcases htail with rfl | htail
    · rcases h.behind with hnil | hhead
      · exact .inl hnil
      · exact .inr (.inr hhead)
    · obtain ⟨value, rfl⟩ := List.head?_eq_some_iff.mp htail
      exact .inr (.inl rfl)

/-- The entry of a pair holds its value and ends with it. -/
theorem PairIn.entryAt (h : PairIn input front pair rest) (hname : PlainKey name)
    (hkey : pairKey pair = name) :
    (entryAt input name front.length).stop = front.length + pair.length ∧
      entryValue input (entryAt input name front.length) = decode (pairValue pair) := by
  obtain ⟨tail, hpair, htail⟩ := (pairKey_eq_iff hname).mp hkey
  have hbare : (38 : CodeUnit) ∉ tail := fun hmem =>
    h.bare (hpair ▸ List.mem_append_right name hmem)
  have hdrop : input.drop (front.length + name.length) = tail ++ rest := by
    rw [h.drop, hpair, List.append_assoc, List.drop_left]
  have hstop : (indexOfFrom input [38] (front.length + name.length)).getD input.length =
      front.length + pair.length := by
    rw [indexOfFrom, hdrop, hpair, List.length_append]
    rcases h.behind with hnil | hhead
    · rw [hnil, List.append_nil, indexOfText_unit_none hbare, h.whole, hnil, hpair]
      simp
    · obtain ⟨more, rfl⟩ := List.head?_eq_some_iff.mp hhead
      rw [indexOfText_unit hbare, Option.map_some, Option.getD_some]
      omega
  have hnext : input[front.length + name.length]? = (tail ++ rest).head? := by
    rw [List.head?_eq_getElem?, ← hdrop, List.getElem?_drop, Nat.add_zero]
  have hslice : ∀ k, ((input.take (front.length + pair.length)).drop (front.length + k)) =
      pair.drop k := by
    intro k
    rw [h.whole, ← List.length_append, List.take_left, List.drop_append,
      List.drop_of_length_le (Nat.le_add_right _ _), Nat.add_sub_cancel_left, List.nil_append]
  refine ⟨hstop, ?_⟩
  have hall : ∀ c ∈ name, decide (c ≠ 61) = true := by
    intro c hc
    refine decide_eq_true ?_
    rintro rfl
    exact hname.equals hc
  rw [entryValue, Keala.Http.entryAt]
  dsimp only
  rw [hstop, hnext, pairValue, hpair, List.dropWhile_append_of_pos hall]
  rcases htail with rfl | htail
  · have hother : ([] ++ rest).head? ≠ some 61 := by
      rcases h.behind with hnil | hhead
      · rw [hnil]
        decide
      · rw [List.nil_append, hhead]
        decide
    rw [if_neg hother, ← hpair, hslice, hpair, List.append_nil, List.drop_length]
    rfl
  · obtain ⟨value, rfl⟩ := List.head?_eq_some_iff.mp htail
    have hsome : (61 :: value ++ rest).head? = some 61 := rfl
    rw [if_pos hsome, ← hpair, Nat.add_assoc, hslice, hpair, ← List.drop_drop, List.drop_left]
    rfl

end Keala.Http
