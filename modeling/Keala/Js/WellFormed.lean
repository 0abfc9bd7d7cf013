import Keala.Js.Decoding
import Keala.Js.Split
import Keala.Js.Uri

/-!
Texts without a lone surrogate: the ones `encodeURIComponent` accepts, and the
only ones `decodeURIComponent` makes.
-/

namespace Keala.Js

def isWellFormed (text : JsString) : Bool := (codePoints text).all fun cp => !isSurrogate cp

theorem isWellFormed_iff {text : JsString} :
    isWellFormed text = true ↔ ∀ cp ∈ codePoints text, isSurrogate cp = false := by
  simp [isWellFormed]

@[simp] theorem isWellFormed_nil : isWellFormed [] = true := rfl

/-! ### What can be encoded -/

/-- `Buffer.from(text, "utf8")`: a lone surrogate becomes U+FFFD. -/
def utf8Bytes (text : JsString) : List UInt8 :=
  (codePoints text).flatMap fun cp =>
    (utf8 (if isSurrogate cp then 0xFFFD else cp)).map Nat.toUInt8

theorem isUnreserved_not_surrogate {cp : ℕ} (h : isUnreserved cp = true) :
    isSurrogate cp = false := by
  simp [isUnreserved] at h
  simp [isSurrogate]
  omega

theorem encodePoint_isSome_iff (cp : ℕ) :
    (encodePoint cp).isSome = true ↔ isSurrogate cp = false := by
  rw [encodePoint]
  split
  · next hun => simp [isUnreserved_not_surrogate hun]
  · split
    · next hsur => simp [hsur]
    · next hsur => simp [hsur]

/-- A list of computations gives a result when each of them does. -/
theorem exists_mapM_iff {α β : Type} {f : α → Option β} (as : List α) :
    (∃ bs, as.mapM f = some bs) ↔ ∀ a ∈ as, (f a).isSome = true := by
  induction as with
  | nil => simp
  | cons a as ih =>
      rw [List.forall_mem_cons, ← ih, Option.isSome_iff_exists]
      constructor
      · rintro ⟨bs, h⟩
        rw [List.mapM_cons] at h
        obtain ⟨b, hb, h⟩ := Option.bind_eq_some_iff.mp h
        obtain ⟨rest, hrest, -⟩ := Option.bind_eq_some_iff.mp h
        exact ⟨⟨b, hb⟩, rest, hrest⟩
      · rintro ⟨⟨b, hb⟩, rest, hrest⟩
        exact ⟨b :: rest, by rw [List.mapM_cons, hb, hrest]; rfl⟩

/-- Only a lone surrogate makes `encodeURIComponent` throw. -/
theorem exists_encodeURIComponent_iff (text : JsString) :
    (∃ encoded, encodeURIComponent text = some encoded) ↔ isWellFormed text = true := by
  have hmap : (∃ encoded, encodeURIComponent text = some encoded) ↔
      ∃ parts, (codePoints text).mapM encodePoint = some parts := by
    constructor
    · rintro ⟨encoded, h⟩
      obtain ⟨parts, hparts, -⟩ := Option.map_eq_some_iff.mp h
      exact ⟨parts, hparts⟩
    · rintro ⟨parts, hparts⟩
      exact ⟨parts.flatten, by rw [encodeURIComponent, hparts]; rfl⟩
  rw [hmap, exists_mapM_iff, isWellFormed_iff]
  simp only [encodePoint_isSome_iff]

/-! ### Texts that are put together -/

theorem isHigh_false_of_not_surrogate {c : CodeUnit} (h : isSurrogate c.toNat = false) :
    isHigh c = false := by
  have hbounds : c.toNat < 0xD800 ∨ 0xE000 ≤ c.toNat := by
    simp [isSurrogate] at h
    omega
  have hiff : isHigh c = true ↔ 0xD800 ≤ c.toNat ∧ c.toNat < 0xDC00 := by
    simp only [isHigh, Bool.and_eq_true, decide_eq_true_eq]
    exact Iff.rfl
  rw [Bool.eq_false_iff, ne_eq, hiff]
  omega

theorem codePoints_cons {c : CodeUnit} (h : isSurrogate c.toNat = false) (text : JsString) :
    codePoints (c :: text) = c.toNat :: codePoints text := by
  cases text with
  | nil => rfl
  | cons d text => rw [codePoints, if_neg (by simp [isHigh_false_of_not_surrogate h])]

theorem codePoints_append {a : JsString} (h : isWellFormed a = true) (b : JsString) :
    codePoints (a ++ b) = codePoints a ++ codePoints b := by
  rw [isWellFormed_iff] at h
  induction a using codePoints.induct with
  | case1 => rfl
  | case2 c =>
      have hc : isSurrogate c.toNat = false := h _ (by simp [codePoints])
      exact codePoints_cons hc b
  | case3 c d text hpair ih =>
      rw [codePoints, if_pos hpair] at h
      have htail := ih fun cp hcp => h cp (List.mem_cons_of_mem _ hcp)
      rw [List.cons_append, List.cons_append, codePoints, if_pos hpair, htail, codePoints,
        if_pos hpair]
      rfl
  | case4 c d text hpair ih =>
      rw [codePoints, if_neg hpair] at h
      have htail := ih fun cp hcp => h cp (List.mem_cons_of_mem _ hcp)
      rw [List.cons_append] at htail
      rw [List.cons_append, List.cons_append, codePoints, if_neg hpair, htail, codePoints,
        if_neg hpair]
      rfl

theorem isWellFormed_append {a b : JsString} (ha : isWellFormed a = true)
    (hb : isWellFormed b = true) : isWellFormed (a ++ b) = true := by
  rw [isWellFormed, codePoints_append ha, List.all_append, Bool.and_eq_true]
  exact ⟨ha, hb⟩

theorem isWellFormed_unit {c : CodeUnit} (h : isSurrogate c.toNat = false) :
    isWellFormed [c] = true := by
  rw [isWellFormed_iff]
  intro cp hcp
  obtain rfl := List.mem_singleton.mp hcp
  exact h

theorem isWellFormed_cons {c : CodeUnit} {text : JsString} (hc : isSurrogate c.toNat = false)
    (h : isWellFormed text = true) : isWellFormed (c :: text) = true :=
  isWellFormed_append (isWellFormed_unit hc) h

theorem isWellFormed_of_units {text : JsString}
    (h : ∀ c ∈ text, isSurrogate c.toNat = false) : isWellFormed text = true := by
  induction text with
  | nil => rfl
  | cons c text ih =>
      exact isWellFormed_cons (h c List.mem_cons_self)
        (ih fun d hd => h d (List.mem_cons_of_mem _ hd))

theorem isWellFormed_join {parts : List JsString}
    (h : ∀ part ∈ parts, isWellFormed part = true) : isWellFormed (join slash parts) = true := by
  induction parts with
  | nil => rfl
  | cons part parts ih =>
      have hpart := h part List.mem_cons_self
      have hrest := ih fun q hq => h q (List.mem_cons_of_mem _ hq)
      cases parts with
      | nil =>
          rw [join_singleton]
          exact hpart
      | cons q parts =>
          rw [join_cons_cons]
          exact isWellFormed_append hpart (isWellFormed_cons (by decide) hrest)

/-- A separator cuts between two code points. -/
theorem codePoints_append_slash (a b : JsString) :
    codePoints (a ++ slash :: b) = codePoints a ++ slash.toNat :: codePoints b := by
  have hlow : isLow slash = false := by decide
  have hslash : codePoints (slash :: b) = slash.toNat :: codePoints b :=
    codePoints_cons (by decide) b
  induction a using codePoints.induct with
  | case1 => exact hslash
  | case2 c =>
      have hstep : codePoints (c :: slash :: b) = c.toNat :: codePoints (slash :: b) := by
        rw [codePoints, if_neg (by simp [hlow])]
      exact hstep.trans (congrArg (c.toNat :: ·) hslash)
  | case3 c d text hpair ih =>
      rw [List.cons_append, List.cons_append, codePoints, if_pos hpair, ih, codePoints,
        if_pos hpair]
      rfl
  | case4 c d text hpair ih =>
      rw [List.cons_append] at ih
      rw [List.cons_append, List.cons_append, codePoints, if_neg hpair, ih, codePoints,
        if_neg hpair]
      rfl

theorem isWellFormed_of_mem_split {text part : JsString} (h : isWellFormed text = true)
    (hpart : part ∈ split slash text) : isWellFormed part = true := by
  have hall : ∀ parts : List JsString, isWellFormed (join slash parts) = true →
      ∀ part ∈ parts, isWellFormed part = true := by
    intro parts
    induction parts with
    | nil => exact fun _ part hpart => absurd hpart List.not_mem_nil
    | cons first parts ih =>
        cases parts with
        | nil =>
            rw [join_singleton]
            intro hfirst part hpart
            rw [List.mem_singleton.mp hpart]
            exact hfirst
        | cons next parts =>
            rw [join_cons_cons, isWellFormed, codePoints_append_slash, List.all_append,
              List.all_cons, Bool.and_eq_true, Bool.and_eq_true]
            rintro ⟨hfirst, -, hrest⟩ part hpart
            rcases List.mem_cons.mp hpart with rfl | hpart
            · exact hfirst
            · exact ih hrest part hpart
  exact hall _ (by rwa [join_split]) part hpart

/-! ### What the decoder makes -/

theorem sequenceLength_bound {b : ℕ} :
    (sequenceLength b = 2 → b < 0xE0) ∧ (sequenceLength b = 3 → b < 0xF0) := by
  rw [sequenceLength]
  grind

theorem codePoint_not_surrogate {b cp : ℕ} {bs : List ℕ} (h : codePoint (b :: bs) = some cp)
    (hlen : sequenceLength b = (b :: bs).length) : cp ≤ 0x10FFFF ∧ isSurrogate cp = false := by
  have hrange : cp ≤ 0x10FFFF ∧ (cp < 0xD800 ∨ 0xE000 ≤ cp) := by
    match bs with
    | [] =>
        simp only [codePoint, Option.ite_none_right_eq_some, Option.some.injEq] at h
        omega
    | [c] =>
        simp only [codePoint, isTail, Option.ite_none_right_eq_some, Option.some.injEq,
          Bool.and_eq_true, decide_eq_true_eq] at h
        have hfirst := sequenceLength_bound.1 hlen
        omega
    | [c, d] =>
        simp only [codePoint, Option.ite_none_right_eq_some, Option.some.injEq, Bool.and_eq_true,
          Bool.not_eq_true', Bool.and_eq_false_iff, decide_eq_true_eq, decide_eq_false_iff_not,
          isTail] at h
        have hfirst := sequenceLength_bound.2 hlen
        omega
    | [c, d, e] =>
        simp only [codePoint, Option.ite_none_right_eq_some, Option.some.injEq, Bool.and_eq_true,
          decide_eq_true_eq] at h
        omega
    | _ :: _ :: _ :: _ :: _ => cases h
  refine ⟨hrange.1, ?_⟩
  simp [isSurrogate]
  omega

theorem isWellFormed_utf16 {cp : ℕ} (hmax : cp ≤ 0x10FFFF) (hsur : isSurrogate cp = false) :
    isWellFormed (utf16 cp) = true := by
  rw [utf16]
  split
  · next hsmall =>
      apply isWellFormed_unit
      rwa [Nat.toUInt16, UInt16.toNat_ofNat', Nat.mod_eq_of_lt (by omega)]
  · next hlarge =>
      have hhigh : (0xD800 + (cp - 0x10000) / 0x400).toUInt16.toNat =
          0xD800 + (cp - 0x10000) / 0x400 := by
        rw [Nat.toUInt16, UInt16.toNat_ofNat', Nat.mod_eq_of_lt (by omega)]
      have hlow : (0xDC00 + (cp - 0x10000) % 0x400).toUInt16.toNat =
          0xDC00 + (cp - 0x10000) % 0x400 := by
        rw [Nat.toUInt16, UInt16.toNat_ofNat', Nat.mod_eq_of_lt (by omega)]
      have hpair : (isHigh (0xD800 + (cp - 0x10000) / 0x400).toUInt16 &&
          isLow (0xDC00 + (cp - 0x10000) % 0x400).toUInt16) = true := by
        simp only [isHigh, isLow, Bool.and_eq_true, decide_eq_true_eq, UInt16.le_iff_toNat_le,
          UInt16.lt_iff_toNat_lt, hhigh, hlow]
        refine ⟨⟨?_, ?_⟩, ?_, ?_⟩
        · show 0xD800 ≤ _
          omega
        · show _ < 0xDC00
          omega
        · show 0xDC00 ≤ _
          omega
        · show _ < 0xE000
          omega
      rw [isWellFormed, codePoints, if_pos hpair, hhigh, hlow]
      simp [codePoints, isSurrogate]
      omega

theorem octets_length {n : ℕ} {text rest : JsString} {bs : List ℕ}
    (h : octets n text = some (bs, rest)) : bs.length = n := by
  induction n generalizing text bs with
  | zero =>
      cases h
      rfl
  | succ n ih =>
      simp only [octets, Option.bind_eq_bind, Option.bind_eq_some_iff, Option.pure_def,
        Option.some.injEq, Prod.mk.injEq] at h
      obtain ⟨⟨b, more⟩, hb, ⟨bs, rest⟩, hbs, rfl, rfl⟩ := h
      exact congrArg (· + 1) (ih hbs)

theorem escaped_spec {text char rest : JsString} (h : escaped text = some (char, rest)) :
    isWellFormed char = true ∧ ∀ c ∈ rest, c ∈ text := by
  obtain ⟨front, htext, -, -, -⟩ := escaped_some h
  refine ⟨?_, fun c hc => htext ▸ List.mem_append_right front hc⟩
  simp only [escaped, Option.bind_eq_bind, Option.bind_eq_some_iff, Option.pure_def,
    Option.some.injEq, Prod.mk.injEq] at h
  obtain ⟨⟨b, more⟩, hb, ⟨bs, rest⟩, hbs, cp, hcp, rfl, rfl⟩ := h
  have hlen := octets_length hbs
  cases hn : sequenceLength b with
  | zero =>
      rw [hn] at hlen
      obtain rfl := List.length_eq_zero_iff.mp hlen
      cases hcp
  | succ n =>
      -- The first octet read is the one the length was taken from.
      rw [hn] at hbs
      simp only [octets, hb, Option.bind_eq_bind, Option.bind_some, Option.bind_eq_some_iff,
        Option.pure_def, Option.some.injEq, Prod.mk.injEq] at hbs
      obtain ⟨⟨others, _⟩, -, rfl, -⟩ := hbs
      obtain ⟨hmax, hsur⟩ := codePoint_not_surrogate hcp hlen.symm
      exact isWellFormed_utf16 hmax hsur

theorem isWellFormed_decodeWithin {fuel : ℕ} {text decoded : JsString}
    (hunits : ∀ c ∈ text, isSurrogate c.toNat = false)
    (h : decodeWithin fuel text = some decoded) : isWellFormed decoded = true := by
  induction fuel generalizing text decoded with
  | zero =>
      cases text with
      | nil =>
          cases h
          rfl
      | cons c text => cases h
  | succ fuel ih =>
      cases text with
      | nil =>
          cases h
          rfl
      | cons c text =>
          rw [decodeWithin] at h
          split at h
          · simp only [Option.bind_eq_bind, Option.bind_eq_some_iff, Option.pure_def,
              Option.some.injEq] at h
            obtain ⟨⟨char, rest⟩, hesc, tail, htail, rfl⟩ := h
            obtain ⟨hchar, hmem⟩ := escaped_spec hesc
            exact isWellFormed_append hchar (ih (fun c hc => hunits c (hmem c hc)) htail)
          · simp only [Option.bind_eq_bind, Option.bind_eq_some_iff, Option.pure_def,
              Option.some.injEq] at h
            obtain ⟨tail, htail, rfl⟩ := h
            exact isWellFormed_cons (hunits c List.mem_cons_self)
              (ih (fun c hc => hunits c (List.mem_cons_of_mem _ hc)) htail)

/-- Decoding makes no lone surrogate. -/
theorem isWellFormed_decodeURIComponent {text decoded : JsString}
    (hunits : ∀ c ∈ text, isSurrogate c.toNat = false)
    (h : decodeURIComponent text = some decoded) : isWellFormed decoded = true :=
  isWellFormed_decodeWithin hunits h

/-! ### Bytes -/

/-- Escaped byte by byte, the bytes of code points decode to them. -/
theorem decodes_utf8 {cps : List ℕ} (hmax : ∀ cp ∈ cps, cp ≤ 0x10FFFF)
    (hsur : ∀ cp ∈ cps, isSurrogate cp = false) :
    Decodes ((cps.flatMap fun cp => (utf8 cp).map Nat.toUInt8).flatMap fun b =>
      percentByte b.toNat) (cps.flatMap utf16) := by
  induction cps with
  | nil => exact .nil
  | cons cp cps ih =>
      have hcp := hmax cp List.mem_cons_self
      have hplain := hsur cp List.mem_cons_self
      obtain ⟨b, bs, hutf8, hsmall, -, -⟩ := utf8_spec hcp hplain
      have hbytes : ((utf8 cp).map Nat.toUInt8).flatMap (fun b => percentByte b.toNat) =
          (utf8 cp).flatMap percentByte := by
        rw [List.flatMap_map]
        apply List.flatMap_congr
        intro x hx
        rw [hutf8] at hx
        rw [Nat.toUInt8_eq, UInt8.toNat_ofNat', Nat.mod_eq_of_lt (hsmall x hx)]
      rw [List.flatMap_cons, List.flatMap_append, hbytes, List.flatMap_cons]
      exact .escape (escaped_utf8 hcp hplain _)
        (ih (fun x hx => hmax x (List.mem_cons_of_mem _ hx))
          fun x hx => hsur x (List.mem_cons_of_mem _ hx))

/-- Texts without a lone surrogate have bytes of their own. -/
theorem utf8Bytes_inj {a b : JsString} (ha : isWellFormed a = true) (hb : isWellFormed b = true)
    (h : utf8Bytes a = utf8Bytes b) : a = b := by
  have hdecodes : ∀ {text : JsString}, isWellFormed text = true →
      decodeURIComponent ((utf8Bytes text).flatMap fun b => percentByte b.toNat) = some text := by
    intro text htext
    rw [isWellFormed_iff] at htext
    have hbytes : utf8Bytes text =
        (codePoints text).flatMap fun cp => (utf8 cp).map Nat.toUInt8 := by
      apply List.flatMap_congr
      intro cp hcp
      rw [htext cp hcp]
      rfl
    rw [decodeURIComponent_iff, hbytes]
    have hrun := decodes_utf8 (fun cp => le_of_mem_codePoints) htext
    rwa [flatMap_utf16_codePoints] at hrun
  have hsame := hdecodes ha
  rw [h, hdecodes hb] at hsame
  exact (Option.some.inj hsame).symm

end Keala.Js
