import Keala.Js.Digits

/-!
`decodeURIComponent` as a relation: plain units stand for themselves, and a
character is read off the escapes of its octets, wherever they stand.
-/

namespace Keala.Js

inductive Decodes : JsString → JsString → Prop
  | nil : Decodes [] []
  | plain {c : CodeUnit} {text decoded : JsString} (hc : c ≠ percent) (h : Decodes text decoded) :
      Decodes (c :: text) (c :: decoded)
  | escape {text char rest decoded : JsString} (hchar : escaped text = some (char, rest))
      (h : Decodes rest decoded) : Decodes text (char ++ decoded)

inductive Escapes : JsString → Prop
  | nil : Escapes []
  | cons {high low : CodeUnit} {text : JsString} (hhigh : isHexDigit high = true)
      (hlow : isHexDigit low = true) (h : Escapes text) :
      Escapes (percent :: high :: low :: text)

def NoEscape (text : JsString) : Prop := octet text = none

variable {text rest char decoded front run : JsString}

theorem octet_some {b : ℕ} (h : octet text = some (b, rest)) :
    ∃ high low, text = percent :: high :: low :: rest ∧ isHexDigit high = true ∧
      isHexDigit low = true ∧
        ∀ more, octet (percent :: high :: low :: more) = some (b, more) := by
  fun_cases octet text with
  | case1 high low more =>
      simp only [octet, if_true, Option.bind_eq_bind, Option.bind_eq_some_iff, Option.pure_def,
        Option.some.injEq, Prod.mk.injEq] at h
      obtain ⟨x, hx, y, hy, rfl, rfl⟩ := h
      refine ⟨high, low, rfl, ?_, ?_, ?_⟩
      · rw [isHexDigit, hx, Option.isSome_some]
      · rw [isHexDigit, hy, Option.isSome_some]
      · intro more
        simp [octet, hx, hy]
  | case2 p high low more hp => simp [octet, hp] at h
  | case3 => simp_all [octet]

theorem octet_isSome_iff (c high low : CodeUnit) (rest : JsString) :
    (octet (c :: high :: low :: rest)).isSome =
      (decide (c = percent) && (isHexDigit high && isHexDigit low)) := by
  rw [octet]
  by_cases hc : c = percent
  · rw [if_pos hc, decide_eq_true hc, isHexDigit, isHexDigit]
    cases hexValue high with
    | none => rfl
    | some x => cases hexValue low <;> rfl
  · rw [if_neg hc, decide_eq_false hc]
    rfl

theorem octets_some {n : ℕ} {bs : List ℕ} (h : octets n text = some (bs, rest)) :
    ∃ front, text = front ++ rest ∧ Escapes front ∧ front.length = 3 * n ∧
      ∀ more, octets n (front ++ more) = some (bs, more) := by
  induction n generalizing text bs with
  | zero =>
      cases h
      exact ⟨[], rfl, .nil, rfl, fun _ => rfl⟩
  | succ n ih =>
      simp only [octets, Option.bind_eq_bind, Option.bind_eq_some_iff, Option.pure_def,
        Option.some.injEq, Prod.mk.injEq] at h
      obtain ⟨⟨b, mid⟩, hb, ⟨others, last⟩, hbs, rfl, rfl⟩ := h
      obtain ⟨high, low, rfl, hhigh, hlow, hread⟩ := octet_some hb
      obtain ⟨front, rfl, hescapes, hlength, hmore⟩ := ih hbs
      refine ⟨percent :: high :: low :: front, rfl, .cons hhigh hlow hescapes, ?_, ?_⟩
      · simp only [List.length_cons, hlength]
        omega
      · intro more
        simp [octets, hread, hmore]

/-- A character is read off a run of escapes alone. -/
theorem escaped_some (h : escaped text = some (char, rest)) :
    ∃ front, text = front ++ rest ∧ Escapes front ∧ front ≠ [] ∧
      ∀ more, escaped (front ++ more) = some (char, more) := by
  simp only [escaped, Option.bind_eq_bind, Option.bind_eq_some_iff, Option.pure_def,
    Option.some.injEq, Prod.mk.injEq] at h
  obtain ⟨⟨b, mid⟩, hb, ⟨bs, last⟩, hbs, cp, hcp, rfl, rfl⟩ := h
  obtain ⟨front, rfl, hescapes, hlength, hmore⟩ := octets_some hbs
  have hne : front ≠ [] := by
    rintro rfl
    -- an empty sequence has no code point
    have hzero : sequenceLength b = 0 := by simpa using hlength.symm
    rw [hzero] at hbs
    cases hbs
    cases hcp
  refine ⟨front, rfl, hescapes, hne, fun more => ?_⟩
  obtain ⟨high, low, hhead, -, -, hread⟩ := octet_some hb
  obtain ⟨tail, rfl⟩ : ∃ tail, front = percent :: high :: low :: tail := by
    cases hescapes with
    | nil => exact absurd rfl hne
    | cons _ _ _ =>
        simp only [List.cons_append, List.cons.injEq, true_and] at hhead
        obtain ⟨rfl, rfl, -⟩ := hhead
        exact ⟨_, rfl⟩
  have hall := hmore more
  dsimp only at hcp hall
  rw [List.cons_append, List.cons_append, List.cons_append] at hall ⊢
  simp [escaped, hread, hall, hcp]

theorem escaped_head (h : escaped text = some (char, rest)) : ∃ more, text = percent :: more := by
  obtain ⟨front, rfl, hescapes, hne, -⟩ := escaped_some h
  cases hescapes with
  | nil => exact absurd rfl hne
  | cons _ _ _ => exact ⟨_, rfl⟩

/-! ### The relation is the decoder -/

theorem decodes_of_decodeWithin {fuel : ℕ} (h : decodeWithin fuel text = some decoded) :
    Decodes text decoded := by
  induction fuel generalizing text decoded with
  | zero =>
      cases text with
      | nil =>
          cases h
          exact .nil
      | cons c text => cases h
  | succ fuel ih =>
      cases text with
      | nil =>
          cases h
          exact .nil
      | cons c text =>
          rw [decodeWithin] at h
          split at h
          · simp only [Option.bind_eq_bind, Option.bind_eq_some_iff, Option.pure_def,
              Option.some.injEq] at h
            obtain ⟨⟨char, rest⟩, hchar, tail, htail, rfl⟩ := h
            exact .escape hchar (ih htail)
          · next hc =>
              simp only [Option.bind_eq_bind, Option.bind_eq_some_iff, Option.pure_def,
                Option.some.injEq] at h
              obtain ⟨tail, htail, rfl⟩ := h
              exact .plain hc (ih htail)

theorem Decodes.decodeWithin_eq (h : Decodes text decoded) {fuel : ℕ} (hfuel : text.length ≤ fuel) :
    decodeWithin fuel text = some decoded := by
  induction h generalizing fuel with
  | nil => rw [decodeWithin]
  | plain hc h ih =>
      obtain ⟨fuel, rfl⟩ : ∃ rounds, fuel = rounds + 1 :=
        ⟨fuel - 1, by rw [List.length_cons] at hfuel; omega⟩
      rw [decodeWithin_plain hc, ih (Nat.le_of_succ_le_succ hfuel)]
      rfl
  | escape hchar h ih =>
      obtain ⟨front, rfl, hescapes, hne, hmore⟩ := escaped_some hchar
      obtain ⟨more, htext⟩ := escaped_head hchar
      have hlength : 0 < front.length := List.length_pos_of_ne_nil hne
      rw [List.length_append] at hfuel
      obtain ⟨fuel, rfl⟩ : ∃ rounds, fuel = rounds + 1 := ⟨fuel - 1, by omega⟩
      rw [htext] at hchar ⊢
      rw [decodeWithin_escaped hchar, ih (by omega)]
      rfl

theorem decodeURIComponent_iff : decodeURIComponent text = some decoded ↔ Decodes text decoded :=
  ⟨decodes_of_decodeWithin, fun h => h.decodeWithin_eq (Nat.le_refl _)⟩

/-- A text without escapes stands for itself. -/
theorem decodes_of_no_percent (h : percent ∉ text) : Decodes text text := by
  induction text with
  | nil => exact .nil
  | cons c text ih =>
      rw [List.mem_cons, not_or] at h
      exact .plain (Ne.symm h.1) (ih h.2)

/-! ### Decoding part by part -/

theorem Escapes.append {other : JsString} (h : Escapes run) (hother : Escapes other) :
    Escapes (run ++ other) := by
  induction h with
  | nil => exact hother
  | cons hhigh hlow h ih => exact .cons hhigh hlow ih

/-- A run of escapes that ends before the text does not reach past another. -/
theorem Escapes.within {tail : JsString} (hfront : Escapes front) (hrun : Escapes run)
    (htail : NoEscape tail) (h : front ++ rest = run ++ tail) :
    ∃ more, run = front ++ more ∧ Escapes more ∧ rest = more ++ tail := by
  induction hfront generalizing run with
  | nil => exact ⟨run, rfl, hrun, h⟩
  | @cons high low text hhigh hlow hfront ih =>
      cases hrun with
      | nil =>
          -- the escape at the front would stand at the start of the tail
          rw [List.nil_append] at h
          have hsome := octet_isSome_iff percent high low (text ++ rest)
          rw [hhigh, hlow] at hsome
          rw [NoEscape, ← h] at htail
          simp only [List.cons_append] at htail
          rw [htail] at hsome
          cases hsome
      | cons hhigh' hlow' hrun =>
          simp only [List.cons_append, List.cons.injEq, true_and] at h
          obtain ⟨rfl, rfl, h⟩ := h
          obtain ⟨more, rfl, hmore, hrest⟩ := ih hrun h
          exact ⟨more, rfl, hmore, hrest⟩

/-- A maximal run of escapes is decoded apart from what follows it. -/
theorem Decodes.split_run {tail : JsString} (h : Decodes (run ++ tail) decoded)
    (hrun : Escapes run) (htail : NoEscape tail) :
    ∃ left right, Decodes run left ∧ Decodes tail right ∧ decoded = left ++ right := by
  generalize htext : run ++ tail = text at h
  induction h generalizing run with
  | nil =>
      obtain ⟨rfl, rfl⟩ := List.append_eq_nil_iff.mp htext
      exact ⟨[], [], .nil, .nil, rfl⟩
  | @plain c text decoded hc h ih =>
      cases hrun with
      | nil =>
          rw [List.nil_append] at htext
          exact ⟨[], c :: decoded, .nil, htext ▸ .plain hc h, rfl⟩
      | cons _ _ _ =>
          simp only [List.cons_append, List.cons.injEq] at htext
          exact absurd htext.1.symm hc
  | @escape text char rest decoded hchar h ih =>
      obtain ⟨front, rfl, hfront, hne, hmore⟩ := escaped_some hchar
      obtain ⟨more, rfl, hescapes, rfl⟩ := hfront.within hrun htail htext.symm
      obtain ⟨left, right, hleft, hright, rfl⟩ := ih hescapes rfl
      exact ⟨char ++ left, right, .escape (hmore more) hleft, hright, (List.append_assoc ..).symm⟩

end Keala.Js
