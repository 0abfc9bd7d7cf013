import Keala.Plugins.Cookies

/-!
Reading base64url back: the digits of a text as the bytes they were written for.
-/

namespace Keala.Plugins

open Keala.Js

def base64Value (c : CodeUnit) : Option ℕ :=
  if 65 ≤ c ∧ c ≤ 90 then some (c.toNat - 65)
  else if 97 ≤ c ∧ c ≤ 122 then some (c.toNat - 71)
  else if 48 ≤ c ∧ c ≤ 57 then some (c.toNat + 4)
  else if c = 45 ∨ c = 43 then some 62
  else if c = 95 ∨ c = 47 then some 63
  else none

/-- The bytes of groups of four digits; a last group may be short. -/
def fromDigits : List ℕ → List UInt8
  | a :: b :: c :: d :: rest =>
      (a * 4 + b / 16).toUInt8 :: (b % 16 * 16 + c / 4).toUInt8 :: (c % 4 * 64 + d).toUInt8 ::
        fromDigits rest
  | [a, b, c] => [(a * 4 + b / 16).toUInt8, (b % 16 * 16 + c / 4).toUInt8]
  | [a, b] => [(a * 4 + b / 16).toUInt8]
  | _ => []

/-- `Buffer.from(text, "base64url")`: what is no digit is passed over. -/
def readBase64Url (text : JsString) : List UInt8 := fromDigits (text.filterMap base64Value)

example : readBase64Url (js "_-8=") = [255, 239] := by decide

theorem base64Value_base64Digit {n : ℕ} (h : n < 64) : base64Value (base64Digit n) = some n := by
  revert n
  decide

theorem filterMap_digits {ns : List ℕ} (h : ∀ n ∈ ns, n < 64) :
    (ns.map base64Digit).filterMap base64Value = ns := by
  induction ns with
  | nil => rfl
  | cons n ns ih =>
      have hdigit := base64Value_base64Digit (h n List.mem_cons_self)
      rw [List.map_cons, List.filterMap_cons_some hdigit,
        ih fun m hm => h m (List.mem_cons_of_mem _ hm)]

theorem toUInt8_eq {n : ℕ} {a : UInt8} (h : n = a.toNat) : n.toUInt8 = a := by
  rw [h]
  exact UInt8.ofNat_toNat

theorem readBase64Url_base64Url (bytes : List UInt8) : readBase64Url (base64Url bytes) = bytes := by
  induction bytes using base64Url.induct with
  | case1 => rfl
  | case2 a =>
      have ha := a.toNat_lt
      have hdigits : (base64Url [a]).filterMap base64Value = [a.toNat / 4, a.toNat % 4 * 16] := by
        refine @filterMap_digits [_, _] ?_
        simp only [List.mem_cons, List.not_mem_nil, or_false]
        rintro n (rfl | rfl) <;> omega
      rw [readBase64Url, hdigits, fromDigits, toUInt8_eq]
      omega
  | case3 a b =>
      have ha := a.toNat_lt
      have hb := b.toNat_lt
      have hdigits : (base64Url [a, b]).filterMap base64Value =
          [a.toNat / 4, a.toNat % 4 * 16 + b.toNat / 16, b.toNat % 16 * 4] := by
        refine @filterMap_digits [_, _, _] ?_
        simp only [List.mem_cons, List.not_mem_nil, or_false]
        rintro n (rfl | rfl | rfl) <;> omega
      have hfirst : a.toNat / 4 * 4 + (a.toNat % 4 * 16 + b.toNat / 16) / 16 = a.toNat := by omega
      have hsecond : (a.toNat % 4 * 16 + b.toNat / 16) % 16 * 16 + b.toNat % 16 * 4 / 4 =
          b.toNat := by omega
      rw [readBase64Url, hdigits, fromDigits, toUInt8_eq hfirst, toUInt8_eq hsecond]
  | case4 a b c rest ih =>
      have ha := a.toNat_lt
      have hb := b.toNat_lt
      have hc := c.toNat_lt
      have hdigits : (base64Url (a :: b :: c :: rest)).filterMap base64Value =
          [a.toNat / 4, a.toNat % 4 * 16 + b.toNat / 16, b.toNat % 16 * 4 + c.toNat / 64,
            c.toNat % 64] ++ (base64Url rest).filterMap base64Value := by
        rw [base64Url, List.filterMap_append]
        congr 1
        refine @filterMap_digits [_, _, _, _] ?_
        simp only [List.mem_cons, List.not_mem_nil, or_false]
        rintro n (rfl | rfl | rfl | rfl) <;> omega
      have hfirst : a.toNat / 4 * 4 + (a.toNat % 4 * 16 + b.toNat / 16) / 16 = a.toNat := by omega
      have hsecond : (a.toNat % 4 * 16 + b.toNat / 16) % 16 * 16 +
          (b.toNat % 16 * 4 + c.toNat / 64) / 4 = b.toNat := by omega
      have hthird : (b.toNat % 16 * 4 + c.toNat / 64) % 4 * 64 + c.toNat % 64 = c.toNat := by omega
      rw [readBase64Url, hdigits, List.cons_append, List.cons_append, List.cons_append,
        List.cons_append, List.nil_append, fromDigits, toUInt8_eq hfirst, toUInt8_eq hsecond,
        toUInt8_eq hthird]
      exact congrArg (fun bytes => a :: b :: c :: bytes) ih

theorem base64Url_inj {a b : List UInt8} (h : base64Url a = base64Url b) : a = b := by
  rw [← readBase64Url_base64Url a, h, readBase64Url_base64Url]

/-- No digit is a control character or a separator. -/
theorem base64Digit_bounds {n : ℕ} (h : n < 64) :
    45 ≤ base64Digit n ∧ base64Digit n ≤ 122 ∧ base64Digit n ≠ 46 := by
  revert n
  decide

theorem mem_base64Url {c : CodeUnit} {bytes : List UInt8} (h : c ∈ base64Url bytes) :
    ∃ n < 64, c = base64Digit n := by
  induction bytes using base64Url.induct with
  | case1 => cases h
  | case2 a =>
      have ha := a.toNat_lt
      simp only [base64Url, List.mem_cons, List.not_mem_nil, or_false] at h
      rcases h with rfl | rfl <;> exact ⟨_, by omega, rfl⟩
  | case3 a b =>
      have ha := a.toNat_lt
      have hb := b.toNat_lt
      simp only [base64Url, List.mem_cons, List.not_mem_nil, or_false] at h
      rcases h with rfl | rfl | rfl <;> exact ⟨_, by omega, rfl⟩
  | case4 a b c' rest ih =>
      have ha := a.toNat_lt
      have hb := b.toNat_lt
      have hc := c'.toNat_lt
      rw [base64Url, List.mem_append] at h
      rcases h with h | h
      · simp only [List.mem_cons, List.not_mem_nil, or_false] at h
        rcases h with rfl | rfl | rfl | rfl <;> exact ⟨_, by omega, rfl⟩
      · exact ih h

theorem dot_not_mem_base64Url (bytes : List UInt8) : (46 : CodeUnit) ∉ base64Url bytes := by
  intro h
  obtain ⟨n, hn, hdot⟩ := mem_base64Url h
  exact (base64Digit_bounds hn).2.2 hdot.symm

end Keala.Plugins
