import Keala.Js.Split
import Mathlib.Data.List.DropRight

/-!
What `trim` takes off a text and what it leaves.
-/

namespace Keala.Js

/-- The optional white space of a header: blanks and tabs. -/
def isOws (c : CodeUnit) : Bool := c = 32 || c = 9

theorem isSpace_of_isOws {c : CodeUnit} (h : isOws c = true) : isSpace c = true := by
  rw [isOws, Bool.or_eq_true, decide_eq_true_eq, decide_eq_true_eq] at h
  rcases h with rfl | rfl <;> decide

section
variable {p : CodeUnit → Bool} {text : JsString} {c : CodeUnit}

theorem trimBy_eq (p : CodeUnit → Bool) (text : JsString) :
    trimBy p text = (text.dropWhile p).rdropWhile p := rfl

theorem trimBy_eq_self (hhead : ∀ c ∈ text.head?, p c = false)
    (hlast : ∀ c ∈ text.getLast?, p c = false) : trimBy p text = text := by
  have hdrop : text.dropWhile p = text := by
    cases text with
    | nil => rfl
    | cons c text => rw [List.dropWhile_cons, if_neg (by simpa using hhead c rfl)]
  rw [trimBy_eq, hdrop]
  refine List.rdropWhile_eq_self_iff.mpr fun hne => ?_
  simpa using hlast _ (List.getLast?_eq_some_getLast hne)

theorem trimBy_head? (h : c ∈ (trimBy p text).head?) : p c = false := by
  rw [trimBy_eq] at h
  obtain ⟨rest, hrest⟩ := List.head?_eq_some_iff.mp h
  have hpre : (text.dropWhile p).rdropWhile p <+: text.dropWhile p := List.rdropWhile_prefix _ _
  rw [hrest] at hpre
  obtain ⟨more, hmore⟩ := hpre
  have hhead := List.head?_dropWhile_not p text
  rw [← hmore] at hhead
  simpa using hhead

theorem trimBy_getLast? (h : c ∈ (trimBy p text).getLast?) : p c = false := by
  rw [trimBy_eq] at h
  have hne : (text.dropWhile p).rdropWhile p ≠ [] := by
    intro heq
    rw [heq] at h
    cases h
  have hlast := List.rdropWhile_last_not p (text.dropWhile p) hne
  rw [List.getLast?_eq_some_getLast hne] at h
  cases h
  simpa using hlast

theorem trimBy_trimBy (p : CodeUnit → Bool) (text : JsString) :
    trimBy p (trimBy p text) = trimBy p text :=
  trimBy_eq_self (fun _ => trimBy_head?) fun _ => trimBy_getLast?

/-- What is trimmed off is made of the units of `p`. -/
theorem exists_trimBy (p : CodeUnit → Bool) (text : JsString) :
    ∃ left right, text = left ++ trimBy p text ++ right ∧
      (∀ c ∈ left, p c = true) ∧ ∀ c ∈ right, p c = true := by
  refine ⟨text.takeWhile p, (text.dropWhile p).rtakeWhile p, ?_, ?_, ?_⟩
  · rw [trimBy_eq, List.append_assoc, List.rdropWhile_append_rtakeWhile,
      List.takeWhile_append_dropWhile]
  · exact fun c hc => List.mem_takeWhile_imp hc
  · exact fun c hc => List.mem_rtakeWhile_imp hc

/-- A unit that is not trimmed off is there as often as before. -/
theorem count_trimBy (hc : p c = false) (text : JsString) :
    (trimBy p text).count c = text.count c := by
  obtain ⟨left, right, htext, hleft, hright⟩ := exists_trimBy p text
  have habsent : ∀ blank : JsString, (∀ d ∈ blank, p d = true) → blank.count c = 0 := by
    intro blank hblank
    rw [List.count_eq_zero]
    intro hmem
    rw [hblank c hmem] at hc
    cases hc
  conv_rhs => rw [htext]
  rw [List.count_append, List.count_append, habsent left hleft, habsent right hright]
  omega

theorem mem_of_mem_trimBy (h : c ∈ trimBy p text) : c ∈ text := by
  obtain ⟨left, right, htext, -, -⟩ := exists_trimBy p text
  rw [htext]
  exact List.mem_append_left _ (List.mem_append_right _ h)

end

theorem trim_eq (text : JsString) : trim text = (text.dropWhile isSpace).rdropWhile isSpace := rfl

@[simp] theorem trim_nil : trim [] = [] := rfl

theorem dropWhile_of_forall {p : CodeUnit → Bool} {text : JsString} (h : ∀ c ∈ text, p c = true) :
    text.dropWhile p = [] :=
  List.dropWhile_eq_nil_iff.mpr h

theorem rdropWhile_append_of_forall {p : CodeUnit → Bool} {blank : JsString}
    (h : ∀ c ∈ blank, p c = true) (text : JsString) :
    (text ++ blank).rdropWhile p = text.rdropWhile p := by
  rw [List.rdropWhile, List.rdropWhile, List.reverse_append,
    List.dropWhile_append_of_pos fun c hc => h c (List.mem_reverse.mp hc)]

theorem trim_blank_append {blank : JsString} (h : ∀ c ∈ blank, isSpace c = true)
    (text : JsString) : trim (blank ++ text) = trim text := by
  rw [trim_eq, trim_eq, List.dropWhile_append_of_pos h]

theorem trim_append_blank {blank : JsString} (h : ∀ c ∈ blank, isSpace c = true)
    (text : JsString) : trim (text ++ blank) = trim text := by
  rw [trim_eq, trim_eq, List.dropWhile_append]
  by_cases hall : (text.dropWhile isSpace).isEmpty
  · rw [if_pos hall, dropWhile_of_forall h, List.isEmpty_iff.mp hall]
  · rw [if_neg hall, rdropWhile_append_of_forall h]

theorem trim_of_forall {blank : JsString} (h : ∀ c ∈ blank, isSpace c = true) :
    trim blank = [] := by
  rw [← List.nil_append blank, trim_append_blank h, trim_nil]

theorem mem_of_mem_trim {c : CodeUnit} {text : JsString} (h : c ∈ trim text) : c ∈ text :=
  mem_of_mem_trimBy h

/-- A text whose ends are no white space stays as it is. -/
theorem trim_eq_self {text : JsString} (hhead : ∀ c ∈ text.head?, isSpace c = false)
    (hlast : ∀ c ∈ text.getLast?, isSpace c = false) : trim text = text :=
  trimBy_eq_self hhead hlast

/-- Behind a unit that is no white space only the right end is trimmed. -/
theorem trim_append_cons {a y : JsString} {k : CodeUnit}
    (hhead : ∀ c ∈ a.head?, isSpace c = false) (hk : isSpace k = false) :
    trim (a ++ k :: y) = a ++ k :: y.rdropWhile isSpace := by
  have hdrop : (a ++ k :: y).dropWhile isSpace = a ++ k :: y := by
    cases a with
    | nil => rw [List.nil_append, List.dropWhile_cons, if_neg (by simp [hk])]
    | cons c a => rw [List.cons_append, List.dropWhile_cons, if_neg (by simpa using hhead c rfl)]
  have hkeep : (k :: a.reverse).dropWhile isSpace = k :: a.reverse := by
    rw [List.dropWhile_cons, if_neg (by simp [hk])]
  rw [trim_eq, hdrop, List.rdropWhile, List.rdropWhile, List.reverse_append, List.reverse_cons,
    List.append_assoc, List.singleton_append, List.dropWhile_append, hkeep]
  by_cases hall : (y.reverse.dropWhile isSpace).isEmpty
  · rw [if_pos hall, List.isEmpty_iff.mp hall]
    simp
  · rw [if_neg hall]
    simp

theorem trim_of_no_space {text : JsString} (h : ∀ c ∈ text, isSpace c = false) :
    trim text = text :=
  trim_eq_self (fun c hc => h c (List.mem_of_mem_head? hc))
    fun c hc => h c (List.mem_of_mem_getLast? hc)

theorem trim_getLast? {text : JsString} {c : CodeUnit} (h : c ∈ (trim text).getLast?) :
    isSpace c = false :=
  trimBy_getLast? h

theorem trim_trim (text : JsString) : trim (trim text) = trim text := trimBy_trimBy isSpace text

end Keala.Js
