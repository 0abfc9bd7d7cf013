import Keala.Js.Text

/-!
Splitting a text and joining its parts again.
-/

namespace Keala.Js

/-! ### At one code unit -/

theorem join_split (sep : CodeUnit) (text : JsString) : join sep (split sep text) = text :=
  List.intercalate_splitOn sep

theorem split_join {sep : CodeUnit} {parts : List JsString} (h : ∀ p ∈ parts, sep ∉ p)
    (hne : parts ≠ []) : split sep (join sep parts) = parts :=
  List.splitOn_intercalate sep h hne

theorem split_ne_nil (sep : CodeUnit) (text : JsString) : split sep text ≠ [] :=
  List.splitOn_ne_nil sep text

theorem split_append_cons (sep : CodeUnit) (text rest : JsString) :
    split sep (text ++ sep :: rest) = split sep text ++ split sep rest :=
  List.splitOn_append_cons_self text rest

theorem split_cons_self (sep : CodeUnit) (text : JsString) :
    split sep (sep :: text) = [] :: split sep text :=
  List.splitOn_append_cons_self [] text

theorem split_concat_self (sep : CodeUnit) (text : JsString) :
    split sep (text ++ [sep]) = split sep text ++ [[]] :=
  List.splitOn_append_cons_self text []

theorem not_mem_of_mem_split {sep : CodeUnit} {text part : JsString}
    (h : part ∈ split sep text) : sep ∉ part := by
  induction text generalizing part with
  | nil =>
      obtain rfl : part = [] := by simpa [split] using h
      exact List.not_mem_nil
  | cons c text ih =>
      rw [split, List.splitOn_cons_eq_if_modifyHead] at h
      by_cases hc : c = sep
      · rw [if_pos (by simpa using hc)] at h
        rcases List.mem_cons.mp h with rfl | h
        · exact List.not_mem_nil
        · exact ih h
      · rw [if_neg (by simpa using hc)] at h
        change part ∈ (split sep text).modifyHead (c :: ·) at h
        cases hs : split sep text with
        | nil => exact absurd hs (split_ne_nil sep text)
        | cons p ps =>
            rw [hs, List.modifyHead_cons] at h
            rcases List.mem_cons.mp h with rfl | h
            · have hp := ih (hs ▸ List.mem_cons_self)
              simp [hp, Ne.symm hc]
            · exact ih (hs ▸ List.mem_cons_of_mem _ h)

theorem join_cons_cons (sep : CodeUnit) (p q : JsString) (ps : List JsString) :
    join sep (p :: q :: ps) = p ++ sep :: join sep (q :: ps) := by
  simp [join, List.intercalate, List.intersperse]

theorem join_concat (sep : CodeUnit) {ps : List JsString} (h : ps ≠ []) (p : JsString) :
    join sep (ps ++ [p]) = join sep ps ++ sep :: p := by
  induction ps with
  | nil => exact absurd rfl h
  | cons q ps ih =>
      cases ps with
      | nil => simp [join, List.intercalate, List.intersperse]
      | cons r ps =>
          have hrec := ih (by simp)
          rw [List.cons_append, List.cons_append, join_cons_cons, join_cons_cons,
            ← List.cons_append, hrec]
          simp

/-- A text ends in the separator when its last part is empty. -/
theorem getLast?_eq_sep_iff (sep : CodeUnit) {text : JsString} (h : text ≠ []) :
    text.getLast? = some sep ↔ (split sep text).getLast? = some [] := by
  constructor
  · intro hlast
    obtain ⟨front, rfl⟩ := List.getLast?_eq_some_iff.mp hlast
    rw [split_concat_self, List.getLast?_concat]
  · intro hlast
    obtain ⟨front, hfront⟩ := List.getLast?_eq_some_iff.mp hlast
    have htext := join_split sep text
    rw [hfront] at htext
    cases front with
    | nil => exact absurd htext.symm h
    | cons p ps =>
        rw [join_concat sep (by simp)] at htext
        rw [← htext, List.getLast?_concat]

theorem join_singleton (sep : CodeUnit) (p : JsString) : join sep [p] = p := by
  simp [join, List.intercalate, List.intersperse]

theorem join_append (sep : CodeUnit) {ps qs : List JsString} (hps : ps ≠ []) (hqs : qs ≠ []) :
    join sep (ps ++ qs) = join sep ps ++ sep :: join sep qs := by
  induction ps with
  | nil => exact absurd rfl hps
  | cons p ps ih =>
      cases ps with
      | nil =>
          obtain ⟨q, rest, rfl⟩ := List.exists_cons_of_ne_nil hqs
          rw [List.singleton_append, join_cons_cons, join_singleton]
      | cons r ps =>
          have hrec := ih (by simp)
          rw [List.cons_append, List.cons_append, join_cons_cons, join_cons_cons,
            ← List.cons_append, hrec]
          simp

theorem forall_mem_join {sep : CodeUnit} {p : CodeUnit → Prop} (hsep : p sep)
    {parts : List JsString} (h : ∀ part ∈ parts, ∀ c ∈ part, p c) : ∀ c ∈ join sep parts, p c := by
  induction parts with
  | nil => exact fun _ hc => absurd hc List.not_mem_nil
  | cons part parts ih =>
      have hpart := h part List.mem_cons_self
      have hrest := ih fun q hq => h q (List.mem_cons_of_mem _ hq)
      cases parts with
      | nil =>
          rw [join_singleton]
          exact hpart
      | cons q parts =>
          intro c hc
          rw [join_cons_cons, List.mem_append, List.mem_cons] at hc
          rcases hc with hc | rfl | hc
          · exact hpart c hc
          · exact hsep
          · exact hrest c hc

theorem not_mem_join {sep c : CodeUnit} (hc : c ≠ sep) {parts : List JsString}
    (h : ∀ part ∈ parts, c ∉ part) : c ∉ join sep parts := by
  intro hmem
  refine forall_mem_join (p := fun d => d ≠ c) hc.symm ?_ c hmem rfl
  intro part hpart d hd heq
  exact h part hpart (heq ▸ hd)

theorem sep_mem_join {sep : CodeUnit} {parts : List JsString} (h : 2 ≤ parts.length) :
    sep ∈ join sep parts := by
  match parts, h with
  | p :: q :: rest, _ =>
      rw [join_cons_cons]
      exact List.mem_append_right _ List.mem_cons_self

theorem mem_join {sep c : CodeUnit} {parts : List JsString} {part : JsString}
    (hpart : part ∈ parts) (hc : c ∈ part) : c ∈ join sep parts := by
  induction parts with
  | nil => cases hpart
  | cons first parts ih =>
      cases parts with
      | nil =>
          rw [join_singleton, ← List.mem_singleton.mp hpart]
          exact hc
      | cons next parts =>
          rw [join_cons_cons, List.mem_append, List.mem_cons]
          rcases List.mem_cons.mp hpart with rfl | hpart
          · exact .inl hc
          · exact .inr (.inr (ih hpart))

theorem mem_of_mem_split {sep c : CodeUnit} {text part : JsString} (hpart : part ∈ split sep text)
    (hc : c ∈ part) : c ∈ text := by
  rw [← join_split sep text]
  exact mem_join hpart hc

theorem append_join_cons (sep : CodeUnit) (left p : JsString) (ps : List JsString) :
    left ++ join sep (p :: ps) = join sep ((left ++ p) :: ps) := by
  cases ps with
  | nil => rw [join_singleton, join_singleton]
  | cons q ps => rw [join_cons_cons, join_cons_cons, List.append_assoc]

theorem join_concat_append (sep : CodeUnit) (ps : List JsString) (p right : JsString) :
    join sep (ps ++ [p]) ++ right = join sep (ps ++ [p ++ right]) := by
  cases ps with
  | nil => rw [List.nil_append, List.nil_append, join_singleton, join_singleton]
  | cons q ps =>
      rw [join_concat sep (List.cons_ne_nil q ps), join_concat sep (List.cons_ne_nil q ps),
        List.append_assoc, List.cons_append]

theorem split_join_flatMap (sep : CodeUnit) {parts : List JsString} (hne : parts ≠ []) :
    split sep (join sep parts) = parts.flatMap (split sep) := by
  induction parts with
  | nil => exact absurd rfl hne
  | cons part parts ih =>
      cases parts with
      | nil => rw [join_singleton, List.flatMap_cons, List.flatMap_nil, List.append_nil]
      | cons next parts =>
          rw [join_cons_cons, split_append_cons, ih (List.cons_ne_nil _ _)]
          simp only [List.flatMap_cons]

/-- The parts of a text that stands between two texts without separators. -/
theorem split_between {sep : CodeUnit} {left right : JsString} (hleft : sep ∉ left)
    (hright : sep ∉ right) (text : JsString) :
    (sep ∉ text ∧ split sep (left ++ text ++ right) = [left ++ text ++ right]) ∨
      ∃ first middle last, split sep text = first :: middle ++ [last] ∧
        split sep (left ++ text ++ right) = (left ++ first) :: middle ++ [last ++ right] := by
  have hparts := fun p (hp : p ∈ split sep text) => not_mem_of_mem_split hp
  obtain ⟨first, rest, hsplit⟩ := List.exists_cons_of_ne_nil (split_ne_nil sep text)
  have htext := join_split sep text
  rw [hsplit] at hparts htext
  have hfirst := hparts first List.mem_cons_self
  rcases List.eq_nil_or_concat rest with rfl | ⟨middle, last, rfl⟩
  · left
    rw [join_singleton] at htext
    subst htext
    refine ⟨hfirst, List.splitOn_eq_singleton ?_⟩
    simp only [List.mem_append, not_or]
    exact ⟨⟨hleft, hfirst⟩, hright⟩
  · right
    rw [List.concat_eq_append] at hsplit htext hparts
    refine ⟨first, middle, last, hsplit, ?_⟩
    have hlast := hparts last (by simp)
    rw [← htext, append_join_cons, ← List.cons_append, join_concat_append]
    refine split_join ?_ (by simp)
    intro p hp
    simp only [List.mem_append, List.mem_cons, List.not_mem_nil, or_false] at hp
    rcases hp with (rfl | hp) | rfl
    · rw [List.mem_append, not_or]
      exact ⟨hleft, hfirst⟩
    · exact hparts p (by simp [hp])
    · rw [List.mem_append, not_or]
      exact ⟨hlast, hright⟩

/-! ### At two code units -/

def prepend (text : JsString) : List JsString → List JsString
  | [] => [text]
  | part :: parts => (text ++ part) :: parts

/-- `split` at a separator of two code units. -/
def splitPair (a b : CodeUnit) : JsString → List JsString
  | [] => [[]]
  | [c] => [[c]]
  | c :: d :: text =>
      if c = a ∧ d = b then [] :: splitPair a b text
      else prepend [c] (splitPair a b (d :: text))

example : splitPair 58 58 (js "a:b:::c") = [js "a:b", js ":c"] := by decide

theorem prepend_nil {parts : List JsString} (h : parts ≠ []) : prepend [] parts = parts := by
  cases parts with
  | nil => exact absurd rfl h
  | cons part parts => rfl

theorem prepend_append (s t : JsString) (parts : List JsString) :
    prepend s (prepend t parts) = prepend (s ++ t) parts := by
  cases parts with
  | nil => rfl
  | cons part parts => simp [prepend]

theorem prepend_ne_nil (s : JsString) (parts : List JsString) : prepend s parts ≠ [] := by
  cases parts <;> simp [prepend]

theorem splitPair_ne_nil (a b : CodeUnit) (text : JsString) : splitPair a b text ≠ [] := by
  fun_cases splitPair a b text with
  | case1 => simp
  | case2 => simp
  | case3 => simp
  | case4 => exact prepend_ne_nil _ _

@[simp] theorem splitPair_nil (a b : CodeUnit) : splitPair a b [] = [[]] := rfl

theorem splitPair_pair (a b : CodeUnit) (text : JsString) :
    splitPair a b (a :: b :: text) = [] :: splitPair a b text := by
  rw [splitPair, if_pos ⟨rfl, rfl⟩]

theorem splitPair_cons_of_ne {a b c : CodeUnit} (h : c ≠ a) (text : JsString) :
    splitPair a b (c :: text) = prepend [c] (splitPair a b text) := by
  cases text with
  | nil => rfl
  | cons d text => rw [splitPair, if_neg fun heq => h heq.1]

theorem splitPair_append {a b : CodeUnit} {part : JsString} (h : a ∉ part) (text : JsString) :
    splitPair a b (part ++ text) = prepend part (splitPair a b text) := by
  induction part with
  | nil =>
      rw [prepend_nil (splitPair_ne_nil a b text)]
      rfl
  | cons c part ih =>
      rw [List.mem_cons, not_or] at h
      rw [List.cons_append, splitPair_cons_of_ne (Ne.symm h.1), ih h.2, prepend_append,
        List.singleton_append]

/-- A first unit alone is no separator. -/
theorem splitPair_single {a b : CodeUnit} {part : JsString} (hne : part ≠ [])
    (h : b ∉ part) (text : JsString) :
    splitPair a b (a :: (part ++ text)) = prepend [a] (splitPair a b (part ++ text)) := by
  obtain ⟨c, rest, rfl⟩ := List.exists_cons_of_ne_nil hne
  rw [List.mem_cons, not_or] at h
  rw [List.cons_append, splitPair, if_neg fun heq => h.1 heq.2.symm]

/-- The parts that single separators join hold no double one. -/
theorem splitPair_join {a : CodeUnit} {parts : List JsString} (hne : parts ≠ [])
    (h : ∀ p ∈ parts, p ≠ [] ∧ a ∉ p) (text : JsString) :
    splitPair a a (join a parts ++ text) = prepend (join a parts) (splitPair a a text) := by
  induction parts with
  | nil => exact absurd rfl hne
  | cons p ps ih =>
      have hp := h p List.mem_cons_self
      cases ps with
      | nil =>
          rw [join_singleton]
          exact splitPair_append hp.2 text
      | cons q ps =>
          have hrec := ih (by simp) fun r hr => h r (List.mem_cons_of_mem _ hr)
          have hq := h q (by simp)
          obtain ⟨more, hmore⟩ : ∃ more, join a (q :: ps) ++ text = q ++ more := by
            cases ps with
            | nil => exact ⟨text, by rw [join_singleton]⟩
            | cons r ps => exact ⟨a :: join a (r :: ps) ++ text, by
                rw [join_cons_cons, List.append_assoc]⟩
          rw [join_cons_cons, List.append_assoc, splitPair_append hp.2, List.cons_append, hmore,
            splitPair_single hq.1 hq.2, ← hmore, hrec, prepend_append, prepend_append,
            List.append_assoc, List.singleton_append]

/-- What stands around the first separator, if there is one. -/
theorem splitPair_spec (a b : CodeUnit) (text : JsString) :
    splitPair a b text = [text] ∨
      ∃ left right, text = left ++ a :: b :: right ∧
        splitPair a b text = left :: splitPair a b right := by
  induction text using splitPair.induct a b with
  | case1 => exact .inl rfl
  | case2 c => exact .inl rfl
  | case3 c d text hsep ih =>
      obtain ⟨rfl, rfl⟩ := hsep
      exact .inr ⟨[], text, rfl, splitPair_pair c d text⟩
  | case4 c d text hsep ih =>
      rw [splitPair, if_neg hsep]
      rcases ih with hwhole | ⟨left, right, htext, hsplit⟩
      · left
        rw [hwhole]
        rfl
      · right
        refine ⟨c :: left, right, ?_, ?_⟩
        · rw [htext, List.cons_append]
        · rw [hsplit]
          rfl

end Keala.Js
