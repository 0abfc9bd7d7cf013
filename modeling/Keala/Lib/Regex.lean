import Mathlib.Logic.Function.Basic
import Mathlib.Data.List.Basic
import Mathlib.Data.List.Infix
import Mathlib.Data.List.TakeWhile

/-!
Backtracking regular expressions with capture groups, read as the list of all
ways to match in the order a backtracking engine tries them. Quantifiers apply
to single-character classes and are greedy.
-/

universe u

inductive Regex (α : Type u)
  | empty
  | one (p : α → Bool)
  | star (p : α → Bool)
  | plus (p : α → Bool)
  | opt (p : α → Bool)
  | seq (r s : Regex α)
  | alt (r s : Regex α)
  /-- A capture group with its number. -/
  | group (index : ℕ) (r : Regex α)
  | start
  | stop

namespace Regex

variable {α : Type u}

/-- A way to match so far: what is left of the input, and what the groups
captured. -/
structure Run (α : Type u) where
  rest : List α
  groups : ℕ → Option (List α)

def greedy (p : α → Bool) : List α → List (List α)
  | [] => [[]]
  | a :: rest => if p a then greedy p rest ++ [a :: rest] else [a :: rest]

/-- The ways to match from `s`, in an input of `length` characters. -/
def runs (length : ℕ) : Regex α → Run α → List (Run α)
  | empty, s => [s]
  | one p, s =>
      match s.rest with
      | [] => []
      | a :: rest => if p a then [{ s with rest }] else []
  | star p, s => (greedy p s.rest).map fun rest => { s with rest }
  | plus p, s =>
      match s.rest with
      | [] => []
      | a :: rest => if p a then (greedy p rest).map fun rest => { s with rest } else []
  | opt p, s =>
      match s.rest with
      | [] => [s]
      | a :: rest => if p a then [{ s with rest }, s] else [s]
  | seq r t, s => (runs length r s).flatMap (runs length t)
  | alt r t, s => runs length r s ++ runs length t s
  | group index r, s => (runs length r s).map fun s' =>
      { s' with
        groups := Function.update s'.groups index
          (some (s.rest.take (s.rest.length - s'.rest.length))) }
  | start, s => if s.rest.length = length then [s] else []
  | stop, s => match s.rest with | [] => [s] | _ :: _ => []

/-- The first match at the first position that has one: its text, and how it
ended. -/
def exec (r : Regex α) (input : List α) : Option (List α × Run α) :=
  input.tails.findSome? fun rest => (runs input.length r ⟨rest, fun _ => none⟩).head?.map
    fun run => (rest.take (rest.length - run.rest.length), run)

def seqOf : List (Regex α) → Regex α
  | [] => empty
  | [r] => r
  | r :: rs => seq r (seqOf rs)

def altOf : List (Regex α) → Regex α
  | [] => empty
  | [r] => r
  | r :: rs => alt r (altOf rs)

theorem runs_seqOf_cons (length : ℕ) (r : Regex α) (rs : List (Regex α)) (s : Run α) :
    runs length (seqOf (r :: rs)) s = (runs length r s).flatMap (runs length (seqOf rs)) := by
  cases rs with
  | nil =>
      have hempty : (fun s : Run α => runs length (seqOf []) s) = fun s => [s] := rfl
      show runs length r s = (runs length r s).flatMap fun s => [s]
      rw [List.flatMap_singleton']
  | cons t ts => rfl

theorem runs_altOf (length : ℕ) {rs : List (Regex α)} (h : rs ≠ []) (s : Run α) :
    runs length (altOf rs) s = rs.flatMap fun r => runs length r s := by
  induction rs with
  | nil => exact absurd rfl h
  | cons r rs ih =>
      cases rs with
      | nil => simp [altOf]
      | cons t ts =>
          rw [List.flatMap_cons, ← ih (by simp)]
          rfl

theorem runs_seqOf_append (length : ℕ) (rs ts : List (Regex α)) (s : Run α) :
    runs length (seqOf (rs ++ ts)) s =
      (runs length (seqOf rs) s).flatMap (runs length (seqOf ts)) := by
  induction rs generalizing s with
  | nil => simp [seqOf, runs]
  | cons r rs ih =>
      rw [List.cons_append, runs_seqOf_cons, runs_seqOf_cons, List.flatMap_assoc]
      exact List.flatMap_congr fun t _ => ih t

/-! ### Greedy repetition in context -/

theorem dropWhile_mem_greedy (p : α → Bool) (xs : List α) :
    ∃ rest, greedy p xs = xs.dropWhile p :: rest ∧
      ∀ ys ∈ rest, ∃ a zs, ys = a :: zs ∧ p a = true := by
  induction xs with
  | nil => exact ⟨[], rfl, by simp⟩
  | cons a xs ih =>
      rw [greedy, List.dropWhile_cons]
      by_cases h : p a
      · obtain ⟨rest, hgreedy, hrest⟩ := ih
        refine ⟨rest ++ [a :: xs], by simp [h, hgreedy], ?_⟩
        intro ys hys
        rcases List.mem_append.mp hys with hys | hys
        · exact hrest ys hys
        · exact ⟨a, xs, List.mem_singleton.mp hys, h⟩
      · exact ⟨[], by simp [h], by simp⟩

/-- When what follows cannot start with a character of the class, only the
longest repetition counts. -/
theorem flatMap_greedy {β : Type*} (p : α → Bool) (k : List α → List β)
    (hk : ∀ a zs, p a = true → k (a :: zs) = []) (xs : List α) :
    (greedy p xs).flatMap k = k (xs.dropWhile p) := by
  obtain ⟨rest, hgreedy, hrest⟩ := dropWhile_mem_greedy p xs
  have hnil : rest.flatMap k = [] := by
    rw [List.flatMap_eq_nil_iff]
    intro ys hys
    obtain ⟨a, zs, rfl, ha⟩ := hrest ys hys
    exact hk a zs ha
  rw [hgreedy, List.flatMap_cons, hnil, List.append_nil]

/-! ### Anchored expressions -/

theorem findSome?_tails_of_start {β : Type*} (input : List α) (k : List α → Option β)
    (hk : ∀ rest, rest.length < input.length → k rest = none) :
    input.tails.findSome? k = k input := by
  have hnone : ∀ xs : List α, xs.length < input.length → xs.tails.findSome? k = none := by
    intro xs
    induction xs with
    | nil =>
        intro h
        simp [hk [] h]
    | cons a xs ih =>
        intro h
        rw [List.tails_cons, List.findSome?_cons, hk _ h]
        exact ih (Nat.lt_of_succ_lt h)
  cases input with
  | nil =>
      rw [List.tails, List.findSome?_cons]
      cases k [] <;> rfl
  | cons a input =>
      rw [List.tails_cons, List.findSome?_cons, hnone input (by simp)]
      cases k (a :: input) <;> rfl

/-- An expression between `^` and `$` matches the whole input or nothing. -/
theorem exec_anchored (rs : List (Regex α)) (input : List α) :
    exec (seqOf (start :: (rs ++ [stop]))) input =
      ((runs input.length (seqOf rs) ⟨input, fun _ => none⟩).filter
        fun s => s.rest.isEmpty).head?.map
        fun run => (input.take (input.length - run.rest.length), run) := by
  have hstart : ∀ rest : List α, runs input.length (seqOf (start :: (rs ++ [stop])))
      ⟨rest, fun _ => none⟩ = if rest.length = input.length then
        (runs input.length (seqOf rs) ⟨rest, fun _ => none⟩).flatMap (runs input.length stop)
      else [] := by
    intro rest
    rw [runs_seqOf_cons, runs]
    split
    · rw [List.flatMap_singleton, runs_seqOf_append]
      rfl
    · rfl
  rw [exec, findSome?_tails_of_start]
  · rw [hstart, if_pos rfl]
    congr 2
    induction runs input.length (seqOf rs) ⟨input, fun _ => none⟩ with
    | nil => rfl
    | cons s ss ih =>
        rw [List.flatMap_cons, List.filter_cons, ih, runs]
        cases s.rest <;> rfl
  · intro rest hlt
    rw [hstart, if_neg (by omega)]
    rfl

/-! ### Runs that use the input up -/

def complete (length : ℕ) (rs : List (Regex α)) (s : Run α) : List (Run α) :=
  (runs length (seqOf rs) s).filter fun s => s.rest.isEmpty

theorem complete_append (length : ℕ) (rs ts : List (Regex α)) (s : Run α) :
    complete length (rs ++ ts) s = (runs length (seqOf rs) s).flatMap (complete length ts) := by
  rw [complete, runs_seqOf_append, List.filter_flatMap]
  rfl

theorem complete_cons (length : ℕ) (r : Regex α) (rs : List (Regex α)) (s : Run α) :
    complete length (r :: rs) s = (runs length r s).flatMap (complete length rs) :=
  complete_append length [r] rs s

@[simp] theorem complete_nil (length : ℕ) (text : List α) (g : ℕ → Option (List α)) :
    complete length [] ⟨text, g⟩ = if text = [] then [⟨text, g⟩] else [] := by
  cases text <;> rfl

@[simp] theorem complete_one_nil (length : ℕ) (p : α → Bool) (rs : List (Regex α))
    (g : ℕ → Option (List α)) : complete length (one p :: rs) ⟨[], g⟩ = [] := by
  rw [complete_cons]
  rfl

@[simp] theorem complete_one_cons (length : ℕ) (p : α → Bool) (rs : List (Regex α)) (a : α)
    (text : List α) (g : ℕ → Option (List α)) :
    complete length (one p :: rs) ⟨a :: text, g⟩ =
      if p a then complete length rs ⟨text, g⟩ else [] := by
  have hruns : runs length (one p) ⟨a :: text, g⟩ = if p a then [⟨text, g⟩] else [] := rfl
  rw [complete_cons, hruns]
  split
  · rw [List.flatMap_singleton]
  · rfl

theorem complete_altOf (length : ℕ) {rs : List (Regex α)} (h : rs ≠ []) (s : Run α) :
    complete length [altOf rs] s = rs.flatMap fun r => complete length [r] s := by
  show (runs length (altOf rs) s).filter _ = _
  rw [runs_altOf length h, List.filter_flatMap]
  rfl

/-- An optional character at the end. -/
theorem complete_opt (length : ℕ) (p : α → Bool) (a : α) (text : List α)
    (g : ℕ → Option (List α)) :
    complete length [opt p] ⟨a :: text, g⟩ = if p a ∧ text = [] then [⟨[], g⟩] else [] := by
  have hruns : runs length (opt p) ⟨a :: text, g⟩ =
      if p a then [⟨text, g⟩, ⟨a :: text, g⟩] else [⟨a :: text, g⟩] := rfl
  rw [complete_cons, hruns]
  by_cases ha : p a = true
  · rw [if_pos ha]
    cases text <;> simp [ha]
  · simp [ha]

/-- A repeated class that what follows cannot start with captures all it can. -/
theorem complete_group_plus (length : ℕ) {p : α → Bool} {rs : List (Regex α)}
    (hrs : ∀ a text g, p a = true → complete length rs ⟨a :: text, g⟩ = []) (index : ℕ)
    (text : List α) (g : ℕ → Option (List α)) :
    complete length (group index (plus p) :: rs) ⟨text, g⟩ =
      if text.takeWhile p = [] then []
      else complete length rs
        ⟨text.dropWhile p, Function.update g index (some (text.takeWhile p))⟩ := by
  have htake : (text.take (text.length - (text.dropWhile p).length)) = text.takeWhile p := by
    have hlen := congrArg List.length (List.takeWhile_append_dropWhile (p := p) (l := text))
    rw [List.length_append] at hlen
    rw [← hlen, Nat.add_sub_cancel]
    exact (List.prefix_iff_eq_take.mp (List.takeWhile_prefix p)).symm
  have hruns : ∀ a tail, text = a :: tail → runs length (plus p) ⟨text, g⟩ =
      if p a then (greedy p tail).map fun rest => ⟨rest, g⟩ else [] := by
    rintro a tail rfl
    rfl
  rw [complete_cons, runs]
  cases htext : text with
  | nil => simp [runs]
  | cons a tail =>
      rw [← htext, hruns a tail htext]
      by_cases ha : p a = true
      · have hdrop : tail.dropWhile p = text.dropWhile p := by simp [htext, ha]
        rw [if_pos ha, List.map_map, List.flatMap_map,
          if_neg (by simp [htext, ha] : text.takeWhile p ≠ [])]
        refine (flatMap_greedy p _ (fun b zs hb => hrs b zs _ hb) tail).trans ?_
        rw [hdrop]
        exact congrArg (fun captured => complete length rs
          ⟨text.dropWhile p, Function.update g index (some captured)⟩) htake
      · rw [if_neg ha, if_pos (by simp [htext, ha])]
        rfl

/-- A repeated class at the end captures everything or nothing. -/
theorem complete_group_star (length : ℕ) {p : α → Bool} {text : List α}
    (hp : ∀ a ∈ text, p a = true) (index : ℕ) (g : ℕ → Option (List α)) :
    complete length [group index (star p)] ⟨text, g⟩ =
      [⟨[], Function.update g index (some text)⟩] := by
  obtain ⟨rest, hgreedy, hrest⟩ := dropWhile_mem_greedy p text
  have hall : text.dropWhile p = [] := List.dropWhile_eq_nil_iff.mpr hp
  have hnone : ∀ zs ∈ rest, zs ≠ [] := by
    intro zs hzs
    obtain ⟨a, tail, rfl, -⟩ := hrest zs hzs
    exact List.cons_ne_nil a tail
  rw [complete_cons, runs, runs, hgreedy, hall, List.map_cons, List.map_cons, List.flatMap_cons,
    complete_nil, if_pos rfl, List.length_nil, Nat.sub_zero, List.take_length]
  have hflat : ((rest.map fun zs => (⟨zs, g⟩ : Run α)).map fun s' => { s' with
      groups := Function.update s'.groups index
        (some (text.take (text.length - s'.rest.length))) }).flatMap (complete length []) = [] := by
    rw [List.flatMap_eq_nil_iff]
    intro s hs
    rw [List.map_map] at hs
    obtain ⟨zs, hzs, rfl⟩ := List.mem_map.mp hs
    exact (complete_nil length zs _).trans (if_neg (hnone zs hzs))
  rw [hflat]
  rfl

end Regex
