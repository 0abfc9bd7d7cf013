import Mathlib.Data.List.Induction
import Mathlib.Order.Lattice

/-!
Fixed windows over a sequence of times: a window opens at the first time after
the previous one has lapsed, and takes what follows before its end.
-/

namespace FixedWindow

universe u

variable {τ : Type u}

structure Window (τ : Type u) where
  start : τ
  later : List τ

def Window.times (w : Window τ) : List τ := w.start :: w.later

variable [LinearOrder τ]

/-- One more time joins the last window or opens the next. A window that starts
at `t` ends at `close t`. -/
def extend (close : τ → τ) (ws : List (Window τ)) (t : τ) : List (Window τ) :=
  match ws.getLast? with
  | some w =>
      if t < close w.start then ws.dropLast ++ [{ w with later := w.later ++ [t] }]
      else ws ++ [⟨t, []⟩]
  | none => [⟨t, []⟩]

def windows (close : τ → τ) (ts : List τ) : List (Window τ) := ts.foldl (extend close) []

theorem windows_concat (close : τ → τ) (ts : List τ) (t : τ) :
    windows close (ts ++ [t]) = extend close (windows close ts) t := by
  rw [windows, List.foldl_append]
  rfl

structure Partitions (close : τ → τ) (ts : List τ) (ws : List (Window τ)) : Prop where
  times : ws.flatMap Window.times = ts
  within : ∀ w ∈ ws, ∀ t ∈ w.later, w.start ≤ t ∧ t < close w.start
  /-- No window opens before the previous one has lapsed. -/
  apart : ws.Pairwise fun v w => close v.start ≤ w.start

variable {close : τ → τ} {t : τ} {ts : List τ} {ws : List (Window τ)}

theorem Partitions.open_next (h : Partitions close ts ws)
    (hlapsed : ∀ w ∈ ws, close w.start ≤ t) : Partitions close (ts ++ [t]) (ws ++ [⟨t, []⟩]) := by
  refine ⟨?_, ?_, ?_⟩
  · rw [List.flatMap_append, h.times]
    rfl
  · intro w hw
    rcases List.mem_append.mp hw with hw | hw
    · exact h.within w hw
    · rw [List.mem_singleton] at hw
      subst hw
      exact fun t' ht' => absurd ht' List.not_mem_nil
  · rw [List.pairwise_append]
    refine ⟨h.apart, List.pairwise_singleton _ _, ?_⟩
    intro v hv w hw
    rw [List.mem_singleton] at hw
    subst hw
    exact hlapsed v hv

theorem Partitions.join_last {w : Window τ} (h : Partitions close ts (ws ++ [w]))
    (hstart : w.start ≤ t) (hwithin : t < close w.start) :
    Partitions close (ts ++ [t]) (ws ++ [{ w with later := w.later ++ [t] }]) := by
  have happart := h.apart
  rw [List.pairwise_append] at happart
  refine ⟨?_, ?_, ?_⟩
  · have htimes := h.times
    rw [List.flatMap_append, List.flatMap_singleton] at htimes ⊢
    rw [← htimes, List.append_assoc]
    rfl
  · intro v hv t' ht'
    rcases List.mem_append.mp hv with hv | hv
    · exact h.within v (List.mem_append_left _ hv) t' ht'
    · rw [List.mem_singleton] at hv
      subst hv
      rcases List.mem_append.mp ht' with ht' | ht'
      · exact h.within w (List.mem_append_right _ List.mem_cons_self) t' ht'
      · rw [List.mem_singleton] at ht'
        subst ht'
        exact ⟨hstart, hwithin⟩
  · rw [List.pairwise_append]
    refine ⟨happart.1, List.pairwise_singleton _ _, ?_⟩
    intro v hv v' hv'
    rw [List.mem_singleton] at hv'
    subst hv'
    exact happart.2.2 v hv w List.mem_cons_self

/-- By induction on the times, from the last one back. -/
theorem windows_partitions (close : τ → τ) {ts : List τ} (hts : ts.Pairwise (· ≤ ·)) :
    Partitions close ts (windows close ts) := by
  induction ts using List.reverseRecOn with
  | nil => exact ⟨rfl, fun w hw => absurd hw List.not_mem_nil, List.Pairwise.nil⟩
  | append_singleton ts t ih =>
      obtain ⟨hfront, -, hlast⟩ := List.pairwise_append.mp hts
      have h := ih hfront
      have hbound : ∀ t' ∈ ts, t' ≤ t := fun t' ht' => hlast t' ht' t List.mem_cons_self
      have hstarts : ∀ w ∈ windows close ts, w.start ≤ t := by
        intro w hw
        apply hbound
        rw [← h.times]
        exact List.mem_flatMap.mpr ⟨w, hw, List.mem_cons_self⟩
      rw [windows_concat, extend]
      cases hcases : (windows close ts).getLast? with
      | none =>
          rw [List.getLast?_eq_none_iff] at hcases
          rw [hcases] at h
          exact h.open_next fun w hw => absurd hw List.not_mem_nil
      | some w =>
          obtain ⟨ws, hws⟩ := List.getLast?_eq_some_iff.mp hcases
          dsimp only
          split
          · next hwithin =>
              rw [hws] at h hstarts ⊢
              rw [List.dropLast_concat]
              exact h.join_last (hstarts w (List.mem_append_right _ List.mem_cons_self)) hwithin
          · next hlapsed =>
              refine h.open_next ?_
              intro v hv
              have happart := h.apart
              rw [hws] at hv happart
              rcases List.mem_append.mp hv with hv | hv
              · -- An earlier window lapsed before the last one opened.
                have hnext := (List.pairwise_append.mp happart).2.2 v hv w List.mem_cons_self
                exact hnext.trans (hstarts w (hws ▸ List.mem_append_right _ List.mem_cons_self))
              · rw [List.mem_singleton] at hv
                subst hv
                exact not_lt.mp hlapsed

end FixedWindow
