import Keala.Core.Compose

/-!
The onion that `compose` runs, read off a log. Every handler is watched: when
it starts, when it calls `next()`, what that call gives and how it settles. The
logs of a level have one shape, from which the order of the calls, the guard on
`next()`, the answer and the failures follow.
-/

namespace Keala.Core

open Keala.Js Keala.Http

variable {σ β τ : Type}

/-! ### Watching handlers -/

inductive Mark (β τ : Type)
  | started
  | called
  /-- The end of the `next()` call, as the handler sees it. -/
  | resumed (result : LevelResult τ)
  | settled (settled : Settled β τ)

abbrev Log (β τ : Type) := List (ℕ × Mark β τ)

def besideLog (write : Staged σ → Staged σ) (staged : Staged (Log β τ × σ)) :
    Staged (Log β τ × σ) :=
  let written := write ⟨staged.headersRecord, staged.state.2⟩
  ⟨written.headersRecord, staged.state.1, written.state⟩

def record (i : ℕ) (mark : Mark β τ) (staged : Staged (Log β τ × σ)) : Staged (Log β τ × σ) :=
  { staged with state := (staged.state.1 ++ [(i, mark)], staged.state.2) }

/-- The handler of level `i`, leaving a record of what it does from here on. -/
def Handler.watched (i : ℕ) : Handler σ β τ → Handler (Log β τ × σ) β τ
  | .settle async result =>
      .stage (record i (.settled ⟨async, result⟩)) (.settle async result)
  | .stage write rest => .stage (besideLog write) (rest.watched i)
  | .next rest =>
      .stage (record i .called) (.next fun result =>
        .stage (record i (.resumed result)) ((rest result).watched i))

def watchedFrom : ℕ → List (Handler σ β τ) → List (Handler (Log β τ × σ) β τ)
  | _, [] => []
  | i, handler :: handlers =>
      .stage (record i .started) (handler.watched i) :: watchedFrom (i + 1) handlers

/-- The innermost level: call the tail, which is known by how it ends. -/
def terminal (tail : LevelResult τ) : Level σ β τ := fun c => (c, tail)

/-! ### Erasing the log -/

def Context.unwatched (c : Context (Log β τ × σ) β) : Context σ β where
  method := c.method
  allowedValue := c.allowedValue
  statusValue := c.statusValue
  staged := ⟨c.staged.headersRecord, c.staged.state.2⟩
  res := c.res

/-- A level that does what another does, beside the log. -/
def Level.Erases (watched : Level (Log β τ × σ) β τ) (level : Level σ β τ) : Prop :=
  ∀ c, ((watched c).1.unwatched, (watched c).2) = level c.unwatched

theorem Handler.run_watched {watched : Level (Log β τ × σ) β τ} {level : Level σ β τ}
    (h : Level.Erases watched level) (i : ℕ) (handler : Handler σ β τ) (advanced : Bool)
    (c : Context (Log β τ × σ) β) :
    (((handler.watched i).run watched advanced c).1.unwatched,
        ((handler.watched i).run watched advanced c).2) =
      handler.run level advanced c.unwatched := by
  induction handler generalizing advanced c with
  | settle async result => rfl
  | stage write rest ih => exact ih advanced _
  | next rest ih =>
      cases advanced with
      | true => exact ih _ true _
      | false =>
          let called : Context (Log β τ × σ) β := { c with staged := record i .called c.staged }
          have hlevel : ((watched called).1.unwatched, (watched called).2) = level c.unwatched :=
            h called
          rw [Handler.run, ← hlevel]
          exact ih _ true _

theorem settleLevel_unwatched (c : Context (Log β τ × σ) β) (settled : Settled β τ) :
    ((settleLevel c settled).1.unwatched, (settleLevel c settled).2) =
      settleLevel c.unwatched settled := by
  obtain ⟨async, result⟩ := settled
  cases result with
  | error e => rfl
  | ok value => cases value <;> rfl

/-- Watching changes nothing but the log. -/
theorem compose_erases (i : ℕ) (handlers : List (Handler σ β τ)) (tail : LevelResult τ) :
    Level.Erases (compose (watchedFrom i handlers) (terminal tail))
      (compose handlers (terminal tail)) := by
  induction handlers generalizing i with
  | nil => exact fun c => rfl
  | cons handler handlers ih =>
      intro c
      let started : Context (Log β τ × σ) β := { c with staged := record i .started c.staged }
      have hrun := Handler.run_watched (ih (i + 1)) i handler false started
      show ((settleLevel _ _).1.unwatched, (settleLevel _ _).2) =
        settleLevel (handler.run (compose handlers (terminal tail)) false c.unwatched).1
          (handler.run (compose handlers (terminal tail)) false c.unwatched).2
      rw [settleLevel_unwatched, show handler.run (compose handlers (terminal tail)) false
        c.unwatched = _ from hrun.symm]
      rfl

/-! ### How a level ends -/

def Settled.failure (settled : Settled β τ) : Option (Thrown τ) :=
  match settled.result with
  | .error e => some e
  | .ok .nothing | .ok (.response _) => none
  | .ok .thenable => some promiseReturned
  | .ok (.other typeOf) => some (invalidReturn typeOf)
  | .ok (.throwing e) => some e

def Settled.response (settled : Settled β τ) : Option (Response β) :=
  match settled.result with
  | .ok (.response res) => some res
  | _ => none

def Settled.ends (settled : Settled β τ) : LevelResult τ :=
  match settled.failure, settled.async with
  | some e, true => .promise (.error e)
  | some e, false => .threw e
  | none, true => .promise (.ok ())
  | none, false => .returned

def LevelResult.failure : LevelResult τ → Option (Thrown τ)
  | .returned | .promise (.ok ()) => none
  | .threw e | .promise (.error e) => some e

@[simp] theorem Settled.ends_failure (settled : Settled β τ) :
    settled.ends.failure = settled.failure := by
  rw [Settled.ends]
  cases settled.failure <;> cases settled.async <;> rfl

theorem settleLevel_eq (c : Context σ β) (settled : Settled β τ) :
    settleLevel c settled = ({ c with res := settled.response.or c.res }, settled.ends) := by
  obtain ⟨async, result⟩ := settled
  cases result with
  | error e => cases async <;> rfl
  | ok value => cases value <;> cases async <;> rfl

/-! ### The shape of a log -/

/-- What a handler does after its `next()` call: further calls are refused. -/
inductive Spent (i : ℕ) : Log β τ → Settled β τ → Prop
  | settled (settled : Settled β τ) : Spent i [(i, .settled settled)] settled
  | refused {rest settled} : Spent i rest settled →
      Spent i ((i, .called) :: (i, .resumed (.threw nextTwice)) :: rest) settled

/-- The logs of `n` levels from level `i` on, with the end of level `i`. -/
inductive Onion (tail : LevelResult τ) : ℕ → ℕ → Log β τ → LevelResult τ → Prop
  | tail (i : ℕ) : Onion tail 0 i [] tail
  | ended {n : ℕ} (i : ℕ) (settled : Settled β τ) :
      Onion tail (n + 1) i [(i, .started), (i, .settled settled)] settled.ends
  | passed {n i : ℕ} {segment result rest} {settled : Settled β τ} :
      Onion tail n (i + 1) segment result → Spent i rest settled →
      Onion tail (n + 1) i
        ((i, .started) :: (i, .called) :: (segment ++ (i, .resumed result) :: rest)) settled.ends

/-- The response that a log leaves committed, over the one before it. -/
def committed (log : Log β τ) (res : Option (Response β)) : Option (Response β) :=
  log.foldl (fun res entry => match entry.2 with
    | .settled settled => settled.response.or res
    | _ => res) res

theorem committed_append (front back : Log β τ) (res : Option (Response β)) :
    committed (front ++ back) res = committed back (committed front res) :=
  List.foldl_append

/-- The level that runs from `c` appends `segment` to the log, and commits it. -/
structure Logs (c after : Context (Log β τ × σ) β) (segment : Log β τ) : Prop where
  log : after.staged.state.1 = c.staged.state.1 ++ segment
  res : after.res = committed segment c.res

theorem Logs.refl (c : Context (Log β τ × σ) β) : Logs c c [] :=
  ⟨(List.append_nil _).symm, rfl⟩

theorem Logs.trans {c after last : Context (Log β τ × σ) β} {front back : Log β τ}
    (hfront : Logs c after front) (hback : Logs after last back) :
    Logs c last (front ++ back) where
  log := by rw [hback.log, hfront.log, List.append_assoc]
  res := by rw [hback.res, hfront.res, committed_append]

theorem Logs.record (c : Context (Log β τ × σ) β) (i : ℕ) {mark : Mark β τ}
    (h : ∀ settled, mark ≠ .settled settled) :
    Logs c { c with staged := record i mark c.staged } [(i, mark)] := by
  refine ⟨rfl, ?_⟩
  cases mark with
  | settled settled => exact absurd rfl (h settled)
  | started => rfl
  | called => rfl
  | resumed result => rfl

/-- Writes beside the log are not seen in it. -/
theorem Logs.beside {c after : Context (Log β τ × σ) β} {write : Staged σ → Staged σ}
    {segment : Log β τ}
    (h : Logs { c with staged := besideLog write c.staged } after segment) :
    Logs c after segment := ⟨h.log, h.res⟩

/-- A handler settles the way the last entry of its log says. -/
theorem settle_logs (c : Context (Log β τ × σ) β) (i : ℕ) (settled : Settled β τ) :
    Logs c (settleLevel { c with staged := record i (.settled settled) c.staged } settled).1
      [(i, .settled settled)] := by
  rw [settleLevel_eq]
  exact ⟨rfl, rfl⟩

/-- A handler that has called `next()` leaves a spent log. -/
theorem Handler.run_spent (watched : Level (Log β τ × σ) β τ) (i : ℕ) (handler : Handler σ β τ)
    (c : Context (Log β τ × σ) β) :
    ∃ rest settled, Spent i rest settled ∧
      Logs c (settleLevel ((handler.watched i).run watched true c).1
        ((handler.watched i).run watched true c).2).1 rest ∧
      ((handler.watched i).run watched true c).2 = settled := by
  induction handler generalizing c with
  | settle async result => exact ⟨_, _, .settled ⟨async, result⟩, settle_logs c i _, rfl⟩
  | stage write rest ih =>
      obtain ⟨log, settled, hspent, hlogs, hsettled⟩ :=
        ih { c with staged := besideLog write c.staged }
      exact ⟨log, settled, hspent, hlogs.beside, hsettled⟩
  | next rest ih =>
      let called : Context (Log β τ × σ) β := { c with staged := record i .called c.staged }
      let resumed : Context (Log β τ × σ) β :=
        { called with staged := record i (.resumed (.threw nextTwice)) called.staged }
      obtain ⟨log, settled, hspent, hlogs, hsettled⟩ := ih (.threw nextTwice) resumed
      have hcalled : Logs c called [(i, .called)] := .record c i nofun
      have hresumed : Logs called resumed [(i, .resumed (.threw nextTwice))] :=
        .record called i nofun
      exact ⟨_, settled, hspent.refused, hcalled.trans (hresumed.trans hlogs), hsettled⟩

/-- A handler runs its own part of an onion around what its downstream logs. -/
theorem Handler.run_onion {tail : LevelResult τ} {n i : ℕ} {watched : Level (Log β τ × σ) β τ}
    (hdown : ∀ c, ∃ segment, Onion tail n (i + 1) segment (watched c).2 ∧
      Logs c (watched c).1 segment)
    (handler : Handler σ β τ) (before c : Context (Log β τ × σ) β)
    (hstart : Logs before c [(i, .started)]) :
    ∃ segment, Onion tail (n + 1) i segment ((handler.watched i).run watched false c).2.ends ∧
      Logs before (settleLevel ((handler.watched i).run watched false c).1
        ((handler.watched i).run watched false c).2).1 segment := by
  induction handler generalizing c with
  | settle async result =>
      exact ⟨_, .ended i ⟨async, result⟩, hstart.trans (settle_logs c i _)⟩
  | stage write rest ih => exact ih _ ⟨hstart.log, hstart.res⟩
  | next rest ih =>
      let called : Context (Log β τ × σ) β := { c with staged := record i .called c.staged }
      obtain ⟨segment, honion, hlogs⟩ := hdown called
      let resumed : Context (Log β τ × σ) β :=
        { (watched called).1 with
          staged := record i (.resumed (watched called).2) (watched called).1.staged }
      obtain ⟨log, settled, hspent, hrest, hsettled⟩ :=
        (rest (watched called).2).run_spent watched i resumed
      have hcalled : Logs c called [(i, .called)] := .record c i nofun
      have hresumed : Logs (watched called).1 resumed [(i, .resumed (watched called).2)] :=
        .record _ i nofun
      refine ⟨_, ?_, hstart.trans (hcalled.trans (hlogs.trans (hresumed.trans hrest)))⟩
      have hends := Onion.passed honion hspent
      rw [← hsettled] at hends
      exact hends

/-- Running composed handlers leaves an onion in the log. -/
theorem compose_onion (tail : LevelResult τ) (handlers : List (Handler σ β τ)) (i : ℕ)
    (c : Context (Log β τ × σ) β) :
    ∃ segment,
      Onion tail handlers.length i segment
        (compose (watchedFrom i handlers) (terminal tail) c).2 ∧
      Logs c (compose (watchedFrom i handlers) (terminal tail) c).1 segment := by
  induction handlers generalizing i c with
  | nil => exact ⟨[], .tail i, .refl c⟩
  | cons handler handlers ih =>
      obtain ⟨segment, honion, hlogs⟩ := Handler.run_onion (ih (i + 1)) handler c
        { c with staged := record i .started c.staged } (.record c i nofun)
      refine ⟨segment, ?_, hlogs⟩
      have hends : (compose (watchedFrom i (handler :: handlers)) (terminal tail) c).2 =
          (((handler.watched i).run (compose (watchedFrom (i + 1) handlers) (terminal tail)) false
            { c with staged := record i .started c.staged }).2).ends := by
        show (settleLevel _ _).2 = _
        rw [settleLevel_eq]
        rfl
      rw [hends]
      exact honion

/-! ### Reading an onion -/

theorem Spent.level {i : ℕ} {rest : Log β τ} {settled : Settled β τ} (h : Spent i rest settled)
    {entry : ℕ × Mark β τ} (hmem : entry ∈ rest) : entry.1 = i ∧ entry.2 ≠ .started := by
  induction h with
  | settled settled =>
      rw [List.mem_singleton.mp hmem]
      exact ⟨rfl, nofun⟩
  | refused _ ih =>
      rcases List.mem_cons.mp hmem with rfl | hmem
      · exact ⟨rfl, nofun⟩
      · rcases List.mem_cons.mp hmem with rfl | hmem
        · exact ⟨rfl, nofun⟩
        · exact ih hmem

theorem Spent.settled_mem {i : ℕ} {rest : Log β τ} {settled : Settled β τ}
    (h : Spent i rest settled) : (i, .settled settled) ∈ rest := by
  induction h with
  | settled settled => exact List.mem_singleton_self _
  | refused _ ih => exact List.mem_cons_of_mem _ (List.mem_cons_of_mem _ ih)

theorem Spent.settled_unique {i : ℕ} {rest : Log β τ} {settled other : Settled β τ}
    (h : Spent i rest settled) {j : ℕ} (hmem : (j, Mark.settled other) ∈ rest) :
    other = settled := by
  induction h with
  | settled settled =>
      cases List.mem_singleton.mp hmem
      rfl
  | refused _ ih =>
      rcases List.mem_cons.mp hmem with heq | hmem
      · cases heq
      · rcases List.mem_cons.mp hmem with heq | hmem
        · cases heq
        · exact ih hmem

/-- A call in a spent log is refused on the spot. -/
theorem Spent.refuses {i : ℕ} {rest : Log β τ} {settled : Settled β τ} (h : Spent i rest settled)
    {j p : ℕ} (hp : rest[p]? = some (j, .called)) :
    rest[p + 1]? = some (j, .resumed (.threw nextTwice)) := by
  induction h generalizing p with
  | settled settled =>
      rcases p with _ | p
      · cases hp
      · cases hp
  | refused _ ih =>
      rcases p with _ | _ | p
      · cases hp
        rfl
      · cases hp
      · exact ih hp

theorem Spent.leaves {i : ℕ} {rest : Log β τ} {settled : Settled β τ}
    (h : Spent i rest settled) (res : Option (Response β)) :
    committed rest res = settled.response.or res := by
  induction h with
  | settled settled => rfl
  | refused _ ih => exact ih

variable {tail : LevelResult τ}

theorem Onion.level_le {n i : ℕ} {log : Log β τ} {result : LevelResult τ}
    (h : Onion tail n i log result) {entry : ℕ × Mark β τ} (hmem : entry ∈ log) : i ≤ entry.1 := by
  induction h with
  | tail i => cases hmem
  | ended i settled =>
      rcases List.mem_cons.mp hmem with rfl | hmem
      · exact le_refl i
      · rw [List.mem_singleton.mp hmem]
  | passed honion hspent ih =>
      simp only [List.mem_cons, List.mem_append] at hmem
      rcases hmem with rfl | rfl | hmem | rfl | hmem
      · exact le_refl _
      · exact le_refl _
      · exact le_trans (Nat.le_succ _) (ih hmem)
      · exact le_refl _
      · exact (hspent.level hmem).1.ge

/-- Where the entries of an onion around `segment` stand. -/
theorem getElem?_passed {start call resume entry : ℕ × Mark β τ} {segment rest : Log β τ} {p : ℕ} :
    (start :: call :: (segment ++ resume :: rest))[p]? = some entry ↔
      (p = 0 ∧ start = entry) ∨ (p = 1 ∧ call = entry) ∨
      (∃ q, p = q + 2 ∧ segment[q]? = some entry) ∨
      (p = segment.length + 2 ∧ resume = entry) ∨
      ∃ q, p = segment.length + 3 + q ∧ rest[q]? = some entry := by
  rcases p with _ | _ | p
  · simp
    omega
  · simp
    omega
  · simp only [List.getElem?_cons_succ, List.getElem?_append]
    split
    · rename_i hlt
      constructor
      · exact fun h => .inr (.inr (.inl ⟨p, rfl, h⟩))
      · rintro (⟨h, -⟩ | ⟨h, -⟩ | ⟨q, h, hq⟩ | ⟨h, -⟩ | ⟨q, h, -⟩)
        · omega
        · omega
        · rwa [show p = q by omega]
        · omega
        · omega
    · rename_i hge
      constructor
      · intro h
        rcases hp : p - segment.length with _ | q
        · rw [hp] at h
          exact .inr (.inr (.inr (.inl ⟨by omega, Option.some.inj h⟩)))
        · rw [hp] at h
          exact .inr (.inr (.inr (.inr ⟨q, by omega, h⟩)))
      · rintro (⟨h, -⟩ | ⟨h, -⟩ | ⟨q, h, hq⟩ | ⟨h, rfl⟩ | ⟨q, h, hq⟩)
        · omega
        · omega
        · have hlt : q < segment.length := (List.getElem?_eq_some_iff.mp hq).1
          omega
        · rw [show p - segment.length = 0 by omega]
          rfl
        · rw [show p - segment.length = q + 1 by omega]
          exact hq

/-- A level starts first or right after the `next()` call of the level above. -/
theorem Onion.started {n i : ℕ} {log : Log β τ} {result : LevelResult τ}
    (h : Onion tail n i log result) {j p : ℕ} (hp : log[p]? = some (j, .started)) :
    (p = 0 ∧ j = i) ∨ ∃ q k, p = q + 1 ∧ j = k + 1 ∧ log[q]? = some (k, .called) := by
  induction h generalizing p with
  | tail i => cases hp
  | ended i settled =>
      rcases p with _ | _ | p
      · cases hp
        exact .inl ⟨rfl, rfl⟩
      · cases hp
      · cases hp
  | passed honion hspent ih =>
      rcases getElem?_passed.mp hp with ⟨rfl, heq⟩ | ⟨-, heq⟩ | ⟨q, rfl, hq⟩ | ⟨-, heq⟩ | ⟨q, -, hq⟩
      · cases heq
        exact .inl ⟨rfl, rfl⟩
      · cases heq
      · right
        rcases ih hq with ⟨rfl, rfl⟩ | ⟨r, k, rfl, rfl, hr⟩
        · exact ⟨1, _, rfl, rfl, rfl⟩
        · exact ⟨r + 2, k, rfl, rfl, getElem?_passed.mpr (.inr (.inr (.inl ⟨r, rfl, hr⟩)))⟩
      · cases heq
      · exact absurd rfl (hspent.level (List.mem_of_getElem? hq)).2

/-- A level starts once. -/
theorem Onion.started_unique {n i : ℕ} {log : Log β τ} {result : LevelResult τ}
    (h : Onion tail n i log result) {j p q : ℕ} (hp : log[p]? = some (j, .started))
    (hq : log[q]? = some (j, .started)) : p = q := by
  induction h generalizing p q with
  | tail i => cases hp
  | ended i settled =>
      have hfirst : ∀ r, ([(i, .started), (i, .settled settled)] : Log β τ)[r]? =
          some (j, .started) → r = 0 := by
        intro r hr
        rcases r with _ | _ | r
        · rfl
        · cases hr
        · cases hr
      rw [hfirst p hp, hfirst q hq]
  | @passed n i segment result rest settled honion hspent ih =>
      have hwhere : ∀ r, ((i, Mark.started) :: (i, Mark.called) ::
          (segment ++ (i, Mark.resumed result) :: rest))[r]? = some (j, .started) →
          (r = 0 ∧ j = i) ∨ ∃ r', r = r' + 2 ∧ segment[r']? = some (j, .started) ∧ i < j := by
        intro r hr
        rcases getElem?_passed.mp hr with ⟨rfl, heq⟩ | ⟨-, heq⟩ | ⟨r', rfl, hr'⟩ | ⟨-, heq⟩ |
          ⟨r', -, hr'⟩
        · cases heq
          exact .inl ⟨rfl, rfl⟩
        · cases heq
        · exact .inr ⟨r', rfl, hr', honion.level_le (List.mem_of_getElem? hr')⟩
        · cases heq
        · exact absurd rfl (hspent.level (List.mem_of_getElem? hr')).2
      rcases hwhere p hp with ⟨rfl, hj⟩ | ⟨p', rfl, hp', hlt⟩
      · rcases hwhere q hq with ⟨rfl, -⟩ | ⟨q', -, -, hlt⟩
        · rfl
        · omega
      · rcases hwhere q hq with ⟨-, hj⟩ | ⟨q', rfl, hq', -⟩
        · omega
        · rw [ih hp' hq']

/-- The second `next()` call of a level throws on the spot. -/
theorem Onion.refuses {n i : ℕ} {log : Log β τ} {result : LevelResult τ}
    (h : Onion tail n i log result) {j p q : ℕ} (hp : log[p]? = some (j, .called))
    (hq : log[q]? = some (j, .called)) (hlt : p < q) :
    log[q + 1]? = some (j, .resumed (.threw nextTwice)) := by
  induction h generalizing p q with
  | tail i => cases hp
  | ended i settled =>
      rcases p with _ | _ | p
      · cases hp
      · cases hp
      · cases hp
  | @passed n i segment result rest settled honion hspent ih =>
      have hseg : ∀ r, segment[r]? = some (j, Mark.called) → i < j := fun r hr =>
        honion.level_le (List.mem_of_getElem? hr)
      rcases getElem?_passed.mp hq with ⟨-, heq⟩ | ⟨rfl, heq⟩ | ⟨r, rfl, hr⟩ | ⟨-, heq⟩ |
        ⟨r, rfl, hr⟩
      · cases heq
      · obtain rfl : p = 0 := by omega
        cases hp
      · have hij := hseg r hr
        rcases getElem?_passed.mp hp with ⟨-, heq⟩ | ⟨-, heq⟩ | ⟨r', rfl, hr'⟩ | ⟨-, heq⟩ |
          ⟨r', -, hr'⟩
        · cases heq
        · cases heq
          omega
        · have hnext := ih hr' hr (by omega)
          exact getElem?_passed.mpr (.inr (.inr (.inl ⟨r + 1, rfl, hnext⟩)))
        · cases heq
        · have := (hspent.level (List.mem_of_getElem? hr')).1
          exact absurd this hij.ne'
      · cases heq
      · exact getElem?_passed.mpr
          (.inr (.inr (.inr (.inr ⟨r + 1, by omega, hspent.refuses hr⟩))))

/-- What a log leaves committed is the response of the level that settled last,
else what the levels below committed. -/
theorem Onion.leaves {n i : ℕ} {log : Log β τ} {result : LevelResult τ}
    (h : Onion tail n i log result) (res : Option (Response β)) :
    (∀ j settled answer, (j, Mark.settled settled) ∈ log → settled.response = some answer →
        (∀ k other, (k, Mark.settled other) ∈ log → other.response.isSome → j ≤ k) →
        committed log res = some answer) ∧
      ((∀ j settled, (j, Mark.settled settled) ∈ log → settled.response = none) →
        committed log res = res) := by
  induction h with
  | tail i => exact ⟨nofun, fun _ => rfl⟩
  | ended i settled =>
      -- A level that settles without calling `next()`.
      have hlast : committed [(i, Mark.started), (i, Mark.settled settled)] res =
        settled.response.or res := rfl
      rw [hlast]
      constructor
      · rintro j other answer hmem hanswer -
        simp only [List.mem_cons, List.not_mem_nil, or_false] at hmem
        rcases hmem with heq | heq
        · cases heq
        · cases heq
          rw [hanswer]
          rfl
      · intro hnone
        rw [hnone i settled (by simp)]
        rfl
  | @passed n i segment result rest settled honion hspent ih =>
      -- The segment of the levels below lies between the call and its result.
      have hlast : committed ((i, Mark.started) :: (i, Mark.called) ::
          (segment ++ (i, Mark.resumed result) :: rest)) res =
            settled.response.or (committed segment res) := by
        rw [← hspent.leaves]
        exact committed_append segment _ res
      have hsettled : (i, Mark.settled settled) ∈ (i, .started) :: (i, .called) ::
          (segment ++ (i, .resumed result) :: rest) := by
        simp [hspent.settled_mem]
      have hinner : ∀ j other, (j, Mark.settled other) ∈ segment →
          (j, Mark.settled other) ∈ (i, .started) :: (i, .called) ::
            (segment ++ (i, .resumed result) :: rest) := by
        intro j other hmem
        simp [hmem]
      rw [hlast]
      constructor
      · intro j other answer hmem hanswer hleast
        simp only [List.mem_cons, List.mem_append] at hmem
        rcases hmem with heq | heq | hmem | heq | hmem
        · cases heq
        · cases heq
        · -- The level below answers only where the outer one returned nothing.
          have hnone : settled.response = none := by
            rw [← Option.not_isSome_iff_eq_none]
            intro hsome
            have hle : j ≤ i := hleast i settled hsettled hsome
            have hlt : i < j := honion.level_le hmem
            omega
          rw [hnone]
          exact ih.1 j other answer hmem hanswer fun k last hk hsome =>
            hleast k last (hinner k last hk) hsome
        · cases heq
        · rw [← hspent.settled_unique hmem, hanswer]
          rfl
      · intro hnone
        rw [hnone i settled hsettled]
        exact ih.2 fun j other hmem => hnone j other (hinner j other hmem)

/-- How the end of level `i` is seen above it: as the result of the run at its
top, else as what the `next()` call above gives. -/
def SeenAbove (log : Log β τ) (result : LevelResult τ) (top i : ℕ) (ends : LevelResult τ) : Prop :=
  (i = top ∧ result = ends) ∨ ∃ j, i = j + 1 ∧ (j, .resumed ends) ∈ log

theorem Onion.seen {n i : ℕ} {log : Log β τ} {result : LevelResult τ}
    (h : Onion tail n i log result) {j : ℕ} {settled : Settled β τ}
    (hmem : (j, .settled settled) ∈ log) : SeenAbove log result i j settled.ends := by
  induction h with
  | tail i => cases hmem
  | ended i other =>
      simp only [List.mem_cons, List.not_mem_nil, or_false] at hmem
      rcases hmem with heq | heq
      · cases heq
      · cases heq
        exact .inl ⟨rfl, rfl⟩
  | passed honion hspent ih =>
      simp only [List.mem_cons, List.mem_append] at hmem
      rcases hmem with heq | heq | hmem | heq | hmem
      · cases heq
      · cases heq
      · right
        rcases ih hmem with ⟨rfl, rfl⟩ | ⟨k, rfl, hk⟩
        · exact ⟨_, rfl, by simp⟩
        · exact ⟨k, rfl, by simp [hk]⟩
      · cases heq
      · left
        obtain ⟨hj, -⟩ := hspent.level hmem
        rw [hspent.settled_unique hmem]
        exact ⟨hj, rfl⟩

/-- A level that was resumed with a failure settled later on. -/
theorem Onion.resumed_settles {n i : ℕ} {log : Log β τ} {result : LevelResult τ}
    (h : Onion tail n i log result) {j : ℕ} {mark : Mark β τ} (hmem : (j, mark) ∈ log) :
    ∃ settled, (j, .settled settled) ∈ log := by
  induction h with
  | tail i => cases hmem
  | ended i settled =>
      simp only [List.mem_cons, List.not_mem_nil, or_false] at hmem
      rcases hmem with heq | heq
      · cases heq
        exact ⟨settled, by simp⟩
      · cases heq
        exact ⟨settled, by simp⟩
  | @passed n i segment result rest settled honion hspent ih =>
      have hown : (i, Mark.settled settled) ∈ (i, .started) :: (i, .called) ::
          (segment ++ (i, .resumed result) :: rest) := by
        simp [hspent.settled_mem]
      simp only [List.mem_cons, List.mem_append] at hmem
      rcases hmem with heq | heq | hmem | heq | hmem
      · cases heq
        exact ⟨settled, hown⟩
      · cases heq
        exact ⟨settled, hown⟩
      · obtain ⟨other, hother⟩ := ih hmem
        exact ⟨other, by simp [hother]⟩
      · cases heq
        exact ⟨settled, hown⟩
      · obtain ⟨rfl, -⟩ := hspent.level hmem
        exact ⟨settled, hown⟩

/-- A failing level makes the whole run fail unless a level above it goes on
without an error. -/
theorem Onion.escapes {n top : ℕ} {log : Log β τ} {result : LevelResult τ}
    (h : Onion tail n top log result) {i : ℕ} {settled : Settled β τ}
    (hmem : (i, .settled settled) ∈ log) (hfail : settled.failure ≠ none) :
    result.failure ≠ none ∨
      ∃ j other, j < i ∧ (j, .settled other) ∈ log ∧ other.failure = none := by
  induction i using Nat.strong_induction_on generalizing settled with
  | _ i ih =>
      rcases h.seen hmem with ⟨-, rfl⟩ | ⟨j, rfl, hj⟩
      · left
        rwa [settled.ends_failure]
      · obtain ⟨other, hother⟩ := h.resumed_settles hj
        cases hok : other.failure with
        | none => exact .inr ⟨j, other, Nat.lt_succ_self j, hother, hok⟩
        | some e =>
            rcases ih j (Nat.lt_succ_self j) hother (by simp [hok]) with hescape | hcaught
            · exact .inl hescape
            · obtain ⟨k, last, hlt, hlast⟩ := hcaught
              exact .inr ⟨k, last, hlt.trans (Nat.lt_succ_self j), hlast⟩

/-! ### The semantics of composed handlers -/

/-- A run of composed handlers from an empty log: the log, and what is left of
the context and the result without it. -/
def watchedRun (handlers : List (Handler σ β τ)) (tail : LevelResult τ) (c : Context σ β) :
    Log β τ × Context σ β × LevelResult τ :=
  let watching : Context (Log β τ × σ) β :=
    { c with staged := ⟨c.staged.headersRecord, [], c.staged.state⟩ }
  let run := compose (watchedFrom 0 handlers) (terminal tail) watching
  (run.1.staged.state.1, run.1.unwatched, run.2)

/-- Composed handlers run as an onion. The handler below runs at most once and
only on the `next()` call of the one above; a second call throws on the spot;
the answer is the response of the outermost handler that returned one; a value
that is no response makes its level fail, which the `next()` call above gives
and which the whole run ends with unless a handler above it settles well. -/
theorem compose_runs_as_onion (handlers : List (Handler σ β τ)) (tail : LevelResult τ)
    (c : Context σ β) :
    ∃ (log : Log β τ) (after : Context σ β) (result : LevelResult τ),
      watchedRun handlers tail c = (log, after, result) ∧
      compose handlers (terminal tail) c = (after, result) ∧
      (∀ i p : ℕ, log[p]? = some (i + 1, .started) →
        ∃ q, p = q + 1 ∧ log[q]? = some (i, .called)) ∧
      (∀ i p q : ℕ, log[p]? = some (i, .started) → log[q]? = some (i, .started) → p = q) ∧
      (∀ i p q : ℕ, log[p]? = some (i, .called) → log[q]? = some (i, .called) → p < q →
        log[q + 1]? = some (i, .resumed (.threw nextTwice))) ∧
      (∀ i settled answer, (i, .settled settled) ∈ log → settled.response = some answer →
        (∀ j other, (j, .settled other) ∈ log → other.response.isSome → i ≤ j) →
        after.res = some answer) ∧
      ((∀ i settled, (i, .settled settled) ∈ log → settled.response = none) →
        after.res = c.res) ∧
      (∀ i async value, (i, .settled ⟨async, .ok value⟩) ∈ log → value ≠ .nothing →
        (∀ res, value ≠ .response res) →
        ∃ ends, ends.failure ≠ none ∧ SeenAbove log result 0 i ends ∧
          (result.failure ≠ none ∨
            ∃ j other, j < i ∧ (j, .settled other) ∈ log ∧ other.failure = none)) := by
  let watching : Context (Log β τ × σ) β :=
    { c with staged := ⟨c.staged.headersRecord, [], c.staged.state⟩ }
  obtain ⟨segment, honion, hlogs⟩ := compose_onion tail handlers 0 watching
  have hlog : (compose (watchedFrom 0 handlers) (terminal tail) watching).1.staged.state.1 =
    segment := hlogs.log
  refine ⟨segment, _, _, ?_, (compose_erases 0 handlers tail watching).symm, ?_, ?_, ?_, ?_, ?_, ?_⟩
  · rw [watchedRun, hlog]
  · intro i p hp
    rcases honion.started hp with ⟨-, hzero⟩ | ⟨q, k, rfl, hk, hq⟩
    · cases hzero
    · cases hk
      exact ⟨q, rfl, hq⟩
  · exact fun i p q => honion.started_unique
  · exact fun i p q => honion.refuses
  · intro i settled answer hmem hanswer hleast
    exact hlogs.res.trans ((honion.leaves watching.res).1 i settled answer hmem hanswer hleast)
  · intro hnone
    exact hlogs.res.trans ((honion.leaves watching.res).2 hnone)
  · intro i async value hmem hnothing hresponse
    have hfail : (⟨async, .ok value⟩ : Settled β τ).failure ≠ none := by
      cases value with
      | nothing => exact absurd rfl hnothing
      | response res => exact absurd rfl (hresponse res)
      | thenable => exact Option.some_ne_none _
      | other typeOf => exact Option.some_ne_none _
      | throwing e => exact Option.some_ne_none _
    exact ⟨_, by rwa [Settled.ends_failure], honion.seen hmem, honion.escapes hmem hfail⟩

def catching : Handler Unit JsString Unit := .next fun _ => .settle true (.ok .nothing)

/-- The number that the inner handler returned is an error of its level only:
the chain settles well, and no response is committed. -/
theorem compose_caught_invalid_return :
    let inner : Handler Unit JsString Unit := .settle false (.ok (.other (js "number")))
    let c : Context Unit JsString := ⟨js "GET", none, 404, ⟨none, ()⟩, none⟩
    let run := watchedRun [catching, inner] (.promise (.ok ())) c
    (1, .settled ⟨false, .ok (.other (js "number"))⟩) ∈ run.1 ∧
      run.2.2 = .promise (.ok ()) ∧ run.2.1.res = none := by
  refine ⟨?_, rfl, rfl⟩
  exact List.mem_cons_of_mem _ (List.mem_cons_of_mem _
    (List.mem_cons_of_mem _ (List.mem_cons_self ..)))

end Keala.Core
