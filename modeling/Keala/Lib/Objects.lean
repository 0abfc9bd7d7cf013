import Keala.Lib.OrderedMap

/-!
Objects of a prototype language: own data properties over the properties that
the prototype chain gives, and the programs that read and write them. A read
or a write of an accessor runs a program of the chain on the object itself.
-/

namespace Objects

open OrderedMap

universe u v

variable {κ : Type u} {α : Type v}

inductive Program (κ : Type u) (α : Type v)
  | done (result : α)
  | raise
  | get (key : κ) (next : α → Program κ α)
  | has (key : κ) (next : Bool → Program κ α)
  | set (key : κ) (value : α) (next : Program κ α)
  | define (key : κ) (value : α) (next : Program κ α)
  | remove (key : κ) (next : Program κ α)
  | attempt (body : Program κ α) (next : Option α → Program κ α)

inductive Property (κ : Type u) (α : Type v)
  | data (value : α)
  | accessor (getter : Program κ α) (setter : α → Program κ α)

abbrev Chain (κ : Type u) (α : Type v) := κ → Option (Property κ α)

/-- The own data properties, in the order in which they came. -/
structure Own (κ : Type u) (α : Type v) where
  entries : List (κ × α)
  nodup : (OrderedMap.keys entries).Nodup

namespace Own

def empty : Own κ α := ⟨[], List.nodup_nil⟩

def keys (own : Own κ α) : List κ := OrderedMap.keys own.entries

variable [DecidableEq κ]

def get? (own : Own κ α) (key : κ) : Option α := OrderedMap.get? own.entries key

def set (own : Own κ α) (key : κ) (value : α) : Own κ α :=
  ⟨OrderedMap.set own.entries key value, nodup_set own.nodup key value⟩

def delete (own : Own κ α) (key : κ) : Own κ α :=
  ⟨OrderedMap.delete own.entries key, own.nodup.sublist (keys_delete_sublist own.entries key)⟩

theorem get?_set (own : Own κ α) (key other : κ) (value : α) :
    (own.set key value).get? other = if key = other then some value else own.get? other :=
  OrderedMap.get?_set own.entries key other value

theorem get?_delete (own : Own κ α) (key other : κ) :
    (own.delete key).get? other = if key = other then none else own.get? other := by
  split_ifs with h
  · rw [← h]
    exact get?_delete_self own.nodup key
  · exact get?_delete_ne own.entries h

theorem get?_eq_none_iff (own : Own κ α) (key : κ) : own.get? key = none ↔ key ∉ own.keys :=
  OrderedMap.get?_eq_none_iff own.entries key

end Own

/-- Related results of a first step stay related through related next steps. -/
theorem rel_bind {σ : Type*} {R : σ → σ → Prop} {x y : Option σ} {f g : σ → Option σ}
    (h : Option.Rel R x y) (hnext : ∀ a b, R a b → Option.Rel R (f a) (g b)) :
    Option.Rel R (x.bind f) (y.bind g) := by
  cases h with
  | none => exact .none
  | some hrel => exact hnext _ _ hrel

variable [DecidableEq κ]

def find (chain : Chain κ α) (own : Own κ α) (key : κ) : Option (Property κ α) :=
  ((own.get? key).map .data).or (chain key)

/-- A run gives the result, or none where the program throws; without fuel there is no run. -/
def run (absent : α) (chain : Chain κ α) :
    ℕ → Own κ α → Program κ α → Option (Option α × Own κ α)
  | 0, _, _ => none
  | _ + 1, own, .done result => some (some result, own)
  | _ + 1, own, .raise => some (none, own)
  | fuel + 1, own, .get key next =>
      match find chain own key with
      | none => run absent chain fuel own (next absent)
      | some (.data value) => run absent chain fuel own (next value)
      | some (.accessor getter _) =>
          (run absent chain fuel own getter).bind fun
            | (none, after) => some (none, after)
            | (some value, after) => run absent chain fuel after (next value)
  | fuel + 1, own, .has key next => run absent chain fuel own (next (find chain own key).isSome)
  | fuel + 1, own, .set key value next =>
      match find chain own key with
      | some (.accessor _ setter) =>
          (run absent chain fuel own (setter value)).bind fun
            | (none, after) => some (none, after)
            | (some _, after) => run absent chain fuel after next
      | _ => run absent chain fuel (own.set key value) next
  | fuel + 1, own, .define key value next => run absent chain fuel (own.set key value) next
  | fuel + 1, own, .remove key next => run absent chain fuel (own.delete key) next
  | fuel + 1, own, .attempt body next =>
      (run absent chain fuel own body).bind fun (outcome, after) =>
        run absent chain fuel after (next outcome)

/-! ### Objects that no program tells apart -/

section Alike

variable {absent : α} {chain : Chain κ α}

/-- Two objects over one chain whose keys stand for the same. -/
def Alike (chain : Chain κ α) (a b : Own κ α) : Prop :=
  ∀ key, find chain a key = find chain b key

theorem find_set (own : Own κ α) (key other : κ) (value : α) :
    find chain (own.set key value) other =
      if key = other then some (.data value) else find chain own other := by
  rw [find, Own.get?_set]
  split_ifs with h
  · rfl
  · rfl

theorem find_delete (own : Own κ α) (key other : κ) :
    find chain (own.delete key) other =
      if key = other then chain other else find chain own other := by
  rw [find, Own.get?_delete]
  split_ifs with h
  · rfl
  · rfl

theorem Alike.set {a b : Own κ α} (h : Alike chain a b) (key : κ) (value : α) :
    Alike chain (a.set key value) (b.set key value) := by
  intro other
  rw [find_set, find_set, h other]

theorem Alike.delete {a b : Own κ α} (h : Alike chain a b) (key : κ) :
    Alike chain (a.delete key) (b.delete key) := by
  intro other
  rw [find_delete, find_delete, h other]

def SameOutcome (chain : Chain κ α) (x y : Option α × Own κ α) : Prop :=
  x.1 = y.1 ∧ Alike chain x.2 y.2

/-- No program tells objects apart that are alike. -/
theorem run_alike (fuel : ℕ) (program : Program κ α) {a b : Own κ α} (h : Alike chain a b) :
    Option.Rel (SameOutcome chain) (run absent chain fuel a program)
      (run absent chain fuel b program) := by
  induction fuel generalizing program a b with
  | zero => exact .none
  | succ fuel ih =>
    cases program with
    | done result => exact .some ⟨rfl, h⟩
    | raise => exact .some ⟨rfl, h⟩
    | get key next =>
      rw [run, run, h key]
      cases find chain b key with
      | none => exact ih _ h
      | some property =>
        cases property with
        | data value => exact ih _ h
        | accessor getter setter =>
          apply rel_bind (ih getter h)
          rintro ⟨outcome, after⟩ ⟨_, after'⟩ ⟨rfl, halike⟩
          cases outcome with
          | none => exact .some ⟨rfl, halike⟩
          | some value => exact ih _ halike
    | has key next =>
      rw [run, run, h key]
      exact ih _ h
    | set key value next =>
      rw [run, run, h key]
      cases find chain b key with
      | none => exact ih _ (h.set key value)
      | some property =>
        cases property with
        | data _ => exact ih _ (h.set key value)
        | accessor getter setter =>
          apply rel_bind (ih (setter value) h)
          rintro ⟨outcome, after⟩ ⟨_, after'⟩ ⟨rfl, halike⟩
          cases outcome with
          | none => exact .some ⟨rfl, halike⟩
          | some _ => exact ih _ halike
    | define key value next => exact ih _ (h.set key value)
    | remove key next => exact ih _ (h.delete key)
    | attempt body next =>
      apply rel_bind (ih body h)
      rintro ⟨outcome, after⟩ ⟨_, after'⟩ ⟨rfl, halike⟩
      exact ih _ halike

theorem outcome_eq_of_rel {x y : Option (Option α × Own κ α)}
    (h : Option.Rel (SameOutcome chain) x y) : x.map Prod.fst = y.map Prod.fst := by
  cases h with
  | none => rfl
  | some hrel => exact congrArg some hrel.1

end Alike

/-! ### Keys that a program leaves alone -/

section Spares

variable {absent : α} {chain : Chain κ α} {kept : κ → Prop}

/-- No write of the program, whatever it reads, is to a kept key. -/
def Program.Spares (kept : κ → Prop) : Program κ α → Prop
  | .done _ => True
  | .raise => True
  | .get _ next => ∀ value, (next value).Spares kept
  | .has _ next => ∀ found, (next found).Spares kept
  | .set key _ next => ¬kept key ∧ next.Spares kept
  | .define key _ next => ¬kept key ∧ next.Spares kept
  | .remove key next => ¬kept key ∧ next.Spares kept
  | .attempt body next => body.Spares kept ∧ ∀ outcome, (next outcome).Spares kept

def Property.Spares (kept : κ → Prop) : Property κ α → Prop
  | .data _ => True
  | .accessor getter setter => getter.Spares kept ∧ ∀ value, (setter value).Spares kept

def ChainSpares (kept : κ → Prop) (chain : Chain κ α) : Prop :=
  ∀ key, ∀ property ∈ chain key, property.Spares kept

theorem spares_of_find {own : Own κ α} {key : κ} {property : Property κ α}
    (h : ChainSpares kept chain) (hfind : find chain own key = some property) :
    property.Spares kept := by
  rw [find] at hfind
  cases hown : own.get? key with
  | none =>
    rw [hown] at hfind
    exact h key property hfind
  | some value =>
    rw [hown] at hfind
    cases hfind
    trivial

/-- What it spares is after every run what it was. -/
theorem run_spares (hchain : ChainSpares kept chain) (fuel : ℕ) {program : Program κ α}
    (hprogram : program.Spares kept) {own after : Own κ α} {outcome : Option α}
    (h : run absent chain fuel own program = some (outcome, after)) {key : κ} (hkey : kept key) :
    after.get? key = own.get? key := by
  induction fuel generalizing program own outcome after with
  | zero => cases h
  | succ fuel ih =>
    have hset : ∀ {other value}, ¬kept other → (own.set other value).get? key = own.get? key := by
      intro other value hother
      rw [Own.get?_set, if_neg]
      rintro rfl
      exact hother hkey
    cases program with
    | done result => cases h; rfl
    | raise => cases h; rfl
    | get other next =>
      rw [run] at h
      cases hfind : find chain own other with
      | none =>
        rw [hfind] at h
        exact ih (hprogram _) h
      | some property =>
        rw [hfind] at h
        cases property with
        | data value => exact ih (hprogram _) h
        | accessor getter setter =>
          -- A getter may write, but spares the kept keys like the program.
          have hgetter := (spares_of_find hchain hfind).1
          obtain ⟨⟨got, middle⟩, hrun, hnext⟩ := Option.bind_eq_some_iff.mp h
          cases got with
          | none =>
            cases hnext
            exact ih hgetter hrun
          | some value => exact (ih (hprogram value) hnext).trans (ih hgetter hrun)
    | has other next => exact ih (hprogram _) h
    | set other value next =>
      rw [run] at h
      cases hfind : find chain own other with
      | none =>
        rw [hfind] at h
        exact (ih hprogram.2 h).trans (hset hprogram.1)
      | some property =>
        rw [hfind] at h
        cases property with
        | data _ => exact (ih hprogram.2 h).trans (hset hprogram.1)
        | accessor getter setter =>
          -- The write goes to a setter and not to the object.
          have hsetter := (spares_of_find hchain hfind).2 value
          obtain ⟨⟨got, middle⟩, hrun, hnext⟩ := Option.bind_eq_some_iff.mp h
          cases got with
          | none =>
            cases hnext
            exact ih hsetter hrun
          | some _ => exact (ih hprogram.2 hnext).trans (ih hsetter hrun)
    | define other value next => exact (ih hprogram.2 h).trans (hset hprogram.1)
    | remove other next =>
      have hdelete : (own.delete other).get? key = own.get? key := by
        rw [Own.get?_delete, if_neg]
        rintro rfl
        exact hprogram.1 hkey
      exact (ih hprogram.2 h).trans hdelete
    | attempt body next =>
      obtain ⟨⟨got, middle⟩, hrun, hnext⟩ := Option.bind_eq_some_iff.mp h
      exact (ih (hprogram.2 got) hnext).trans (ih hprogram.1 hrun)

end Spares

end Objects
