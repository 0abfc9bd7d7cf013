import Keala.Lib.OrderedMap

/-!
Trees of keys with a value at every node. A path that leads out of the tree
reads the default value, so updating one path is seen on that path alone.
-/

universe u v

inductive PrefixTree (κ : Type u) (α : Type v)
  | mk (value : α) (children : List (κ × PrefixTree κ α))

namespace PrefixTree

variable {κ : Type u} {α : Type v}

def value : PrefixTree κ α → α | mk a _ => a

def children : PrefixTree κ α → List (κ × PrefixTree κ α) | mk _ c => c

def leaf (a : α) : PrefixTree κ α := mk a []

variable [DecidableEq κ]

def child? (t : PrefixTree κ α) (k : κ) : Option (PrefixTree κ α) := OrderedMap.get? t.children k

/-- The node a path leads to. -/
def at? : PrefixTree κ α → List κ → Option (PrefixTree κ α)
  | t, [] => some t
  | t, k :: path => (t.child? k).bind fun c => c.at? path

/-- Change the value at a path; nodes that are missing get the default `d`. -/
def update (d : α) : PrefixTree κ α → List κ → (α → α) → PrefixTree κ α
  | t, [], f => mk (f t.value) t.children
  | t, k :: path, f =>
      mk t.value (OrderedMap.set t.children k (((t.child? k).getD (leaf d)).update d path f))

def lookup (d : α) (t : PrefixTree κ α) (path : List κ) : α := ((t.at? path).map value).getD d

variable (d : α)

theorem lookup_leaf (path : List κ) : lookup d (leaf d) path = d := by
  cases path with
  | nil => rfl
  | cons k path => rfl

theorem lookup_cons (t : PrefixTree κ α) (k : κ) (path : List κ) :
    lookup d t (k :: path) = lookup d ((t.child? k).getD (leaf d)) path := by
  rw [lookup, at?]
  cases t.child? k with
  | none => exact (lookup_leaf d path).symm
  | some c => rfl

theorem at?_append (t : PrefixTree κ α) (path more : List κ) :
    t.at? (path ++ more) = (t.at? path).bind fun n => n.at? more := by
  induction path generalizing t with
  | nil => rfl
  | cons k path ih =>
      rw [List.cons_append, at?, at?]
      cases t.child? k with
      | none => rfl
      | some c => exact ih c

theorem child?_update_self (t : PrefixTree κ α) (k : κ) (path : List κ) (f : α → α) :
    (t.update d (k :: path) f).child? k =
      some (((t.child? k).getD (leaf d)).update d path f) := OrderedMap.get?_set_self _ _ _

theorem child?_update_ne (t : PrefixTree κ α) {k j : κ} (h : k ≠ j) (path : List κ) (f : α → α) :
    (t.update d (k :: path) f).child? j = t.child? j := OrderedMap.get?_set_ne _ _ h

/-- An update is seen at its path and nowhere else. -/
theorem lookup_update (t : PrefixTree κ α) (path other : List κ) (f : α → α) :
    lookup d (t.update d path f) other =
      if other = path then f (lookup d t path) else lookup d t other := by
  induction path generalizing t other with
  | nil =>
      cases other with
      | nil => rfl
      | cons j other => rfl
  | cons k path ih =>
      cases other with
      | nil => rfl
      | cons j other =>
          rw [lookup_cons, lookup_cons, lookup_cons]
          by_cases h : k = j
          · subst h
            rw [child?_update_self, Option.getD_some, ih]
            simp
          · rw [child?_update_ne d t h, if_neg (by simp [Ne.symm h])]

end PrefixTree
