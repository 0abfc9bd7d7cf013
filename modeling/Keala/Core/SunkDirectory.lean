import Keala.Js.Digits
import Keala.Lib.Except

/-!
The audit of a directory that the native routing table serves without the
checks of a request. It lets a tree through exactly when the handler that
mirrors the route would answer for each of its paths.
-/

namespace Keala.Core

open Js

/-! ### Trees -/

mutual

inductive Entry
  | file
  | symlink
  | dir (entries : Entries)
  /-- A directory that cannot be read, with the code of the error. -/
  | locked (code : JsString)

/-- The entries of a directory, in the order in which it lists them. -/
inductive Entries
  | nil
  | cons (name : JsString) (entry : Entry) (rest : Entries)

end

namespace Entry

def isDirectory : Entry → Bool
  | .dir _ | .locked _ => true
  | .file | .symlink => false

def isSymbolicLink : Entry → Bool
  | .symlink => true
  | _ => false

/-- `readdirSync` does not throw. -/
def readable : Entry → Bool
  | .dir _ => true
  | _ => false

end Entry

mutual

def Entry.count : Entry → ℕ
  | .dir entries => entries.count
  | _ => 0

def Entries.count : Entries → ℕ
  | .nil => 0
  | .cons _ entry rest => 1 + entry.count + rest.count

end

/-! ### The audit -/

def MAX_SCAN_ENTRIES : ℕ := 10000

def MAX_SCAN_DEPTH : ℕ := 64

structure Scan where
  violations : List JsString := []
  scanned : ℕ := 0
  overBudget : Bool := false

def Scan.violate (scan : Scan) (violation : JsString) : Scan :=
  { scan with violations := scan.violations ++ [violation] }

/-- A name that the mirror declines under its default policy. -/
def isDotfile (name : JsString) : Bool := (js ".").isPrefixOf name && name ≠ js ".well-known"

def cannotScan (sinkPath current code : JsString) : JsString :=
  js "sink " ++ sinkPath ++ js ": cannot scan " ++ current ++ js " (" ++ code ++
    js (") — the native {dir} route refuses to serve a tree it cannot verify. " ++
      "Create the directory (or fix its permissions) and retry, " ++
      "or serve explicit content with a Response/handler sink instead.")

def exceedsBudget (sinkPath dir : JsString) : JsString :=
  js "sink " ++ sinkPath ++ js ": directory " ++ dir ++
    js " exceeds the native-table scan budget (" ++ decimalText MAX_SCAN_ENTRIES ++
    js (" entries) — split the tree into smaller sinks, " ++
      "or serve explicit content with a Response/handler sink instead.")

def cannotServe (sinkPath : JsString) (violations : List JsString) : JsString :=
  let shown := (js "; ").intercalate (violations.take 5)
  let more :=
    if 5 < violations.length then js " (+" ++ decimalText (violations.length - 5) ++ js " more)"
    else []
  js "sink " ++ sinkPath ++ js ": the native {dir} route cannot serve this tree — " ++ shown ++
    more ++
    js (". The JS mirror declines dotfiles and symlinks, but Bun's native table would serve " ++
      "them as plain 200s. Remove the offending entries and retry, " ++
      "or serve explicit content with a Response/handler sink instead.")

def tooDeep (sep current : JsString) : JsString :=
  current ++ sep ++ js "… (deeper than " ++ decimalText MAX_SCAN_DEPTH ++ js ")"

mutual

/-- `walk`: a thrown error ends the audit. -/
def walk (sinkPath sep : JsString) : Entry → JsString → ℕ → Scan → Except JsString Scan
  | .dir entries, current, depth, scan =>
      if MAX_SCAN_DEPTH < depth then .ok (scan.violate (tooDeep sep current))
      else walkEntries sinkPath sep entries current depth scan
  | .locked code, current, depth, scan =>
      if MAX_SCAN_DEPTH < depth then .ok (scan.violate (tooDeep sep current))
      else .error (cannotScan sinkPath current code)
  | .file, current, depth, scan =>
      if MAX_SCAN_DEPTH < depth then .ok (scan.violate (tooDeep sep current))
      else .error (cannotScan sinkPath current (js "ENOTDIR"))
  | .symlink, current, depth, scan =>
      if MAX_SCAN_DEPTH < depth then .ok (scan.violate (tooDeep sep current))
      else .error (cannotScan sinkPath current (js "ENOENT"))

/-- The loop of `walk`. A walk that runs out of its budget ends, and the loops
around it end at their next entry. -/
def walkEntries (sinkPath sep : JsString) :
    Entries → JsString → ℕ → Scan → Except JsString Scan
  | .nil, _, _, scan => .ok scan
  | .cons name entry rest, current, depth, scan =>
      let scan := { scan with scanned := scan.scanned + 1 }
      if MAX_SCAN_ENTRIES < scan.scanned then .ok { scan with overBudget := true }
      else
        let full := current ++ sep ++ name
        let visited :=
          if entry.isSymbolicLink then .ok (scan.violate (full ++ js " (symlink)"))
          else if isDotfile name then .ok (scan.violate (full ++ js " (dotfile)"))
          else if entry.isDirectory then walk sinkPath sep entry full (depth + 1) scan
          else .ok scan
        visited.bind (walkEntries sinkPath sep rest current depth)

end

/-- `root` is `resolve(dir)`, and `tree` what is found there. -/
def assertSunkDirSafe (sinkPath sep dir root : JsString) (tree : Entry) : Except JsString Unit :=
  match walk sinkPath sep tree root 0 {} with
  | .error message => .error message
  | .ok scan =>
      if scan.overBudget then .error (exceedsBudget sinkPath dir)
      else if scan.violations ≠ [] then .error (cannotServe sinkPath scan.violations)
      else .ok ()

/-! ### The mirror -/

def Entries.lookup (name : JsString) : Entries → Option Entry
  | .nil => none
  | .cons other entry rest => if other = name then some entry else rest.lookup name

/-- Whether the walk of `findSymlink` down a path meets a link; a component that
is missing is none. -/
def findSymlink : Entry → List JsString → Bool
  | _, [] => false
  | .dir entries, name :: path =>
      match entries.lookup name with
      | none => false
      | some entry => entry.isSymbolicLink || findSymlink entry path
  | _, _ :: _ => false

/-- `serveStatic`, as the sink mounts it, neither declines the path nor forbids it. -/
def mirrorServes (tree : Entry) (segments : List JsString) : Bool :=
  !segments.any isDotfile && !findSymlink tree segments

/-! ### The paths of a tree -/

/-- The entry that a path leads to; the path of the root is empty. -/
inductive Within : Entry → List JsString → Entry → Prop
  | root (entry : Entry) : Within entry [] entry
  | child {entries : Entries} {name : JsString} {entry found : Entry} {path : List JsString}
      (hname : entries.lookup name = some entry) (hpath : Within entry path found) :
      Within (.dir entries) (name :: path) found

mutual

def Entry.Distinct : Entry → Prop
  | .dir entries => entries.Distinct
  | _ => True

def Entries.Distinct : Entries → Prop
  | .nil => True
  | .cons name entry rest => rest.lookup name = none ∧ entry.Distinct ∧ rest.Distinct

end

/-! ### What the audit lets through -/

mutual

/-- A directory at a depth, with nothing below it that the audit refuses. -/
def Entry.Clean : Entry → ℕ → Prop
  | .dir entries, depth => depth ≤ MAX_SCAN_DEPTH ∧ entries.Clean depth
  | _, _ => False

def Entries.Clean : Entries → ℕ → Prop
  | .nil, _ => True
  | .cons name entry rest, depth =>
      isDotfile name = false ∧ entry.isSymbolicLink = false ∧
        (entry.isDirectory = true → entry.Clean (depth + 1)) ∧ rest.Clean depth

end

structure Scan.Fine (scan : Scan) : Prop where
  violations : scan.violations = []
  overBudget : scan.overBudget = false

theorem Scan.not_fine_violate (scan : Scan) (violation : JsString) :
    ¬ (scan.violate violation).Fine := fun h => by
  have hnil := h.violations
  rw [Scan.violate, List.append_eq_nil_iff] at hnil
  exact List.cons_ne_nil _ _ hnil.2

/-- What a part of the walk that found nothing has done. -/
structure Passed (scan after : Scan) (entries : ℕ) : Prop where
  before : scan.Fine
  scanned : after.scanned = scan.scanned + entries
  budget : scan.scanned ≤ MAX_SCAN_ENTRIES → after.scanned ≤ MAX_SCAN_ENTRIES

theorem Entry.count_of_not_directory {entry : Entry} (h : ¬ entry.isDirectory = true) :
    entry.count = 0 := by
  cases entry with
  | dir entries => exact absurd rfl h
  | locked code => rfl
  | file => rfl
  | symlink => rfl

variable {sinkPath sep : JsString}

mutual

/-- A walk that found nothing has seen all of a clean tree. -/
theorem walk_passed (entry : Entry) (current : JsString) (depth : ℕ) {scan after : Scan}
    (h : walk sinkPath sep entry current depth scan = .ok after) (hfine : after.Fine) :
    entry.Clean depth ∧ Passed scan after entry.count := by
  have hdeep : ∀ {violation}, (.ok (scan.violate violation) : Except JsString Scan) = .ok after →
      False := fun heq => by
    cases heq
    exact scan.not_fine_violate _ hfine
  cases entry with
  | dir entries =>
      rw [walk] at h
      split at h
      · exact (hdeep h).elim
      · next hdepth =>
        obtain ⟨hclean, hpassed⟩ := walkEntries_passed entries current depth h hfine
        exact ⟨⟨not_lt.mp hdepth, hclean⟩, hpassed⟩
  | locked code =>
      rw [walk] at h
      split at h
      · exact (hdeep h).elim
      · cases h
  | file =>
      rw [walk] at h
      split at h
      · exact (hdeep h).elim
      · cases h
  | symlink =>
      rw [walk] at h
      split at h
      · exact (hdeep h).elim
      · cases h

theorem walkEntries_passed (entries : Entries) (current : JsString) (depth : ℕ)
    {scan after : Scan} (h : walkEntries sinkPath sep entries current depth scan = .ok after)
    (hfine : after.Fine) : entries.Clean depth ∧ Passed scan after entries.count := by
  cases entries with
  | nil =>
      rw [walkEntries] at h
      cases h
      exact ⟨trivial, hfine, rfl, id⟩
  | cons name entry rest =>
      rw [walkEntries] at h
      dsimp only at h
      split at h
      · cases h
        cases hfine.overBudget
      · next hwithin =>
        obtain ⟨mid, hvisited, hrest⟩ := Except.ok_of_bind h
        obtain ⟨hrestclean, hafter⟩ := walkEntries_passed rest current depth hrest hfine
        have hmid := hafter.before
        rw [Entries.count, Entries.Clean]
        split at hvisited
        · cases hvisited
          exact absurd hmid (Scan.not_fine_violate _ _)
        · next hlink =>
          split at hvisited
          · cases hvisited
            exact absurd hmid (Scan.not_fine_violate _ _)
          · next hname =>
            rw [Bool.not_eq_true] at hlink hname
            split at hvisited
            · next hdir =>
              obtain ⟨hclean, hentry⟩ := walk_passed entry _ (depth + 1) hvisited hmid
              refine ⟨⟨hname, hlink, fun _ => hclean, hrestclean⟩,
                ⟨hentry.before.violations, hentry.before.overBudget⟩, ?_, fun _ => ?_⟩
              · have hscanned := hentry.scanned
                rw [hafter.scanned, hscanned]
                dsimp only
                omega
              · exact hafter.budget (hentry.budget (not_lt.mp hwithin))
            · next hfile =>
              cases hvisited
              have hcount := Entry.count_of_not_directory hfile
              refine ⟨⟨hname, hlink, fun hdir => absurd hdir hfile, hrestclean⟩,
                ⟨hmid.violations, hmid.overBudget⟩, ?_, fun _ => ?_⟩
              · rw [hafter.scanned, hcount]
                dsimp only
                omega
              · exact hafter.budget (not_lt.mp hwithin)

end

mutual

/-- A clean tree within the budget is walked to its end. -/
theorem walk_clean (entry : Entry) (current : JsString) (depth : ℕ) (scan : Scan)
    (hclean : entry.Clean depth) (hbudget : scan.scanned + entry.count ≤ MAX_SCAN_ENTRIES) :
    walk sinkPath sep entry current depth scan =
      .ok { scan with scanned := scan.scanned + entry.count } := by
  cases entry with
  | dir entries =>
      rw [walk, if_neg (not_lt.mpr hclean.1)]
      exact walkEntries_clean entries current depth scan hclean.2 hbudget
  | locked code => exact hclean.elim
  | file => exact hclean.elim
  | symlink => exact hclean.elim

theorem walkEntries_clean (entries : Entries) (current : JsString) (depth : ℕ) (scan : Scan)
    (hclean : entries.Clean depth) (hbudget : scan.scanned + entries.count ≤ MAX_SCAN_ENTRIES) :
    walkEntries sinkPath sep entries current depth scan =
      .ok { scan with scanned := scan.scanned + entries.count } := by
  cases entries with
  | nil => rfl
  | cons name entry rest =>
      obtain ⟨hname, hlink, hdir, hrest⟩ := hclean
      rw [Entries.count] at hbudget ⊢
      rw [walkEntries]
      dsimp only
      rw [if_neg (by omega), hlink, if_neg Bool.false_ne_true, hname, if_neg Bool.false_ne_true]
      have hvisited : (if entry.isDirectory = true then
          walk sinkPath sep entry (current ++ sep ++ name) (depth + 1)
            { scan with scanned := scan.scanned + 1 }
          else .ok { scan with scanned := scan.scanned + 1 }) =
          .ok { scan with scanned := scan.scanned + 1 + entry.count } := by
        split
        · next hisdir =>
          apply walk_clean entry _ (depth + 1) _ (hdir hisdir)
          dsimp only
          omega
        · next hfile => rw [Entry.count_of_not_directory hfile, Nat.add_zero]
      rw [hvisited]
      refine Eq.trans (walkEntries_clean rest current depth
        { scan with scanned := scan.scanned + 1 + entry.count } hrest (by dsimp only; omega)) ?_
      rw [show scan.scanned + (1 + entry.count + rest.count) =
        scan.scanned + 1 + entry.count + rest.count by omega]

end

theorem assertSunkDirSafe_iff (dir root : JsString) (tree : Entry) :
    assertSunkDirSafe sinkPath sep dir root tree = .ok () ↔
      tree.Clean 0 ∧ tree.count ≤ MAX_SCAN_ENTRIES := by
  constructor
  · intro h
    rw [assertSunkDirSafe] at h
    split at h
    · cases h
    · next scan hwalk =>
      split at h
      · cases h
      · next hbudget =>
        split at h
        · cases h
        · next hviolations =>
          have hfine : scan.Fine :=
            ⟨not_not.mp hviolations, (Bool.not_eq_true _).mp hbudget⟩
          obtain ⟨hclean, hpassed⟩ := walk_passed tree root 0 hwalk hfine
          have hscanned := hpassed.scanned
          have hwithin := hpassed.budget (Nat.zero_le _)
          refine ⟨hclean, ?_⟩
          dsimp only at hscanned
          omega
  · rintro ⟨hclean, hbudget⟩
    rw [assertSunkDirSafe, walk_clean tree root 0 {} hclean (by rw [Nat.zero_add]; exact hbudget)]
    rfl

/-! ### The audit and the mirror -/

/-- Every path of a tree can be read, lies within the depth, and is served by the mirror. -/
def AllServed (tree : Entry) (depth : ℕ) : Prop :=
  ∀ path found, Within tree path found →
    (found.isDirectory = true → found.readable = true ∧ depth + path.length ≤ MAX_SCAN_DEPTH) ∧
      mirrorServes tree path = true

theorem mirrorServes_iff {tree : Entry} {path : List JsString} :
    mirrorServes tree path = true ↔
      path.any isDotfile = false ∧ findSymlink tree path = false := by
  rw [mirrorServes, Bool.and_eq_true, Bool.not_eq_true', Bool.not_eq_true']

theorem mirrorServes_child {entries : Entries} {name : JsString} {entry : Entry}
    (hname : entries.lookup name = some entry) (path : List JsString) :
    mirrorServes (.dir entries) (name :: path) = true ↔
      isDotfile name = false ∧ entry.isSymbolicLink = false ∧ mirrorServes entry path = true := by
  rw [mirrorServes_iff, mirrorServes_iff, List.any_cons, Bool.or_eq_false_iff, findSymlink, hname,
    Bool.or_eq_false_iff]
  tauto

structure Seen (name : JsString) (entry : Entry) (depth : ℕ) : Prop where
  name : isDotfile name = false
  link : entry.isSymbolicLink = false
  clean : entry.isDirectory = true → entry.Clean depth

theorem Entries.Clean.seen {entries : Entries} {depth : ℕ} (h : entries.Clean depth)
    {name : JsString} {entry : Entry} (hname : entries.lookup name = some entry) :
    Seen name entry (depth + 1) := by
  cases entries with
  | nil => cases hname
  | cons other first rest =>
      obtain ⟨hother, hlink, hclean, hrest⟩ := h
      rw [Entries.lookup] at hname
      split at hname
      · next heq =>
        cases hname
        exact ⟨heq ▸ hother, hlink, hclean⟩
      · exact Entries.Clean.seen hrest hname

/-- From the audit to the mirror, along a path. -/
theorem served_of_clean {tree found : Entry} {path : List JsString}
    (hpath : Within tree path found) {depth : ℕ}
    (hclean : tree.isDirectory = true → tree.Clean depth) :
    (found.isDirectory = true → found.readable = true ∧ depth + path.length ≤ MAX_SCAN_DEPTH) ∧
      mirrorServes tree path = true := by
  induction hpath generalizing depth with
  | root entry =>
      refine ⟨fun hdir => ?_, ?_⟩
      · have hseen := hclean hdir
        cases entry with
        | dir entries => exact ⟨rfl, hseen.1⟩
        | locked code => exact hseen.elim
        | file => exact hseen.elim
        | symlink => exact hseen.elim
      · cases entry <;> rfl
  | @child entries name entry found path hname hpath ih =>
      have hseen := (hclean rfl).2.seen hname
      obtain ⟨hfound, hserved⟩ := ih hseen.clean
      refine ⟨fun hdir => ?_, ?_⟩
      · obtain ⟨hreadable, hdepth⟩ := hfound hdir
        refine ⟨hreadable, ?_⟩
        rw [List.length_cons]
        omega
      · rw [mirrorServes_child hname]
        exact ⟨hseen.name, hseen.link, hserved⟩

theorem AllServed.child {entries : Entries} {depth : ℕ} (h : AllServed (.dir entries) depth)
    {name : JsString} {entry : Entry} (hname : entries.lookup name = some entry) :
    isDotfile name = false ∧ entry.isSymbolicLink = false ∧ AllServed entry (depth + 1) := by
  have hself := (h [name] entry (.child hname (.root entry))).2
  rw [mirrorServes_child hname] at hself
  refine ⟨hself.1, hself.2.1, fun path found hpath => ?_⟩
  obtain ⟨hfound, hserved⟩ := h (name :: path) found (.child hname hpath)
  rw [mirrorServes_child hname] at hserved
  refine ⟨fun hdir => ?_, hserved.2.2⟩
  obtain ⟨hreadable, hdepth⟩ := hfound hdir
  rw [List.length_cons] at hdepth
  exact ⟨hreadable, by omega⟩

mutual

/-- From the mirror to the audit: a directory all of whose paths are served is clean. -/
theorem Entry.clean_of_served (tree : Entry) (hdistinct : tree.Distinct) {depth : ℕ}
    (hdir : tree.isDirectory = true) (h : AllServed tree depth) : tree.Clean depth := by
  cases tree with
  | dir entries =>
      have hroot := (h [] _ (.root _)).1 rfl
      exact ⟨hroot.2, Entries.clean_of_served entries hdistinct fun _ _ hname => h.child hname⟩
  | locked code => cases ((h [] _ (.root _)).1 rfl).1
  | file => cases hdir
  | symlink => cases hdir

theorem Entries.clean_of_served (entries : Entries) (hdistinct : entries.Distinct) {depth : ℕ}
    (h : ∀ name entry, entries.lookup name = some entry →
      isDotfile name = false ∧ entry.isSymbolicLink = false ∧ AllServed entry (depth + 1)) :
    entries.Clean depth := by
  cases entries with
  | nil => trivial
  | cons name entry rest =>
      obtain ⟨hname, hentry, hrest⟩ := hdistinct
      obtain ⟨hdot, hlink, hserved⟩ := h name entry (by rw [Entries.lookup, if_pos rfl])
      refine ⟨hdot, hlink, fun hdir => Entry.clean_of_served entry hentry hdir hserved,
        Entries.clean_of_served rest hrest fun other found hother => ?_⟩
      -- A later entry is found under its name, since no name is listed twice.
      have hne : name ≠ other := fun heq => by
        rw [← heq, hname] at hother
        cases hother
      exact h other found (by rw [Entries.lookup, if_neg hne, hother])

end

/-- The native table takes a directory exactly when it is within the budgets,
can be read, and the handler that mirrors the route serves each of its paths. -/
theorem sunk_dir_audit (sinkPath sep dir root : JsString) {tree : Entry}
    (hdistinct : tree.Distinct) :
    assertSunkDirSafe sinkPath sep dir root tree = .ok () ↔
      tree.isDirectory = true ∧ tree.count ≤ MAX_SCAN_ENTRIES ∧
        ∀ path found, Within tree path found →
          (found.isDirectory = true → found.readable = true ∧ path.length ≤ MAX_SCAN_DEPTH) ∧
            mirrorServes tree path = true := by
  have hserved : (∀ path found, Within tree path found →
      (found.isDirectory = true → found.readable = true ∧ path.length ≤ MAX_SCAN_DEPTH) ∧
        mirrorServes tree path = true) ↔ AllServed tree 0 := by
    simp only [AllServed, Nat.zero_add]
  rw [assertSunkDirSafe_iff, hserved]
  constructor
  · rintro ⟨hclean, hbudget⟩
    refine ⟨?_, hbudget, fun path found hpath => served_of_clean hpath fun _ => hclean⟩
    cases tree with
    | dir entries => rfl
    | locked code => rfl
    | file => exact hclean.elim
    | symlink => exact hclean.elim
  · rintro ⟨hdir, hbudget, h⟩
    exact ⟨tree.clean_of_served hdistinct hdir h, hbudget⟩

def publicTree : Entry :=
  .dir (.cons (js "a.txt") .file
    (.cons (js ".well-known") (.dir (.cons (js "security.txt") .file .nil)) .nil))

/-- A tree with a directory that is exempt from the dotfile policy. -/
theorem sunk_dir_audit_well_known :
    assertSunkDirSafe (js "/assets/*") (js "/") (js "public") (js "/srv/public") publicTree =
      .ok () ∧
    mirrorServes publicTree [js ".well-known", js "security.txt"] = true := by
  have hdistinct : publicTree.Distinct := ⟨rfl, trivial, rfl, ⟨rfl, trivial, trivial⟩, trivial⟩
  have hsafe : assertSunkDirSafe (js "/assets/*") (js "/") (js "public") (js "/srv/public")
      publicTree = .ok () := by decide +kernel
  refine ⟨hsafe, ?_⟩
  have haudit := (sunk_dir_audit (js "/assets/*") (js "/") (js "public") (js "/srv/public")
    hdistinct).mp hsafe
  exact (haudit.2.2 _ .file (.child rfl (.child rfl (.root .file)))).2

end Keala.Core
