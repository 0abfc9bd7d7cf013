import Keala.Middleware.IpAddress

/-!
The text of an IPv6 address that is read is the one of the grammar, and its
value the number it denotes, but for a `::` next to eight groups, which the
count of missing groups lets pass.
-/

namespace Keala.Middleware

open Keala.Js

/-! ### Dotted quads -/

theorem octetRe_iff (text : JsString) :
    IPV4_OCTET_RE text = true ∧ ¬ 255 < decimalValue text ↔ IsOctet text := by
  rw [IPV4_OCTET_RE, Bool.and_eq_true, Bool.and_eq_true, decide_eq_true_iff, decide_eq_true_iff,
    List.all_eq_true, not_lt]
  exact ⟨fun h => ⟨h.1.1, h.1.2, h.2⟩, fun h => ⟨⟨h.length, h.digits⟩, h.range⟩⟩

theorem groupRe_iff (text : JsString) : IPV6_GROUP_RE text = true ↔ IsGroup text := by
  rw [IPV6_GROUP_RE, Bool.and_eq_true, Bool.and_eq_true, decide_eq_true_iff, decide_eq_true_iff,
    List.all_eq_true]
  exact ⟨fun h => ⟨h.1, h.2⟩, fun h => ⟨h.length, h.digits⟩⟩

theorem shift_or {base digit : ℕ} (k : ℕ) (h : digit < 2 ^ k) :
    base <<< k ||| digit = 2 ^ k * base + digit := by
  rw [← Nat.shiftLeft_add_eq_or_of_lt h, Nat.shiftLeft_eq, Nat.mul_comm]

/-- One more digit in front of the less significant ones. -/
theorem ofDigits_reverse_cons (b digit : ℕ) (digits : List ℕ) :
    Nat.ofDigits b (digit :: digits).reverse =
      b ^ digits.length * digit + Nat.ofDigits b digits.reverse := by
  rw [List.reverse_cons, Nat.ofDigits_append, List.length_reverse, Nat.ofDigits_singleton,
    Nat.add_comm]

theorem octetsToInt_iff (parts : List JsString) (value n : ℕ) :
    octetsToInt parts value = some n ↔
      (∀ part ∈ parts, IsOctet part) ∧
        n = 256 ^ parts.length * value + Nat.ofDigits 256 (parts.map decimalValue).reverse := by
  induction parts generalizing value with
  | nil => simp [octetsToInt, eq_comm]
  | cons part parts ih =>
      rw [List.forall_mem_cons, ← octetRe_iff]
      by_cases hoctet : IPV4_OCTET_RE part = true ∧ ¬ 255 < decimalValue part
      · have hlt : decimalValue part < 2 ^ 8 := by omega
        rw [octetsToInt, if_neg (by simp [hoctet.1]), if_neg hoctet.2, ih, shift_or 8 hlt,
          List.map_cons, ofDigits_reverse_cons, List.length_map, List.length_cons]
        have hsum : ∀ rest, 256 ^ parts.length * (2 ^ 8 * value + decimalValue part) + rest =
            256 ^ (parts.length + 1) * value +
              (256 ^ parts.length * decimalValue part + rest) := by
          intro rest
          ring
        rw [hsum]
        exact ⟨fun h => ⟨⟨hoctet, h.1⟩, h.2⟩, fun h => ⟨h.1.2, h.2⟩⟩
      · have hnone : octetsToInt (part :: parts) value = none := by
          rw [octetsToInt]
          split
          · rfl
          · next hre =>
              rw [if_pos]
              by_contra hrange
              exact hoctet ⟨by simpa using hre, hrange⟩
        rw [hnone]
        exact ⟨nofun, fun h => absurd h.1.1 hoctet⟩

theorem not_mem_of_digits {text : JsString} {p : CodeUnit → Bool} (h : ∀ c ∈ text, p c = true)
    {c : CodeUnit} (hc : p c = false) : c ∉ text := by
  intro hmem
  rw [h c hmem] at hc
  cases hc

theorem ipToInt_iff (ip : JsString) (n : ℕ) : ipToInt ip = some n ↔ DottedQuad ip n := by
  rw [ipToInt, DottedQuad]
  constructor
  · intro h
    split at h
    · cases h
    · next hlength =>
        rw [octetsToInt_iff, Nat.mul_zero, Nat.zero_add] at h
        exact ⟨split 46 ip, not_not.mp hlength, h.1, (join_split 46 ip).symm, h.2⟩
  · rintro ⟨parts, hlength, hoctets, rfl, hn⟩
    have hdots : ∀ part ∈ parts, 46 ∉ part :=
      fun part hpart => not_mem_of_digits (hoctets part hpart).digits rfl
    have hsplit : split 46 (join 46 parts) = parts := by
      apply split_join hdots
      rintro rfl
      cases hlength
    rw [hsplit, if_neg (not_not.mpr hlength), octetsToInt_iff, Nat.mul_zero, Nat.zero_add]
    exact ⟨hoctets, hn⟩

theorem DottedQuad.dot_mem {quad : JsString} {n : ℕ} (h : DottedQuad quad n) : 46 ∈ quad := by
  obtain ⟨parts, hlength, -, rfl, -⟩ := h
  match parts with
  | a :: b :: rest =>
      rw [join_cons_cons]
      exact List.mem_append_right _ List.mem_cons_self

theorem DottedQuad.colon_not_mem {quad : JsString} {n : ℕ} (h : DottedQuad quad n) :
    58 ∉ quad := by
  obtain ⟨parts, -, hoctets, rfl, -⟩ := h
  exact not_mem_join (by decide) fun part hpart =>
    not_mem_of_digits (hoctets part hpart).digits rfl

theorem DottedQuad.lt {quad : JsString} {n : ℕ} (h : DottedQuad quad n) : n < 2 ^ 32 := by
  obtain ⟨parts, hlength, hoctets, -, rfl⟩ := h
  have hlt := Nat.ofDigits_lt_base_pow_length (b := 256)
    (l := (parts.map decimalValue).reverse) (by decide) ?_
  · rw [List.length_reverse, List.length_map, hlength] at hlt
    exact hlt
  · intro d hd
    rw [List.mem_reverse, List.mem_map] at hd
    obtain ⟨part, hpart, rfl⟩ := hd
    have hrange := (hoctets part hpart).range
    omega

/-! ### Lists of groups -/

theorem IsGroup.colon_not_mem {text : JsString} (h : IsGroup text) : 58 ∉ text :=
  not_mem_of_digits h.digits rfl

theorem IsGroup.dot_not_mem {text : JsString} (h : IsGroup text) : 46 ∉ text :=
  not_mem_of_digits h.digits rfl

theorem IsGroup.ne_nil {text : JsString} (h : IsGroup text) : text ≠ [] :=
  List.length_pos_iff.mp h.length.1

theorem IsGroup.value_lt {text : JsString} (h : IsGroup text) :
    hexadecimalValue text < 2 ^ 16 := by
  calc hexadecimalValue text < 16 ^ text.length := hexadecimalValue_lt text
    _ ≤ 16 ^ 4 := Nat.pow_le_pow_right (by decide) h.length.2
    _ = 2 ^ 16 := by decide

theorem isGroup_hexText {n : ℕ} (h : n < 2 ^ 16) : IsGroup (hexText n) :=
  ⟨length_hexText h, fun _ hc => isHexDigit_of_mem_hexText hc⟩

theorem split_groups {parts : List JsString} (h : ∀ part ∈ parts, IsGroup part)
    (hne : parts ≠ []) : split 58 (join 58 parts) = parts :=
  split_join (fun part hpart => (h part hpart).colon_not_mem) hne

theorem groupList_iff (text : JsString) (values : List ℕ) :
    GroupList text values ↔
      (∀ part ∈ split 58 text, IsGroup part) ∧
        values = (split 58 text).map hexadecimalValue := by
  constructor
  · rintro ⟨parts, hne, hgroups, rfl, hvalues⟩
    rw [split_groups hgroups hne]
    exact ⟨hgroups, hvalues⟩
  · rintro ⟨hgroups, hvalues⟩
    exact ⟨split 58 text, split_ne_nil 58 text, hgroups, (join_split 58 text).symm, hvalues⟩

theorem GroupList.ne_nil {text : JsString} {values : List ℕ} (h : GroupList text values) :
    text ≠ [] := by
  rintro rfl
  have hempty := ((groupList_iff [] values).mp h).1 [] (by simp [split])
  exact hempty.ne_nil rfl

/-- One side of a `::`. -/
theorem splitGroups_iff (text : JsString) (values : List ℕ) :
    (text = [] ∧ values = [] ∨ GroupList text values) ↔
      (∀ part ∈ splitGroups text, IsGroup part) ∧
        values = (splitGroups text).map hexadecimalValue := by
  rw [splitGroups]
  split
  · next hempty =>
      subst hempty
      constructor
      · rintro (⟨-, rfl⟩ | hlist)
        · exact ⟨fun _ hpart => absurd hpart List.not_mem_nil, rfl⟩
        · exact absurd rfl hlist.ne_nil
      · exact fun h => .inl ⟨rfl, h.2⟩
  · next hne =>
      rw [← groupList_iff]
      exact ⟨fun h => h.resolve_left fun hempty => hne hempty.1, .inr⟩

/-- No two colons meet between groups. -/
theorem splitPair_groups {text : JsString} {values : List ℕ}
    (h : text = [] ∧ values = [] ∨ GroupList text values) (rest : JsString) :
    splitPair 58 58 (text ++ rest) = prepend text (splitPair 58 58 rest) := by
  rcases h with ⟨rfl, -⟩ | ⟨parts, hne, hgroups, rfl, -⟩
  · exact (prepend_nil (splitPair_ne_nil 58 58 rest)).symm
  · exact splitPair_join hne
      (fun part hpart => ⟨(hgroups part hpart).ne_nil, (hgroups part hpart).colon_not_mem⟩) rest

theorem GroupList.dot_not_mem {text : JsString} {values : List ℕ} (h : GroupList text values) :
    46 ∉ text := by
  obtain ⟨parts, -, hgroups, rfl, -⟩ := h
  exact not_mem_join (by decide) fun part hpart => (hgroups part hpart).dot_not_mem

/-! ### The tail -/

theorem tailStart_of_not_mem {text : JsString} (h : 58 ∉ text) : tailStart text = 0 := by
  have hnone : lastIndexOf text 58 = none := by
    rw [lastIndexOf, Option.map_eq_none_iff, List.findIdx?_eq_none_iff]
    intro c hc
    rw [List.mem_reverse] at hc
    exact beq_eq_false_iff_ne.mpr fun heq => h (heq ▸ hc)
  rw [tailStart, hnone]

theorem tailStart_append (front : JsString) {tail : JsString} (h : 58 ∉ tail) :
    tailStart (front ++ 58 :: tail) = front.length + 1 := by
  have hlast : lastIndexOf (front ++ 58 :: tail) 58 = some front.length := by
    have hnone : tail.reverse.findIdx? (· == 58) = none := by
      rw [List.findIdx?_eq_none_iff]
      intro c hc
      rw [List.mem_reverse] at hc
      exact beq_eq_false_iff_ne.mpr fun heq => h (heq ▸ hc)
    have hfound : (front ++ 58 :: tail).reverse.findIdx? (· == 58) = some tail.length := by
      rw [List.reverse_append, List.reverse_cons, List.append_assoc, List.findIdx?_append, hnone]
      simp [List.findIdx?_cons]
    rw [lastIndexOf, hfound, Option.map_some, List.length_append, List.length_cons]
    congr 1
    omega
  rw [tailStart, hlast]

def tailGroups (n : ℕ) : List JsString := [hexText (n >>> 16), hexText (n &&& 0xffff)]

theorem expandTail_join (parts : List JsString) {tail : JsString} (hcolon : 58 ∉ tail)
    (hdot : 46 ∈ join 58 (parts ++ [tail])) :
    expandTail (join 58 (parts ++ [tail])) =
      (ipToInt tail).map fun n => join 58 (parts ++ tailGroups n) := by
  by_cases hne : parts = []
  · subst hne
    rw [expandTail, if_pos hdot, List.nil_append, join_singleton, tailStart_of_not_mem hcolon]
    simp [tailGroups, join_cons_cons, join_singleton]
  · rw [expandTail, if_pos hdot, join_concat 58 hne, tailStart_append _ hcolon]
    have hfront : join 58 parts ++ 58 :: tail = (join 58 parts ++ [58]) ++ tail := by simp
    have hdrop : (join 58 parts ++ 58 :: tail).drop ((join 58 parts).length + 1) = tail := by
      rw [hfront, List.drop_left' (by simp)]
    have htake : (join 58 parts ++ 58 :: tail).take ((join 58 parts).length + 1) =
        join 58 parts ++ [58] := by
      rw [hfront, List.take_left' (by simp)]
    rw [hdrop, htake]
    congr 1
    funext n
    rw [tailGroups, join_append 58 hne (by simp), join_cons_cons, join_singleton]
    simp

theorem tailGroups_spec {n : ℕ} (h : n < 2 ^ 32) :
    (∀ group ∈ tailGroups n, IsGroup group) ∧
      (tailGroups n).map hexadecimalValue = [n / 2 ^ 16, n % 2 ^ 16] := by
  have hhigh : n >>> 16 = n / 2 ^ 16 := Nat.shiftRight_eq_div_pow n 16
  have hlow : n &&& 0xffff = n % 2 ^ 16 := Nat.and_two_pow_sub_one_eq_mod n 16
  rw [tailGroups, hhigh, hlow]
  refine ⟨?_, ?_⟩
  · intro group hgroup
    rcases List.mem_cons.mp hgroup with rfl | hgroup
    · exact isGroup_hexText (by omega)
    · rw [List.mem_singleton.mp hgroup]
      exact isGroup_hexText (by omega)
  · simp only [List.map_cons, List.map_nil, hexadecimalValue_hexText]

theorem colon_not_mem_tailGroups {n : ℕ} : ∀ group ∈ tailGroups n, 58 ∉ group := by
  intro group hgroup
  apply not_mem_of_digits (p := isHexDigit) _ rfl
  intro c hc
  rcases List.mem_cons.mp hgroup with rfl | hgroup
  · exact isHexDigit_of_mem_hexText hc
  · rw [List.mem_singleton.mp hgroup] at hc
    exact isHexDigit_of_mem_hexText hc

/-- A text is left alone, or its last part is a quad. -/
theorem expandTail_cases {text expanded : JsString} (h : expandTail text = some expanded) :
    46 ∉ text ∧ expanded = text ∨
      ∃ parts quad n, DottedQuad quad n ∧ (∀ part ∈ parts, 58 ∉ part) ∧
        text = join 58 (parts ++ [quad]) ∧ expanded = join 58 (parts ++ tailGroups n) := by
  by_cases hdot : 46 ∈ text
  · right
    have hsplit := List.dropLast_append_getLast (split_ne_nil 58 text)
    have hlast : (split 58 text).getLast (split_ne_nil 58 text) ∈ split 58 text :=
      List.getLast_mem (split_ne_nil 58 text)
    generalize (split 58 text).getLast (split_ne_nil 58 text) = tail at hsplit hlast
    have htext : join 58 ((split 58 text).dropLast ++ [tail]) = text := by
      rw [hsplit, join_split]
    have hexpand := expandTail_join (split 58 text).dropLast
      (not_mem_of_mem_split hlast) (by rw [htext]; exact hdot)
    rw [htext, h] at hexpand
    obtain ⟨n, hn, hexpanded⟩ := Option.map_eq_some_iff.mp hexpand.symm
    exact ⟨_, tail, n, (ipToInt_iff tail n).mp hn,
      fun part hpart => not_mem_of_mem_split (List.dropLast_subset _ hpart), htext.symm,
      hexpanded.symm⟩
  · rw [expandTail, if_neg hdot] at h
    cases h
    exact .inl ⟨hdot, rfl⟩

/-- The parts around an empty one. -/
theorem join_compressed (left : JsString) {parts : List JsString} (h : parts ≠ []) :
    join 58 (split 58 left ++ [] :: parts) = left ++ 58 :: 58 :: join 58 parts := by
  obtain ⟨part, rest, rfl⟩ := List.exists_cons_of_ne_nil h
  rw [join_append 58 (split_ne_nil 58 left) (by simp), join_split, join_cons_cons]
  rfl

theorem split_compressed (left right : JsString) :
    split 58 (left ++ 58 :: 58 :: right) = split 58 left ++ [] :: split 58 right := by
  rw [split_append_cons, split_cons_self]

/-- Two parts that end a list around an empty one stand behind that. -/
theorem parts_behind_empty {parts before behind : List JsString} {a b : JsString}
    (ha : a ≠ []) (hb : b ≠ []) (h : parts ++ [a, b] = before ++ [] :: behind) :
    ∃ middle, parts = before ++ [] :: middle ∧ behind = middle ++ [a, b] := by
  rcases List.append_eq_append_iff.mp h with ⟨rest, -, hrest⟩ | ⟨rest, hparts, hrest⟩
  · match rest with
    | [] => exact absurd (List.cons.inj hrest).1 ha
    | [_] => exact absurd (List.cons.inj (List.cons.inj hrest).2).1 hb
    | _ :: _ :: rest =>
        have hlength := congrArg List.length hrest
        simp at hlength
  · match rest with
    | [] => exact absurd (List.cons.inj hrest).1.symm ha
    | first :: middle =>
        obtain ⟨rfl, hbehind⟩ := List.cons.inj hrest
        exact ⟨middle, hparts, hbehind⟩

/-! ### The grammar of the expanded text -/

theorem GroupList.expand {text : JsString} {values : List ℕ} (h : GroupList text values) :
    expandTail text = some text := by
  rw [expandTail, if_neg h.dot_not_mem]

theorem groupList_append {parts : List JsString} (h : ∀ part ∈ parts, IsGroup part) {n : ℕ}
    (hn : n < 2 ^ 32) :
    GroupList (join 58 (parts ++ tailGroups n))
      (parts.map hexadecimalValue ++ [n / 2 ^ 16, n % 2 ^ 16]) := by
  refine ⟨parts ++ tailGroups n, by simp [tailGroups], ?_, rfl, ?_⟩
  · intro part hpart
    rcases List.mem_append.mp hpart with hpart | hpart
    · exact h part hpart
    · exact (tailGroups_spec hn).1 part hpart
  · rw [List.map_append, (tailGroups_spec hn).2]

theorem DottedQuad.expand {quad : JsString} {n : ℕ} (h : DottedQuad quad n)
    (parts : List JsString) :
    expandTail (join 58 (parts ++ [quad])) = some (join 58 (parts ++ tailGroups n)) := by
  have hdot : 46 ∈ join 58 (parts ++ [quad]) := by
    by_cases hne : parts = []
    · rw [hne, List.nil_append, join_singleton]
      exact h.dot_mem
    · rw [join_concat 58 hne]
      exact List.mem_append_right _ (List.mem_cons_of_mem _ h.dot_mem)
  rw [expandTail_join parts h.colon_not_mem hdot, (ipToInt_iff quad n).mpr h]
  rfl

theorem GroupTail.expand {text : JsString} {values : List ℕ} (h : GroupTail text values) :
    ∃ expanded, expandTail text = some expanded ∧ GroupList expanded values := by
  rcases h with hlist | ⟨parts, quad, n, hgroups, hquad, rfl, rfl⟩
  · exact ⟨text, hlist.expand, hlist⟩
  · exact ⟨_, hquad.expand parts, groupList_append hgroups hquad.lt⟩

theorem groupTail_of_expand {text expanded : JsString} {values : List ℕ}
    (h : expandTail text = some expanded) (hlist : GroupList expanded values) :
    GroupTail text values := by
  rcases expandTail_cases h with ⟨-, rfl⟩ | ⟨parts, quad, n, hquad, hparts, rfl, rfl⟩
  · exact .inl hlist
  · have hsplit : split 58 (join 58 (parts ++ tailGroups n)) = parts ++ tailGroups n := by
      apply split_join _ (by simp [tailGroups])
      intro part hpart
      rcases List.mem_append.mp hpart with hpart | hpart
      · exact hparts part hpart
      · exact colon_not_mem_tailGroups part hpart
    obtain ⟨hgroups, rfl⟩ := (groupList_iff _ _).mp hlist
    rw [hsplit] at hgroups
    refine .inr ⟨parts, quad, n, fun part hpart => hgroups part (List.mem_append_left _ hpart),
      hquad, rfl, ?_⟩
    rw [hsplit, List.map_append, (tailGroups_spec hquad.lt).2]

theorem Compresses.expand {text : JsString} {before behind : List ℕ}
    (h : Compresses text before behind) :
    ∃ left right, expandTail text = some (left ++ 58 :: 58 :: right) ∧
      (left = [] ∧ before = [] ∨ GroupList left before) ∧
      (right = [] ∧ behind = [] ∨ GroupList right behind) := by
  obtain ⟨left, right, rfl, hleft, hright⟩ := h
  have hdot : 46 ∉ left := by
    rcases hleft with ⟨rfl, -⟩ | hlist
    · exact List.not_mem_nil
    · exact hlist.dot_not_mem
  rcases hright with ⟨rfl, rfl⟩ | hlist | ⟨parts, quad, n, hgroups, hquad, rfl, rfl⟩
  · refine ⟨left, [], ?_, hleft, .inl ⟨rfl, rfl⟩⟩
    rw [expandTail, if_neg (by simp [hdot])]
  · refine ⟨left, right, ?_, hleft, .inr hlist⟩
    rw [expandTail, if_neg (by simp [hdot, hlist.dot_not_mem])]
  · refine ⟨left, join 58 (parts ++ tailGroups n), ?_, hleft,
      .inr (groupList_append hgroups hquad.lt)⟩
    have hexpand := hquad.expand (split 58 left ++ [] :: parts)
    rwa [List.append_assoc, List.cons_append, join_compressed left (by simp), List.append_assoc,
      List.cons_append, join_compressed left (by simp [tailGroups])] at hexpand

theorem compresses_of_expand {text left right : JsString} {before behind : List ℕ}
    (h : expandTail text = some (left ++ 58 :: 58 :: right))
    (hleft : left = [] ∧ before = [] ∨ GroupList left before)
    (hright : right = [] ∧ behind = [] ∨ GroupList right behind) :
    Compresses text before behind := by
  rcases expandTail_cases h with ⟨-, htext⟩ | ⟨parts, quad, n, hquad, hparts, rfl, hexpanded⟩
  · refine ⟨left, right, htext.symm, hleft, ?_⟩
    exact hright.imp_right .inl
  · have hsplit : parts ++ tailGroups n = split 58 left ++ [] :: split 58 right := by
      rw [← split_compressed, hexpanded, split_join _ (by simp [tailGroups])]
      intro part hpart
      rcases List.mem_append.mp hpart with hpart | hpart
      · exact hparts part hpart
      · exact colon_not_mem_tailGroups part hpart
    have hgroups := (tailGroups_spec hquad.lt).1
    obtain ⟨middle, rfl, hmiddle⟩ := parts_behind_empty
      (hgroups _ List.mem_cons_self).ne_nil
      (hgroups _ (List.mem_cons_of_mem _ List.mem_cons_self)).ne_nil hsplit
    have hlist : GroupList right behind := by
      apply hright.resolve_left
      rintro ⟨rfl, -⟩
      have hlength := congrArg List.length hmiddle
      simp [split] at hlength
    obtain ⟨hparts, rfl⟩ := (groupList_iff _ _).mp hlist
    refine ⟨left, join 58 (middle ++ [quad]), ?_, hleft, .inr (.inr ⟨middle, quad, n, ?_, hquad,
      rfl, ?_⟩)⟩
    · rw [List.append_assoc, List.cons_append, join_compressed left (by simp)]
    · intro part hpart
      apply hparts
      rw [hmiddle]
      exact List.mem_append_left _ hpart
    · rw [hmiddle, List.map_append]
      exact congrArg _ (tailGroups_spec hquad.lt).2

/-! ### The groups -/

theorem groupsToBits_iff (groups : List JsString) (bits n : ℕ) :
    groupsToBits groups bits = some n ↔
      (∀ group ∈ groups, IsGroup group) ∧
        n = (2 ^ 16) ^ groups.length * bits + bitsOf (groups.map hexadecimalValue) := by
  induction groups generalizing bits with
  | nil => simp [groupsToBits, bitsOf, eq_comm]
  | cons group groups ih =>
      rw [List.forall_mem_cons, groupsToBits, ← groupRe_iff]
      split
      · next hgroup =>
          have hlt := ((groupRe_iff group).mp hgroup).value_lt
          have hsum : ∀ rest, (2 ^ 16) ^ groups.length *
              (2 ^ 16 * bits + hexadecimalValue group) + rest =
                (2 ^ 16) ^ (groups.length + 1) * bits +
                  ((2 ^ 16) ^ groups.length * hexadecimalValue group + rest) := by
            intro rest
            ring
          rw [ih, shift_or 16 hlt, List.map_cons, bitsOf, bitsOf, ofDigits_reverse_cons,
            List.length_map, List.length_cons, hsum]
          exact ⟨fun h => ⟨⟨hgroup, h.1⟩, h.2⟩, fun h => ⟨h.1.2, h.2⟩⟩
      · next hgroup => exact ⟨nofun, fun h => absurd h.1.1 hgroup⟩

theorem ipv6Groups_whole {text : JsString} (h : splitPair 58 58 text = [text])
    (groups : List JsString) :
    ipv6Groups text = some groups ↔ (splitGroups text).length = 8 ∧ groups = splitGroups text := by
  rw [ipv6Groups, h]
  simp only [List.length_singleton, List.getD_cons_zero]
  rw [if_neg (by decide), if_neg (by decide)]
  split
  · next hlength => exact ⟨nofun, fun hgroups => absurd hgroups.1 hlength⟩
  · next hlength =>
      rw [Option.some.injEq, eq_comm]
      exact ⟨fun hgroups => ⟨not_not.mp hlength, hgroups⟩, fun hgroups => hgroups.2⟩

theorem ipv6Groups_halves {text left right : JsString} (h : splitPair 58 58 text = [left, right])
    (groups : List JsString) :
    ipv6Groups text = some groups ↔
      (splitGroups left).length + (splitGroups right).length ≤ 8 ∧
        groups = splitGroups left ++
          List.replicate (8 - ((splitGroups left).length + (splitGroups right).length)) (js "0") ++
            splitGroups right := by
  rw [ipv6Groups, h]
  simp only [List.length_cons, List.length_nil, List.getD_cons_zero, List.getD_cons_succ,
    Nat.zero_add, Nat.reduceAdd, lt_irrefl, if_false, if_true]
  have hcount : ((8 : ℤ) - (splitGroups left).length - (splitGroups right).length).toNat =
      8 - ((splitGroups left).length + (splitGroups right).length) := by omega
  split
  · next hneg => exact ⟨nofun, fun hgroups => by omega⟩
  · next hpos =>
      rw [Option.some.injEq, hcount, eq_comm]
      exact ⟨fun hgroups => ⟨by omega, hgroups⟩, fun hgroups => hgroups.2⟩

/-- The groups that are found are those of one list, or of two around a `::`. -/
theorem ipv6Groups_cases {text : JsString} {groups : List JsString}
    (h : ipv6Groups text = some groups) :
    (splitGroups text).length = 8 ∧ groups = splitGroups text ∨
      ∃ left right, text = left ++ 58 :: 58 :: right ∧
        (splitGroups left).length + (splitGroups right).length ≤ 8 ∧
        groups = splitGroups left ++
          List.replicate (8 - ((splitGroups left).length + (splitGroups right).length)) (js "0") ++
            splitGroups right := by
  rcases splitPair_spec 58 58 text with hwhole | ⟨left, rest, htext, hsplit⟩
  · exact .inl ((ipv6Groups_whole hwhole groups).mp h)
  · right
    rcases splitPair_spec 58 58 rest with hrest | ⟨middle, right, -, hmore⟩
    · rw [hrest] at hsplit
      exact ⟨left, rest, htext, (ipv6Groups_halves hsplit groups).mp h⟩
    · -- A second `::` makes three parts at least.
      rw [hmore] at hsplit
      have hthree : 2 < (splitPair 58 58 text).length := by
        have hlast := List.length_pos_iff.mpr (splitPair_ne_nil 58 58 right)
        rw [hsplit, List.length_cons, List.length_cons]
        omega
      rw [ipv6Groups, if_pos hthree] at h
      cases h

theorem ipv6Groups_length {text : JsString} {groups : List JsString}
    (h : ipv6Groups text = some groups) : groups.length = 8 := by
  rcases ipv6Groups_cases h with ⟨hlength, rfl⟩ | ⟨left, right, -, hcount, rfl⟩
  · exact hlength
  · rw [List.length_append, List.length_append, List.length_replicate]
    omega

/-! ### Addresses -/

/-- The text is one list of groups. -/
theorem GroupTail.parsed {text : JsString} {values : List ℕ} (h : GroupTail text values) :
    ∃ expanded, expandTail text = some expanded ∧ splitPair 58 58 expanded = [expanded] ∧
      (∀ group ∈ splitGroups expanded, IsGroup group) ∧
      values = (splitGroups expanded).map hexadecimalValue := by
  obtain ⟨expanded, hexpand, hlist⟩ := h.expand
  have hpair := splitPair_groups (.inr hlist) []
  rw [List.append_nil, splitPair_nil] at hpair
  refine ⟨expanded, hexpand, ?_, (splitGroups_iff expanded values).mp (.inr hlist)⟩
  rw [hpair, prepend, List.append_nil]

/-- The text is two lists of groups, either of them maybe empty. -/
theorem Compresses.parsed {text : JsString} {before behind : List ℕ}
    (h : Compresses text before behind) :
    ∃ expanded left right, expandTail text = some expanded ∧
      splitPair 58 58 expanded = [left, right] ∧
      (∀ group ∈ splitGroups left, IsGroup group) ∧
      (∀ group ∈ splitGroups right, IsGroup group) ∧
      before = (splitGroups left).map hexadecimalValue ∧
      behind = (splitGroups right).map hexadecimalValue := by
  obtain ⟨left, right, hexpand, hleft, hright⟩ := h.expand
  have hfront : splitPair 58 58 (left ++ 58 :: 58 :: right) =
      prepend left (splitPair 58 58 (58 :: 58 :: right)) :=
    splitPair_groups hleft (58 :: 58 :: right)
  have hback := splitPair_groups hright []
  rw [List.append_nil, splitPair_nil, prepend, List.append_nil] at hback
  rw [splitPair_pair, hback, prepend, List.append_nil] at hfront
  obtain ⟨hleftGroups, hbefore⟩ := (splitGroups_iff left before).mp hleft
  obtain ⟨hrightGroups, hbehind⟩ := (splitGroups_iff right behind).mp hright
  exact ⟨_, left, right, hexpand, hfront, hleftGroups, hrightGroups, hbefore, hbehind⟩

/-- What is read: the grammar, with a `::` for no group at all as well. -/
theorem ipv6ToBits_iff {text : JsString} (hzone : 37 ∉ text) (n : ℕ) :
    ipv6ToBits text = some n ↔
      (∃ values, GroupTail text values ∧ values.length = 8 ∧ n = bitsOf values) ∨
        ∃ before behind, Compresses text before behind ∧ before.length + behind.length ≤ 8 ∧
          n = bitsOf
            (before ++ List.replicate (8 - (before.length + behind.length)) 0 ++ behind) := by
  have hzero : hexadecimalValue (js "0") = 0 := by decide
  have hgroup : IsGroup (js "0") := (groupRe_iff _).mp (by decide)
  rw [ipv6ToBits, if_neg hzone]
  constructor
  · intro h
    obtain ⟨expanded, hexpand, h⟩ := Option.bind_eq_some_iff.mp h
    obtain ⟨groups, hgroups, h⟩ := Option.bind_eq_some_iff.mp h
    rw [groupsToBits_iff, Nat.mul_zero, Nat.zero_add] at h
    rcases ipv6Groups_cases hgroups with ⟨hlength, rfl⟩ | ⟨left, right, rfl, hcount, rfl⟩
    · left
      have hne : expanded ≠ [] := by
        rintro rfl
        cases hlength
      have hlist := ((splitGroups_iff expanded _).mpr ⟨h.1, rfl⟩).resolve_left
        fun hempty => hne hempty.1
      exact ⟨_, groupTail_of_expand hexpand hlist, by rw [List.length_map, hlength], h.2⟩
    · right
      have hleft := (splitGroups_iff left _).mpr ⟨fun group hg => h.1 group (by simp [hg]), rfl⟩
      have hright := (splitGroups_iff right _).mpr
        ⟨fun group hg => h.1 group (by simp [hg]), rfl⟩
      refine ⟨_, _, compresses_of_expand hexpand hleft hright, ?_, ?_⟩
      · rwa [List.length_map, List.length_map]
      · rw [h.2, List.map_append, List.map_append, List.map_replicate, hzero, List.length_map,
          List.length_map]
  · rintro (⟨values, htail, hlength, rfl⟩ | ⟨before, behind, hcompresses, hcount, rfl⟩)
    · obtain ⟨expanded, hexpand, hwhole, hgroups, rfl⟩ := htail.parsed
      rw [List.length_map] at hlength
      refine Option.bind_eq_some_iff.mpr ⟨expanded, hexpand, Option.bind_eq_some_iff.mpr
        ⟨_, (ipv6Groups_whole hwhole _).mpr ⟨hlength, rfl⟩, ?_⟩⟩
      rw [groupsToBits_iff, Nat.mul_zero, Nat.zero_add]
      exact ⟨hgroups, rfl⟩
    · obtain ⟨expanded, left, right, hexpand, hsplit, hleft, hright, rfl, rfl⟩ :=
        hcompresses.parsed
      rw [List.length_map, List.length_map] at hcount
      refine Option.bind_eq_some_iff.mpr ⟨expanded, hexpand, Option.bind_eq_some_iff.mpr
        ⟨_, (ipv6Groups_halves hsplit _).mpr ⟨hcount, rfl⟩, ?_⟩⟩
      rw [groupsToBits_iff, Nat.mul_zero, Nat.zero_add]
      refine ⟨?_, ?_⟩
      · intro group hg
        rcases List.mem_append.mp hg with hg | hg
        · rcases List.mem_append.mp hg with hg | hg
          · exact hleft group hg
          · rw [List.eq_of_mem_replicate hg]
            exact hgroup
        · exact hright group hg
      · rw [List.map_append, List.map_append, List.map_replicate, hzero, List.length_map,
          List.length_map]

/-- A text with a `::` is no list of groups, -/
theorem Compresses.not_groupTail {text : JsString} {before behind values : List ℕ}
    (h : Compresses text before behind) : ¬ GroupTail text values := by
  intro htail
  obtain ⟨expanded, left, right, hexpand, hsplit, -⟩ := h.parsed
  obtain ⟨other, hother, hwhole, -⟩ := htail.parsed
  rw [hexpand] at hother
  cases hother
  rw [hsplit] at hwhole
  have hlength := congrArg List.length hwhole
  simp at hlength

/-- and has one reading. -/
theorem Compresses.unique {text : JsString} {before behind before' behind' : List ℕ}
    (h : Compresses text before behind) (h' : Compresses text before' behind') :
    before = before' ∧ behind = behind' := by
  obtain ⟨expanded, left, right, hexpand, hsplit, -, -, rfl, rfl⟩ := h.parsed
  obtain ⟨other, left', right', hother, hsplit', -, -, rfl, rfl⟩ := h'.parsed
  rw [hexpand] at hother
  cases hother
  rw [hsplit] at hsplit'
  cases hsplit'
  exact ⟨rfl, rfl⟩

/-- A text without a zone is read as the grammar has it exactly when no `::` stands
next to eight groups. -/
theorem ipv6ToBits_grammar (text : JsString) (hzone : 37 ∉ text) :
    (∀ n, ipv6ToBits text = some n ↔ Denotes text n) ↔ ¬ Overfull text := by
  constructor
  · rintro h ⟨before, behind, hcompresses, hcount⟩
    have hread := (ipv6ToBits_iff hzone _).mpr
      (.inr ⟨before, behind, hcompresses, hcount.le, rfl⟩)
    rcases (h _).mp hread with ⟨values, htail, -⟩ | ⟨before', behind', hother, hfewer, -⟩
    · exact hcompresses.not_groupTail htail
    · obtain ⟨rfl, rfl⟩ := hcompresses.unique hother
      omega
  · intro hfull n
    rw [ipv6ToBits_iff hzone, Denotes]
    apply or_congr_right
    constructor
    · rintro ⟨before, behind, hcompresses, hcount, rfl⟩
      have hne : before.length + behind.length ≠ 8 :=
        fun height => hfull ⟨before, behind, hcompresses, height⟩
      exact ⟨before, behind, hcompresses, by omega, rfl⟩
    · rintro ⟨before, behind, hcompresses, hcount, rfl⟩
      exact ⟨before, behind, hcompresses, by omega, rfl⟩

theorem groupList_of_re {text : JsString} (h : (split 58 text).all IPV6_GROUP_RE = true) :
    GroupList text ((split 58 text).map hexadecimalValue) :=
  (groupList_iff text _).mpr
    ⟨fun part hpart => (groupRe_iff part).mp (List.all_eq_true.mp h part hpart), rfl⟩

theorem ipv6ToBits_grammar_loopback : Denotes (js "::1") 1 := by
  have hcompresses : Compresses (js "::1") [] [1] :=
    ⟨[], js "1", rfl, .inl ⟨rfl, rfl⟩, .inr (.inl (groupList_of_re (by decide)))⟩
  have hfull : ¬ Overfull (js "::1") := by
    rintro ⟨before, behind, hother, hcount⟩
    obtain ⟨rfl, rfl⟩ := hcompresses.unique hother
    cases hcount
  exact ((ipv6ToBits_grammar (js "::1") (by decide)).mpr hfull 1).mp (by decide +kernel)

/-- Eight groups with a `::` among them are read as if it were not there. -/
theorem compression_of_nothing_read :
    ipv6ToBits (js "1:2:3:4::5:6:7:8") = some 0x00010002000300040005000600070008 ∧
      ∀ n, ¬ Denotes (js "1:2:3:4::5:6:7:8") n := by
  have hcompresses : Compresses (js "1:2:3:4::5:6:7:8") [1, 2, 3, 4] [5, 6, 7, 8] :=
    ⟨js "1:2:3:4", js "5:6:7:8", rfl, .inr (groupList_of_re (by decide)),
      .inr (.inl (groupList_of_re (by decide)))⟩
  refine ⟨by decide +kernel, ?_⟩
  rintro n (⟨values, htail, -⟩ | ⟨before, behind, hother, hcount, -⟩)
  · exact hcompresses.not_groupTail htail
  · obtain ⟨rfl, rfl⟩ := hcompresses.unique hother
    exact absurd hcount (by decide)

end Keala.Middleware
