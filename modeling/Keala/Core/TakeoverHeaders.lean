import Keala.Core.ErrorPage

/-!
The takeover of an error mapper: the error's headers and what was discarded
fill the names that the mapper's response leaves empty, in place or on a rebuilt
copy.
-/

namespace Keala.Core

open Keala.Js Keala.Http

variable {σ β τ : Type}

/-! ### One write -/

/-- What a `Headers` stores of the items: those that it takes. -/
def accepted (items : List JsString) : List JsString := (items.filter fetchAccepts).map normalized

@[simp] theorem accepted_nil : accepted [] = [] := rfl

theorem accepted_append (xs ys : List JsString) :
    accepted (xs ++ ys) = accepted xs ++ accepted ys := by
  rw [accepted, List.filter_append, List.map_append]
  rfl

theorem accepted_of_refused {item : JsString} (h : fetchAccepts item = false) :
    accepted [item] = [] := by
  rw [accepted, List.filter_cons_of_neg (by simp [h])]
  rfl

theorem accepted_of_taken {item : JsString} (h : fetchAccepts item = true) :
    accepted [item] = [normalized item] := by
  rw [accepted, List.filter_cons_of_pos h]
  rfl

def acceptedItems (value : HeaderValue) : List JsString := accepted (itemsOf value)

def acceptedWire (value : HeaderValue) : List JsString := accepted (writtenItems value)

theorem mergeItem_append (headers : Headers) (h : headers.immutable = false)
    (name item : JsString) :
    ∃ after, mergeItem Headers.append name headers item = some after ∧ after.immutable = false ∧
      ∀ n, after.values n =
        if name = n then headers.values n ++ accepted [item] else headers.values n := by
  rw [mergeItem]
  cases haccepts : fetchAccepts item with
  | true =>
      rw [Headers.append_eq headers h]
      refine ⟨_, rfl, h, fun n => ?_⟩
      have hadded := Headers.values_added headers name [item] n
      rw [List.map_singleton] at hadded
      rw [hadded, accepted_of_taken haccepts]
      split
      · rfl
      · rw [List.append_nil]
  | false =>
      refine ⟨headers, rfl, h, fun n => ?_⟩
      rw [accepted_of_refused haccepts, List.append_nil, ite_self]

theorem mergeItem_set (headers : Headers) (h : headers.immutable = false) {name : JsString}
    (hfree : headers.values name = []) (item : JsString) :
    ∃ after, mergeItem Headers.set name headers item = some after ∧ after.immutable = false ∧
      ∀ n, after.values n =
        if name = n then accepted [item] else headers.values n := by
  rw [mergeItem]
  cases haccepts : fetchAccepts item with
  | true =>
      rw [Headers.set_eq headers h]
      refine ⟨_, rfl, h, fun n => ?_⟩
      rw [Headers.values_set, accepted_of_taken haccepts]
  | false =>
      refine ⟨headers, rfl, h, fun n => ?_⟩
      rw [accepted_of_refused haccepts]
      split
      · next heq => rw [← heq, hfree]
      · rfl

theorem foldlM_mergeItem_append (items : List JsString) (headers : Headers)
    (h : headers.immutable = false) (name : JsString) :
    ∃ after, items.foldlM (mergeItem Headers.append name) headers = some after ∧
      after.immutable = false ∧ ∀ n, after.values n =
        if name = n then headers.values n ++ accepted items else headers.values n := by
  induction items generalizing headers with
  | nil =>
      refine ⟨headers, rfl, h, fun n => ?_⟩
      rw [accepted_nil, List.append_nil, ite_self]
  | cons item items ih =>
      obtain ⟨next, hnext, hopen, hvalues⟩ := mergeItem_append headers h name item
      obtain ⟨after, hafter, hmutable, hread⟩ := ih next hopen
      refine ⟨after, ?_, hmutable, fun n => ?_⟩
      · rw [List.foldlM_cons, hnext]
        exact hafter
      · rw [hread, hvalues]
        split
        · rw [List.append_assoc, ← accepted_append, List.singleton_append]
        · rfl

/-! ### The error's headers -/

def Fills (text : FieldText) (n : JsString) (entry : JsString × HeaderValue) : Prop :=
  isMergeForbidden text entry.1 = false ∧ isToken entry.1 = true ∧ text.lower entry.1 = n

instance (text : FieldText) (n : JsString) (entry : JsString × HeaderValue) :
    Decidable (Fills text n entry) :=
  inferInstanceAs (Decidable (_ ∧ _ ∧ _))

theorem mergeErrorHeader_spec (text : FieldText) (headers : Headers)
    (h : headers.immutable = false) (entry : JsString × HeaderValue) :
    ∃ after, mergeErrorHeader text headers entry = some after ∧ after.immutable = false ∧
      ∀ n, after.values n =
        if headers.values n = [] ∧ Fills text n entry then acceptedItems entry.2
        else headers.values n := by
  obtain ⟨field, value⟩ := entry
  rw [mergeErrorHeader]
  dsimp only
  split
  · next hskip =>
      refine ⟨headers, rfl, h, fun n => ?_⟩
      rw [if_neg]
      rintro ⟨hfree, hallowed, htoken, hname⟩
      rw [hallowed, htoken, hname] at hskip
      exact (has_eq_true_iff headers n).mp (by simpa using hskip) hfree
  · next hfills =>
      simp only [Bool.or_eq_true, Bool.not_eq_true', not_or, Bool.not_eq_true,
        Bool.not_eq_false] at hfills
      obtain ⟨⟨hallowed, htoken⟩, hhas⟩ := hfills
      have hfree : headers.values (text.lower field) = [] := values_nil_of_not_has hhas
      have hiff : ∀ n, (headers.values n = [] ∧ Fills text n (field, value)) ↔
          text.lower field = n := by
        refine fun n => ⟨fun h => h.2.2.2, ?_⟩
        rintro rfl
        exact ⟨hfree, hallowed, htoken, rfl⟩
      cases value with
      | one value =>
          obtain ⟨after, hafter, hopen, hvalues⟩ := mergeItem_set headers h hfree value
          refine ⟨after, hafter, hopen, fun n => ?_⟩
          rw [hvalues, if_congr (hiff n) rfl rfl]
          rfl
      | many values =>
          obtain ⟨after, hafter, hopen, hvalues⟩ :=
            foldlM_mergeItem_append values headers h (text.lower field)
          refine ⟨after, hafter, hopen, fun n => ?_⟩
          rw [hvalues, if_congr (hiff n) rfl rfl]
          by_cases heq : text.lower field = n
          · rw [if_pos heq, if_pos heq, ← heq, hfree]
            rfl
          · rw [if_neg heq, if_neg heq]

def firstFilling (text : FieldText) (n : JsString) : HeaderMap → List JsString
  | [] => []
  | entry :: entries =>
      if Fills text n entry ∧ acceptedItems entry.2 ≠ [] then acceptedItems entry.2
      else firstFilling text n entries

theorem foldlM_mergeErrorHeader_spec (text : FieldText) (entries : HeaderMap) (headers : Headers)
    (h : headers.immutable = false) :
    ∃ after, entries.foldlM (mergeErrorHeader text) headers = some after ∧
      after.immutable = false ∧ ∀ n, after.values n =
        if headers.values n = [] then firstFilling text n entries else headers.values n := by
  induction entries generalizing headers with
  | nil =>
      refine ⟨headers, rfl, h, fun n => ?_⟩
      split
      · assumption
      · rfl
  | cons entry entries ih =>
      obtain ⟨next, hnext, hopen, hvalues⟩ := mergeErrorHeader_spec text headers h entry
      obtain ⟨after, hafter, hmutable, hread⟩ := ih next hopen
      refine ⟨after, ?_, hmutable, fun n => ?_⟩
      · rw [List.foldlM_cons, hnext]
        exact hafter
      · have hvalue := hvalues n
        rw [hread, firstFilling]
        by_cases hfree : headers.values n = []
        · by_cases hfills : Fills text n entry
          · rw [if_pos ⟨hfree, hfills⟩] at hvalue
            rw [hvalue, if_pos hfree]
            by_cases hitems : acceptedItems entry.2 = []
            · rw [if_pos hitems, if_neg fun h => h.2 hitems]
            · rw [if_neg hitems, if_pos ⟨hfills, hitems⟩]
          · rw [if_neg fun h => hfills h.2] at hvalue
            rw [hvalue, if_pos hfree, if_pos hfree, if_neg fun h => hfills h.1]
        · rw [if_neg fun h => hfree h.1] at hvalue
          rw [hvalue, if_neg hfree, if_neg hfree]

/-! ### The staged pairs -/

theorem mergeStagedPair_join {text : FieldText} {name : JsString}
    (hallowed : isMergeForbidden text name = false) {headers : Headers}
    (h : headers.immutable = false) {merged : List JsString}
    (hjoin : name = js "set-cookie" ∨ headers.values name = [] ∨ name ∈ merged)
    (item : JsString) :
    ∃ after, mergeStagedPair text (headers, merged) (name, item) = some (after, name :: merged) ∧
      after.immutable = false ∧ ∀ n, after.values n =
        if name = n then headers.values n ++ accepted [item] else headers.values n := by
  obtain ⟨after, hafter, hopen, hvalues⟩ := mergeItem_append headers h name item
  refine ⟨after, ?_, hopen, hvalues⟩
  rw [mergeStagedPair]
  dsimp only
  rw [if_neg (by simp [hallowed]), if_neg, hafter]
  · rfl
  · rintro ⟨hcookie, hhas, hmerged⟩
    rcases hjoin with heq | hfree | hmem
    · exact hcookie heq
    · exact (has_eq_true_iff headers name).mp hhas hfree
    · exact hmerged hmem

/-- Once a name is being merged, its other values join. -/
theorem foldlM_mergeStagedPair_join {text : FieldText} {name : JsString}
    (hallowed : isMergeForbidden text name = false) (items : List JsString) {headers : Headers}
    (h : headers.immutable = false) {merged : List JsString}
    (hjoin : name = js "set-cookie" ∨ headers.values name = [] ∨ name ∈ merged) :
    ∃ after added, (items.map fun item => (name, item)).foldlM (mergeStagedPair text)
        (headers, merged) = some (after, added) ∧ after.immutable = false ∧
      (∀ n, after.values n =
        if name = n then headers.values n ++ accepted items else headers.values n) ∧
      ∀ n ∈ added, n = name ∨ n ∈ merged := by
  induction items generalizing headers merged with
  | nil =>
      refine ⟨headers, merged, rfl, h, fun n => ?_, fun n hn => .inr hn⟩
      rw [accepted_nil, List.append_nil, ite_self]
  | cons item items ih =>
      obtain ⟨next, hnext, hopen, hvalues⟩ := mergeStagedPair_join hallowed h hjoin item
      obtain ⟨after, added, hafter, hmutable, hread, hadded⟩ :=
        ih hopen (.inr (.inr List.mem_cons_self))
      refine ⟨after, added, ?_, hmutable, fun n => ?_, fun n hn => ?_⟩
      · rw [List.map_cons, List.foldlM_cons, hnext]
        exact hafter
      · rw [hread, hvalues]
        split
        · rw [List.append_assoc, ← accepted_append, List.singleton_append]
        · rfl
      · rcases hadded n hn with heq | hmem
        · exact .inl heq
        · exact (List.mem_cons.mp hmem).imp_right id

/-- A name that the takeover has is left to it. -/
theorem foldlM_mergeStagedPair_skip {text : FieldText} {name : JsString} {headers : Headers}
    {merged : List JsString} (hskip : isMergeForbidden text name = true ∨
      name ≠ js "set-cookie" ∧ headers.values name ≠ [] ∧ name ∉ merged)
    (items : List JsString) :
    (items.map fun item => (name, item)).foldlM (mergeStagedPair text) (headers, merged) =
      some (headers, merged) := by
  induction items with
  | nil => rfl
  | cons item items ih =>
      have hnext :
          mergeStagedPair text (headers, merged) (name, item) = some (headers, merged) := by
        rw [mergeStagedPair]
        dsimp only
        rcases hskip with hforbidden | ⟨hcookie, hheld, hmerged⟩
        · rw [if_pos hforbidden]
        · split
          · rfl
          · rw [if_pos ⟨hcookie, (has_eq_true_iff headers name).mpr hheld, hmerged⟩]
      rw [List.map_cons, List.foldlM_cons, hnext]
      exact ih

def Joins (text : FieldText) (headers : Headers) (n : JsString) : Prop :=
  isMergeForbidden text n = false ∧ (n = js "set-cookie" ∨ headers.values n = [])

instance (text : FieldText) (headers : Headers) (n : JsString) :
    Decidable (Joins text headers n) := inferInstanceAs (Decidable (_ ∧ _))

theorem foldlM_mergeStaged_spec (text : FieldText) {record : HeaderMap}
    (hnodup : (OrderedMap.keys record).Nodup) {headers : Headers} (h : headers.immutable = false)
    {merged : List JsString} (hfresh : ∀ n ∈ OrderedMap.keys record, n ∉ merged) :
    ∃ after added, (flattenHeaders record).foldlM (mergeStagedPair text) (headers, merged) =
        some (after, added) ∧ after.immutable = false ∧ ∀ n, after.values n =
          if Joins text headers n then
            headers.values n ++ ((OrderedMap.get? record n).map acceptedWire).getD []
          else headers.values n := by
  induction record generalizing headers merged with
  | nil =>
      refine ⟨headers, merged, rfl, h, fun n => ?_⟩
      rw [OrderedMap.get?_nil, Option.map_none, Option.getD_none, List.append_nil, ite_self]
  | cons entry record ih =>
      obtain ⟨name, value⟩ := entry
      rw [OrderedMap.keys_cons, List.nodup_cons] at hnodup
      have hflat : flattenHeaders ((name, value) :: record) =
          ((writtenItems value).map fun item => (name, item)) ++ flattenHeaders record := rfl
      have hnew : name ∉ merged := hfresh name List.mem_cons_self
      have hnone : OrderedMap.get? record name = none :=
        (OrderedMap.get?_eq_none_iff record name).mpr hnodup.1
      by_cases hjoins : Joins text headers name
      · -- The items of the entry join, which blocks no later name.
        have hjoin : name = js "set-cookie" ∨ headers.values name = [] ∨ name ∈ merged :=
          hjoins.2.imp_right .inl
        obtain ⟨next, added, hnext, hopen, hvalues, hadded⟩ :=
          foldlM_mergeStagedPair_join hjoins.1 (writtenItems value) h hjoin
        have hlater : ∀ n ∈ OrderedMap.keys record, n ∉ added := by
          intro n hn hmem
          rcases hadded n hmem with rfl | hmerged
          · exact hnodup.1 hn
          · exact hfresh n (List.mem_cons_of_mem _ hn) hmerged
        obtain ⟨after, rest, hafter, hmutable, hread⟩ := ih hnodup.2 hopen hlater
        refine ⟨after, rest, ?_, hmutable, fun n => ?_⟩
        · rw [hflat, List.foldlM_append, hnext]
          exact hafter
        · have hvalue := hvalues n
          rw [hread, OrderedMap.get?_cons]
          by_cases heq : name = n
          · subst heq
            rw [if_pos rfl] at hvalue
            rw [hnone, Option.map_none, Option.getD_none, List.append_nil, ite_self, hvalue,
              if_pos hjoins, if_pos rfl]
            rfl
          · rw [if_neg heq] at hvalue
            simp only [if_neg heq, Joins, hvalue]
      · -- The entry is passed over, item by item.
        have hskip : isMergeForbidden text name = true ∨
            name ≠ js "set-cookie" ∧ headers.values name ≠ [] ∧ name ∉ merged := by
          by_cases hforbidden : isMergeForbidden text name = true
          · exact .inl hforbidden
          · have hneither : ¬(name = js "set-cookie" ∨ headers.values name = []) :=
              fun h => hjoins ⟨Bool.eq_false_iff.mpr hforbidden, h⟩
            rw [not_or] at hneither
            exact .inr ⟨hneither.1, hneither.2, hnew⟩
        have hlater : ∀ n ∈ OrderedMap.keys record, n ∉ merged :=
          fun n hn => hfresh n (List.mem_cons_of_mem _ hn)
        obtain ⟨after, rest, hafter, hmutable, hread⟩ := ih hnodup.2 h hlater
        refine ⟨after, rest, ?_, hmutable, fun n => ?_⟩
        · rw [hflat, List.foldlM_append, foldlM_mergeStagedPair_skip hskip]
          exact hafter
        · rw [hread, OrderedMap.get?_cons]
          by_cases heq : name = n
          · subst heq
            rw [if_neg hjoins, if_neg hjoins]
          · rw [if_neg heq]

/-! ### The merge -/

/-- What the error's headers leave of a name. -/
def afterErrors (text : FieldText) (error : HttpError) (values : List JsString) (n : JsString) :
    List JsString :=
  if values = [] then firstFilling text n (error.headers.getD []) else values

def mergedValues (text : FieldText) (error : HttpError) (staged : HeaderMap)
    (values : List JsString) (n : JsString) : List JsString :=
  let filled := afterErrors text error values n
  if isMergeForbidden text n = false ∧ (n = js "set-cookie" ∨ filled = []) then
    filled ++ ((OrderedMap.get? staged n).map acceptedWire).getD []
  else filled

theorem applyAbsentHeaders_mutable (text : FieldText) {headers : Headers}
    (h : headers.immutable = false) (error : HttpError) {staged : Option HeaderMap}
    (hnodup : (OrderedMap.keys (staged.getD [])).Nodup) :
    ∃ after, applyAbsentHeaders text headers error staged = some after ∧
      ∀ n, after.values n = mergedValues text error (staged.getD []) (headers.values n) n := by
  obtain ⟨filled, hfilled, hopen, hvalues⟩ :=
    foldlM_mergeErrorHeader_spec text (error.headers.getD []) headers h
  have hfresh : ∀ n ∈ OrderedMap.keys (staged.getD []), n ∉ ([] : List JsString) :=
    fun _ _ => List.not_mem_nil
  obtain ⟨after, added, hafter, -, hread⟩ := foldlM_mergeStaged_spec text hnodup hopen hfresh
  refine ⟨after, ?_, fun n => ?_⟩
  · rw [applyAbsentHeaders, hfilled]
    change ((flattenHeaders (staged.getD [])).foldlM (mergeStagedPair text) (filled, []) >>= _) = _
    rw [hafter]
    rfl
  · rw [hread]
    simp only [Joins, hvalues]
    rfl

/-! ### Under an immutable guard

A merge that asks for no rebuild wrote nothing that a guard refuses, so a copy
without the guard takes it as well. -/

theorem foldlM_simulates {α γ : Type} {f : α → γ → Option α} {g : α → α}
    (hf : ∀ a x b, f a x = some b → f (g a) x = some (g b)) (xs : List γ) {a b : α}
    (h : xs.foldlM f a = some b) : xs.foldlM f (g a) = some (g b) := by
  induction xs generalizing a with
  | nil =>
      obtain rfl := Option.some.inj h
      rfl
  | cons x xs ih =>
      rw [List.foldlM_cons] at h ⊢
      obtain ⟨next, hnext, hrest⟩ := Option.bind_eq_some_iff.mp h
      rw [hf a x next hnext]
      exact ih hrest

theorem append_unguarded {headers after : Headers} {name value : JsString}
    (h : (headers.append name value : Except (Thrown Unit) _) = .ok after) :
    (headers.unguarded.append name value : Except (Thrown Unit) _) = .ok after.unguarded := by
  rw [Headers.append] at h
  split at h
  · cases h
  · obtain rfl := Except.ok.inj h
    exact Headers.append_eq headers.unguarded rfl name value

theorem set_unguarded {headers after : Headers} {name value : JsString}
    (h : (headers.set name value : Except (Thrown Unit) _) = .ok after) :
    (headers.unguarded.set name value : Except (Thrown Unit) _) = .ok after.unguarded := by
  rw [Headers.set] at h
  split at h
  · cases h
  · obtain rfl := Except.ok.inj h
    exact Headers.set_eq headers.unguarded rfl name value

theorem mergeItem_unguarded {write : Headers → JsString → JsString → Except (Thrown Unit) Headers}
    (hwrite : ∀ {headers after : Headers} {name value : JsString},
      write headers name value = .ok after →
        write headers.unguarded name value = .ok after.unguarded)
    (name : JsString) (headers : Headers) (item : JsString) (after : Headers)
    (h : mergeItem write name headers item = some after) :
    mergeItem write name headers.unguarded item = some after.unguarded := by
  rw [mergeItem] at h ⊢
  split at h
  · next haccepts =>
      rw [if_pos haccepts]
      cases hresult : write headers name item with
      | error e =>
          rw [hresult] at h
          cases h
      | ok next =>
          rw [hresult] at h
          obtain rfl := Option.some.inj h
          rw [hwrite hresult]
          rfl
  · next haccepts =>
      obtain rfl := Option.some.inj h
      rw [if_neg haccepts]

theorem mergeErrorHeader_unguarded (text : FieldText) (headers : Headers)
    (entry : JsString × HeaderValue) (after : Headers)
    (h : mergeErrorHeader text headers entry = some after) :
    mergeErrorHeader text headers.unguarded entry = some after.unguarded := by
  rw [mergeErrorHeader] at h ⊢
  change (if (isMergeForbidden text entry.1 || !isToken entry.1 ||
    headers.has (text.lower entry.1)) = true then _ else _) = _
  split at h
  · next hskip =>
      obtain rfl := Option.some.inj h
      rw [if_pos hskip]
  · next hskip =>
      rw [if_neg hskip]
      split at h
      · exact mergeItem_unguarded set_unguarded _ _ _ _ h
      · exact foldlM_simulates (mergeItem_unguarded append_unguarded _) _ h

theorem mergeStagedPair_unguarded (text : FieldText) (st : Headers × List JsString)
    (pair : JsString × JsString) (after : Headers × List JsString)
    (h : mergeStagedPair text st pair = some after) :
    mergeStagedPair text (st.1.unguarded, st.2) pair = some (after.1.unguarded, after.2) := by
  obtain ⟨headers, merged⟩ := st
  rw [mergeStagedPair] at h ⊢
  dsimp only at h ⊢
  change (if isMergeForbidden text pair.1 = true then _ else
    if pair.1 ≠ js "set-cookie" ∧ headers.has pair.1 = true ∧ pair.1 ∉ merged then _ else _) = _
  split at h
  · next hforbidden =>
      obtain rfl := Option.some.inj h
      rw [if_pos hforbidden]
  · next hforbidden =>
      rw [if_neg hforbidden]
      split at h
      · next hskip =>
          obtain rfl := Option.some.inj h
          rw [if_pos hskip]
      · next hskip =>
          rw [if_neg hskip]
          obtain ⟨next, hnext, rfl⟩ := Option.map_eq_some_iff.mp h
          rw [mergeItem_unguarded append_unguarded _ _ _ _ hnext]
          rfl

theorem applyAbsentHeaders_spec {text : FieldText} {headers after : Headers} {error : HttpError}
    {staged : Option HeaderMap} (hnodup : (OrderedMap.keys (staged.getD [])).Nodup)
    (h : applyAbsentHeaders text headers error staged = some after) (n : JsString) :
    after.values n = mergedValues text error (staged.getD []) (headers.values n) n := by
  obtain ⟨copied, hcopied, hvalues⟩ :=
    applyAbsentHeaders_mutable text (rfl : headers.unguarded.immutable = false) error hnodup
  rw [applyAbsentHeaders] at h
  obtain ⟨filled, hfilled, h⟩ := Option.bind_eq_some_iff.mp h
  obtain ⟨⟨merged, added⟩, hmerged, hafter⟩ := Option.bind_eq_some_iff.mp h
  obtain rfl := Option.some.inj hafter
  have hsame : applyAbsentHeaders text headers.unguarded error staged = some merged.unguarded := by
    rw [applyAbsentHeaders, foldlM_simulates (mergeErrorHeader_unguarded text) _ hfilled]
    change ((flattenHeaders (staged.getD [])).foldlM (mergeStagedPair text)
      (filled.unguarded, []) >>= _) = _
    rw [foldlM_simulates (g := fun st => (st.1.unguarded, st.2)) (mergeStagedPair_unguarded text) _
      hmerged]
    rfl
  obtain rfl := Option.some.inj (hcopied.symm.trans hsame)
  exact hvalues n

/-! ### What a takeover carries -/

/-- A name but a cookie: the takeover's own value, else the error's, else the
staged one. -/
theorem getOf_mergedValues {text : FieldText} {error : HttpError} {staged : HeaderMap}
    {values : List JsString} {n : JsString} (hcookie : n ≠ js "set-cookie") :
    getOf (mergedValues text error staged values n) =
      (getOf values <|> getOf (firstFilling text n (error.headers.getD [])) <|>
        if isMergeForbidden text n = false then
          getOf (((OrderedMap.get? staged n).map acceptedWire).getD [])
        else none) := by
  have hsplit : ∀ filled : List JsString, getOf
      (if isMergeForbidden text n = false ∧ (n = js "set-cookie" ∨ filled = []) then
        filled ++ ((OrderedMap.get? staged n).map acceptedWire).getD [] else filled) =
      (getOf filled <|> if isMergeForbidden text n = false then
        getOf (((OrderedMap.get? staged n).map acceptedWire).getD []) else none) := by
    intro filled
    cases filled with
    | nil =>
        by_cases hallowed : isMergeForbidden text n = false
        · rw [if_pos ⟨hallowed, .inr rfl⟩, if_pos hallowed]
          rfl
        · rw [if_neg fun h => hallowed h.1, if_neg hallowed]
          rfl
    | cons value rest =>
        rw [if_neg fun h => h.2.elim hcookie nofun]
        rfl
  rw [mergedValues, hsplit, afterErrors]
  cases values with
  | nil => rfl
  | cons value rest => rfl

/-- Cookies are only added. -/
theorem mergedValues_cookie {text : FieldText} {error : HttpError} {staged : HeaderMap}
    {values : List JsString} (hallowed : isMergeForbidden text (js "set-cookie") = false) :
    mergedValues text error staged values (js "set-cookie") =
      afterErrors text error values (js "set-cookie") ++
        ((OrderedMap.get? staged (js "set-cookie")).map acceptedWire).getD [] := by
  rw [mergedValues]
  exact if_pos ⟨hallowed, .inl rfl⟩

/-- The merge reads the values that it finds as a client does. -/
theorem mergedValues_congr {text : FieldText} {error : HttpError} {staged : HeaderMap}
    {values others : List JsString} (h : values.map normalized = others.map normalized)
    (n : JsString) :
    (mergedValues text error staged values n).map normalized =
      (mergedValues text error staged others n).map normalized := by
  have hnil : values = [] ↔ others = [] := by
    rw [← List.map_eq_nil_iff (f := normalized), h, List.map_eq_nil_iff]
  have hfilled : (afterErrors text error values n).map normalized =
      (afterErrors text error others n).map normalized := by
    rw [afterErrors, afterErrors]
    by_cases hfree : values = []
    · rw [if_pos hfree, if_pos (hnil.mp hfree)]
    · rw [if_neg hfree, if_neg (mt hnil.mpr hfree), h]
  have hnone : afterErrors text error values n = [] ↔ afterErrors text error others n = [] := by
    rw [← List.map_eq_nil_iff (f := normalized), hfilled, List.map_eq_nil_iff]
  rw [mergedValues, mergedValues]
  simp only [hnone]
  split
  · rw [List.map_append, List.map_append, hfilled]
  · exact hfilled

/-- The merge on any response, in place or on a rebuilt one. -/
theorem mergeAbsentHeaders_spec (runtime : Runtime β) (text : FieldText) (error : HttpError)
    {res : Response β} {staged : Option HeaderMap}
    (hnodup : (OrderedMap.keys (staged.getD [])).Nodup) (hlow : 200 ≤ res.status)
    (hhigh : res.status ≤ 599) (hnull : isNullBodyStatus res.status = true → res.body = none) :
    ∃ final, (mergeAbsentHeaders runtime text res error staged : Except (Thrown τ) _) = .ok final ∧
      final.status = res.status ∧
      final.headers.reading (js "set-cookie") =
        (mergedValues text error (staged.getD []) (res.headers.values (js "set-cookie"))
          (js "set-cookie")).map normalized ∧
      ∀ n, n ≠ js "set-cookie" → (final.headers.get n).map normalized =
        (res.headers.get n <|> getOf (firstFilling text n (error.headers.getD [])) <|>
          if isMergeForbidden text n = false then
            getOf (((OrderedMap.get? (staged.getD []) n).map acceptedWire).getD [])
          else none).map normalized := by
  rw [mergeAbsentHeaders]
  split
  · next after hafter =>
      have hvalues := fun n => applyAbsentHeaders_spec hnodup hafter n
      refine ⟨{ res with headers := after }, rfl, rfl, ?_, fun n hn => ?_⟩
      · rw [Headers.reading_cookie]
        dsimp only
        rw [hvalues]
      · rw [Headers.get]
        dsimp only
        rw [hvalues, getOf_mergedValues hn]
        rfl
  · obtain ⟨rebuilt, hrebuilt, hstatus, -, hheaders⟩ := construct_ok (τ := τ) runtime res.body
      res.statusText (mutableHeaderCopy res.headers).copy hlow hhigh hnull
    have hopen : rebuilt.headers.immutable = false := by rw [hheaders]; rfl
    obtain ⟨after, hafter, hvalues⟩ := applyAbsentHeaders_mutable text hopen error hnodup
    have hcopy : ∀ n, rebuilt.headers.values n = res.headers.reading n := by
      intro n
      rw [hheaders]
      exact (Headers.values_copy _ n).trans (Headers.reading_copy _ n)
    rw [hrebuilt]
    refine ⟨{ rebuilt with headers := after }, ?_, hstatus, ?_, fun n hn => ?_⟩
    · change Except.ok _ = Except.ok _
      rw [hafter]
      rfl
    · rw [Headers.reading_cookie]
      dsimp only
      rw [hvalues, hcopy, Headers.reading_cookie]
      apply mergedValues_congr
      rw [List.map_map]
      apply List.map_congr_left
      exact fun value _ => normalized_normalized value
    · rw [Headers.get]
      dsimp only
      rw [hvalues, hcopy, getOf_mergedValues hn, Headers.reading_eq _ hn]
      cases hget : res.headers.get n with
      | none => rfl
      | some text => exact congrArg some (normalized_normalized text)

structure Servable (out : Takeover β) : Prop where
  proper : out.errorType = false
  unused : out.bodyUsed = false
  unlocked : out.res.body.any Body.locked = false
  low : 200 ≤ out.res.status
  high : out.res.status ≤ 599

structure TakenOver (text : FieldText) (c : Context σ β) (error : HttpError) (out : Response β)
    (res : Response β) : Prop where
  status : res.status = out.status
  /-- Every other name: the takeover's own value, else the error's, else the
  staged or committed one. -/
  kept : ∀ n, text.lower n = n → n ∉ MERGE_FORBIDDEN_CONTENT → n ∉ MERGE_FORBIDDEN_NAMES →
    n ≠ js "set-cookie" → (res.headers.get n).map normalized =
      (out.headers.get n <|> getOf (firstFilling text n (error.headers.getD [])) <|>
        getOf (((sourceAt c n).map wireOf).getD [])).map normalized
  /-- Cookies of the takeover, staged ones and committed ones. -/
  cookies : ∀ value, value ∈ out.headers.getSetCookie ∨ value ∈ cookieSources c ∧ value ≠ [] →
    normalized value ∈ res.headers.reading (js "set-cookie")
  ownCookies : out.headers.getSetCookie = [] →
    ∀ value ∈ firstFilling text (js "set-cookie") (error.headers.getD []),
      normalized value ∈ res.headers.reading (js "set-cookie")
  /-- Nothing describes the discarded body. -/
  content : ∀ n ∈ MERGE_FORBIDDEN_CONTENT, text.lower n = n →
    (res.headers.get n).map normalized = (out.headers.get n).map normalized ∨
      res.headers.get n = none

/-- The wire-safety rules keep all but the content describing headers. -/
theorem safe_takeover (runtime : Runtime β) (method : JsString) {res : Response β}
    (hlow : 200 ≤ res.status) (hhigh : res.status ≤ 599) :
    ∃ safe base, (sanitized runtime res : Except (Thrown τ) _) = .ok safe ∧
      (stripped runtime method safe : Except (Thrown τ) _) = .ok base ∧
      base.status = res.status ∧ (isNullBodyStatus base.status = true → base.body = none) ∧
      ∀ n, base.headers.reading n = res.headers.reading n ∨
        base.headers.reading n = [] ∧ n ∈ CONTENT_HEADERS := by
  have hempty : isNullBodyStatus res.status = true → isEmptyStatus res.status = true := by
    rw [isNullBodyStatus, isEmptyStatus]
    simp only [Bool.or_eq_true, decide_eq_true_eq]
    omega
  have hsafe : ∃ safe, (sanitized runtime res : Except (Thrown τ) _) = .ok safe ∧
      safe.status = res.status ∧ (isNullBodyStatus safe.status = true → safe.body = none) ∧
      ∀ n, safe.headers.reading n = res.headers.reading n ∨
        safe.headers.reading n = [] ∧ n ∈ CONTENT_HEADERS := by
    rw [sanitized]
    split
    · obtain ⟨safe, hsafe, hstatus, hbody, hheaders⟩ := construct_ok (τ := τ) runtime none
        res.statusText (withoutContentHeaders res.headers).copy hlow hhigh fun _ => rfl
      refine ⟨safe, hsafe, hstatus, fun _ => hbody, fun n => ?_⟩
      have hread : safe.headers.reading n = (withoutContentHeaders res.headers).reading n := by
        rw [hheaders]
        exact Headers.reading_copy _ n
      rw [hread, reading_withoutContent]
      split
      · next hn => exact .inr ⟨rfl, hn⟩
      · exact .inl rfl
    · next hclean =>
        refine ⟨res, rfl, rfl, fun hnull => ?_, fun _ => .inl rfl⟩
        rw [hempty hnull, Bool.true_and, Bool.not_eq_true] at hclean
        exact Option.not_isSome_iff_eq_none.mp (by simp [hclean])
  obtain ⟨safe, hok, hstatus, hnull, hvalues⟩ := hsafe
  by_cases hhead : method = js "HEAD" ∧ safe.body.isSome = true
  · obtain ⟨base, hbase, hsame, hbody, hheaders⟩ := construct_ok (τ := τ) runtime none
      safe.statusText safe.headers.copy (hstatus ▸ hlow) (hstatus ▸ hhigh) fun _ => rfl
    refine ⟨safe, base, hok, ?_, hsame.trans hstatus, fun _ => hbody, fun n => ?_⟩
    · rw [stripped, if_pos hhead]
      exact hbase
    · have hcopied : base.headers.reading n = safe.headers.reading n := by
        rw [hheaders]
        exact Headers.reading_copy _ n
      rw [hcopied]
      exact hvalues n
  · refine ⟨safe, safe, hok, ?_, hstatus, hnull, hvalues⟩
    rw [stripped, if_neg hhead]

/-- The sources hold what was staged and committed. -/
theorem sources_wire {c : Context σ β} (hc : Legal c) {n : JsString}
    (hcookie : n ≠ js "set-cookie") :
    ((OrderedMap.get? ((reconciledHeaderSources c).getD []) n).map acceptedWire).getD [] =
      ((sourceAt c n).map wireOf).getD [] := by
  rw [(reconciled_spec hc.nodup).2.1 n hcookie]
  cases hsource : sourceAt c n with
  | none => rfl
  | some value =>
      have hlegal := legal_sourceAt hc hsource
      have hall : (writtenItems value).filter fetchAccepts = writtenItems value :=
        List.filter_eq_self.mpr fun item hitem => hlegal item (itemsOf_of_writtenItems hitem)
      change acceptedWire value = wireOf value
      rw [acceptedWire, accepted, hall, wireOf_eq]

theorem sources_cookies {c : Context σ β} (hc : Legal c) {value : JsString}
    (h : value ∈ cookieSources c) (hne : value ≠ []) :
    normalized value ∈ ((OrderedMap.get? ((reconciledHeaderSources c).getD [])
      (js "set-cookie")).map acceptedWire).getD [] := by
  have hlegal := legal_cookieSources hc value h
  rw [← (reconciled_spec hc.nodup).2.2] at h
  cases hsource : OrderedMap.get? ((reconciledHeaderSources c).getD []) (js "set-cookie") with
  | none =>
      rw [hsource] at h
      cases h
  | some cookies =>
      rw [hsource] at h
      exact List.mem_map_of_mem (List.mem_filter.mpr ⟨mem_writtenItems h hne, hlegal⟩)

theorem not_forbidden {text : FieldText} {n : JsString} (hlower : text.lower n = n)
    (hcontent : n ∉ MERGE_FORBIDDEN_CONTENT) (hname : n ∉ MERGE_FORBIDDEN_NAMES) :
    isMergeForbidden text n = false := by
  rw [isMergeForbidden, hlower]
  simp [hcontent, hname]

theorem map_orElse (f : JsString → JsString) (a b : Option JsString) :
    (a <|> b).map f = (a.map f <|> b.map f) := by
  cases a <;> rfl

theorem content_subset : CONTENT_HEADERS ⊆ MERGE_FORBIDDEN_CONTENT := by decide

/-- No entry fills a content describing name. -/
theorem firstFilling_content {text : FieldText} {n : JsString}
    (hn : n ∈ MERGE_FORBIDDEN_CONTENT) (entries : HeaderMap) :
    firstFilling text n entries = [] := by
  induction entries with
  | nil => rfl
  | cons entry entries ih =>
      rw [firstFilling, if_neg, ih]
      rintro ⟨⟨hallowed, -, hname⟩, -⟩
      rw [isMergeForbidden, hname] at hallowed
      simp [hn] at hallowed

section

variable {text : FieldText} {c : Context σ β} {error : HttpError} {out : Response β}

/-- Where nothing is inherited, the takeover is served as it is. -/
theorem untouched_takenOver (hc : Legal c) (hheaders : error.headers = none)
    (hsources : reconciledHeaderSources c = none) : TakenOver text c error out out := by
  obtain ⟨-, hplain, hcookies⟩ := reconciled_spec hc.nodup
  rw [hsources] at hplain hcookies
  refine ⟨rfl, fun n _ _ _ hn => ?_, fun value hvalue => ?_, fun _ value hvalue => ?_,
    fun _ _ _ => .inl rfl⟩
  · rw [hheaders, ← hplain n hn]
    change _ = (out.headers.get n <|> none).map normalized
    cases out.headers.get n <;> rfl
  · rcases hvalue with hown | ⟨hsource, -⟩
    · rw [Headers.reading_cookie]
      exact List.mem_map_of_mem hown
    · rw [← hcookies] at hsource
      cases hsource
  · rw [hheaders] at hvalue
    cases hvalue

/-- What the merge makes of a base that has the takeover's headers, but perhaps
not the content describing ones. -/
theorem merged_takenOver {base res : Response β} (hc : Legal c)
    (hcookie : text.lower (js "set-cookie") = js "set-cookie")
    (hvalues : ∀ n, base.headers.reading n = out.headers.reading n ∨
      base.headers.reading n = [] ∧ n ∈ CONTENT_HEADERS)
    (hstatus : res.status = out.status)
    (hjoined : res.headers.reading (js "set-cookie") =
      (mergedValues text error ((reconciledHeaderSources c).getD [])
        (base.headers.values (js "set-cookie")) (js "set-cookie")).map normalized)
    (hkept : ∀ n, n ≠ js "set-cookie" → (res.headers.get n).map normalized =
      (base.headers.get n <|> getOf (firstFilling text n (error.headers.getD [])) <|>
        if isMergeForbidden text n = false then
          getOf (((OrderedMap.get? ((reconciledHeaderSources c).getD []) n).map
            acceptedWire).getD [])
        else none).map normalized) :
    TakenOver text c error out res := by
  have howned : base.headers.reading (js "set-cookie") = out.headers.reading (js "set-cookie") :=
    (hvalues (js "set-cookie")).resolve_right fun h => absurd h.2 (by decide)
  rw [Headers.reading_cookie, Headers.reading_cookie] at howned
  rw [mergedValues_congr howned,
    mergedValues_cookie (not_forbidden hcookie (by decide) (by decide)), afterErrors] at hjoined
  change _ = ((if out.headers.getSetCookie = [] then _ else out.headers.getSetCookie) ++
    _).map normalized at hjoined
  refine ⟨hstatus, fun n hlower hcontent hname hn => ?_, fun value hvalue => ?_,
    fun hnone value hvalue => ?_, fun n hn hlower => ?_⟩
  · have hown : (base.headers.get n).map normalized = (out.headers.get n).map normalized := by
      rcases hvalues n with heq | ⟨-, hdropped⟩
      · exact (Headers.reading_eq_iff hn).mp heq
      · exact absurd (content_subset hdropped) hcontent
    rw [hkept n hn, if_pos (not_forbidden hlower hcontent hname), sources_wire hc hn]
    simp only [map_orElse, hown]
  · rcases hvalue with hown | ⟨hsource, hne⟩
    · rw [hjoined, if_neg (List.ne_nil_of_mem hown)]
      exact List.mem_map_of_mem (List.mem_append_left _ hown)
    · rw [hjoined]
      have hstored := List.mem_map_of_mem (f := normalized) (sources_cookies hc hsource hne)
      rw [normalized_normalized] at hstored
      rw [List.map_append]
      exact List.mem_append_right _ hstored
  · rw [hjoined, if_pos hnone]
    exact List.mem_map_of_mem (List.mem_append_left _ hvalue)
  · have hn' : n ≠ js "set-cookie" := by
      rintro rfl
      exact absurd hn (by decide)
    have hforbidden : ¬isMergeForbidden text n = false := by
      rw [isMergeForbidden, hlower]
      simp [hn]
    have hread := hkept n hn'
    rw [firstFilling_content hn, if_neg hforbidden] at hread
    have hbaseRead :
        (res.headers.get n).map normalized = (base.headers.get n).map normalized := by
      rw [hread]
      cases base.headers.get n <;> rfl
    rcases hvalues n with heq | ⟨hnil, -⟩
    · rw [hbaseRead]
      exact .inl ((Headers.reading_eq_iff hn').mp heq)
    · rw [(Headers.reading_eq_nil_iff _ _).mp hnil] at hbaseRead
      exact .inr (Option.map_eq_none_iff.mp hbaseRead)

end

/-- A takeover keeps its own headers, and fills in what was staged and committed. -/
theorem finalizeTakeoverResponse_takenOver {runtime : Runtime β} {text : FieldText}
    {c : Context σ β} {out : Takeover β} {error : HttpError} (hc : Legal c) (hout : Servable out)
    (hcookie : text.lower (js "set-cookie") = js "set-cookie") :
    ∃ res, (finalizeTakeoverResponse runtime text c out error : Except (Thrown τ) _) = .ok res ∧
      TakenOver text c error out.res res := by
  rw [finalizeTakeoverResponse, hout.proper, hout.unused, hout.unlocked]
  rw [if_neg (by decide)]
  dsimp only
  split
  · next hfast =>
      obtain ⟨-, -, hheaders, hsources⟩ := hfast
      exact ⟨out.res, rfl, untouched_takenOver hc (Option.isNone_iff_eq_none.mp hheaders)
        (Option.isNone_iff_eq_none.mp hsources)⟩
  · obtain ⟨safe, base, hsafe, hbase, hstatus, hnull, hvalues⟩ :=
      safe_takeover (τ := τ) runtime c.method hout.low hout.high
    have hlow : 200 ≤ base.status := hstatus ▸ hout.low
    have hhigh : base.status ≤ 599 := hstatus ▸ hout.high
    obtain ⟨hnodup, -, -⟩ := reconciled_spec hc.nodup
    obtain ⟨res, hres, hsame, hjoined, hkept⟩ :=
      mergeAbsentHeaders_spec (τ := τ) runtime text error hnodup hlow hhigh hnull
    refine ⟨res, ?_, merged_takenOver hc hcookie hvalues (hsame.trans hstatus) hjoined hkept⟩
    rw [hsafe]
    change (stripped runtime c.method safe >>= _) = _
    rw [hbase]
    exact hres

/-! ### The funnel -/

def committedContext (headers : List (JsString × JsString)) : Context Unit JsString :=
  { getContext with
    staged := ⟨some [(js "x-frame-options", .one (js "DENY"))], ()⟩
    res := some ⟨200, [], ⟨headers, false⟩, none⟩ }

def unauthorized : Throwable :=
  .error ⟨true, some 401, true, js "who", some [(js "WWW-Authenticate", .one (js "Basic"))], false⟩

def envelope : ErrorMapper Unit JsString :=
  fun c _ => (c, .takesOver ⟨⟨503, [], .empty, none⟩, false, false⟩)

end Keala.Core
