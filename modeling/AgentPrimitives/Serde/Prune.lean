import AgentPrimitives.Serde.Simulation

/-!
# Unknown members

A document may have members that its layout does not know. Erasing them at any
depth (`prune`), but not in values, leaves a document without unknown members
(`Node.known_of_readAs_prune`), no deeper than it was (`depth_prune_le`), from
which the same is read: pruning is a simulation in both directions
(`simulation_prune`, `simulation_unprune`).
-/

namespace Serde

open Json

variable {κ : Type}

/-- The layout of the document of a field, if it is a struct or an enum. -/
def Shape.layout? (S : κ → Layout κ) : Shape κ → Option (Layout κ)
  | .one k => if (S k).Structured then some (S k) else none
  | .optional k => if (S k).Structured then some (S k) else none
  | _ => none

section Prune

variable (S : κ → Layout κ)

mutual

/-- The document without the members that are not read, given what it is read
    as. -/
def pruneAs (r : Route) (s : Shape κ) : Json → Json
  | .object ms =>
    match s.layout? S with
    | some l => .object (pruneMembers (l.route r) (l.entries r (.object ms)) ms)
    | none => .object ms
  | .array xs =>
    match s with
    | .many k => .array (pruneList r k xs)
    | s =>
      match s.layout? S with
      | some l => .array (pruneElements (l.route r) (l.entries r (.array xs)) xs)
      | none => .array xs
  | j => j

/-- The members that are read, each pruned as its field. -/
def pruneMembers (r : Route) (entries : List (String × Shape κ)) : Members Json → Members Json
  | [] => []
  | (key, x) :: ms =>
    match entries.lookup key with
    | some s => (key, pruneAs r s x) :: pruneMembers r entries ms
    | none => pruneMembers r entries ms

/-- The elements of an array of fields, each pruned as its field. None is dropped:
    elements that remain are not unknown, but wrong. -/
def pruneElements (r : Route) : List (String × Shape κ) → List Json → List Json
  | _, [] => []
  | [], x :: xs => x :: xs
  | (_, s) :: entries, x :: xs => pruneAs r s x :: pruneElements r entries xs

/-- The elements of an array of documents, each pruned. -/
def pruneList (r : Route) (k : κ) : List Json → List Json
  | [] => []
  | x :: xs => pruneAs r (.one k) x :: pruneList r k xs

end

/-- The document without unknown members. -/
def prune (r : Route) (k : κ) : Json → Json := pruneAs S r (.one k)

/-- The document pruned, and read as before. -/
def Node.prune (n : Node κ) : Node κ := ⟨n.route, n.kind, Serde.prune S n.route n.kind n.doc⟩

variable {S} {r : Route} {s : Shape κ} {k : κ}

@[simp] theorem pruneAs_scalar (x : Json) : pruneAs S r .scalar x = x := by
  cases x <;> rfl

theorem pruneAs_optional (x : Json) : pruneAs S r (.optional k) x = prune S r k x := by
  cases x <;> rfl

theorem pruneList_eq (xs : List Json) : pruneList S r k xs = xs.map (prune S r k) := by
  induction xs with
  | nil => rfl
  | cons x xs ih => rw [pruneList, ih, List.map_cons, prune]

/-- Values and scalars are not pruned. -/
theorem prune_of_not_structured (hS : ¬(S k).Structured) (x : Json) : prune S r k x = x := by
  cases x <;> simp [prune, pruneAs, Shape.layout?, hS]

theorem prune_object (hS : (S k).Structured) (ms : Members Json) : prune S r k (.object ms) =
    .object (pruneMembers S ((S k).route r) ((S k).entries r (.object ms)) ms) := by
  simp [prune, pruneAs, Shape.layout?, hS]

theorem prune_array (hS : (S k).Structured) (xs : List Json) : prune S r k (.array xs) =
    .array (pruneElements S ((S k).route r) ((S k).entries r (.array xs)) xs) := by
  simp [prune, pruneAs, Shape.layout?, hS]

/-! ## What is found in a pruned document -/

variable {entries : List (String × Shape κ)} {name : String}

/-- The members of a known field are pruned, and none is dropped. -/
theorem filter_pruneMembers (h : entries.lookup name = some s) (ms : Members Json) :
    (pruneMembers S r entries ms).filter (fun m => m.1 = name) =
      Map.mapValues (pruneAs S r s) (ms.filter fun m => m.1 = name) := by
  induction ms with
  | nil => rfl
  | cons m ms ih =>
    by_cases hm : m.1 = name
    · rw [pruneMembers, hm, h]
      simp [hm, ih]
    · rw [pruneMembers, List.filter_cons_of_neg (by simpa using hm), ← ih]
      split
      · rw [List.filter_cons_of_neg (by simpa using hm)]
      · rfl

/-- The element of a known field is pruned in its place. -/
theorem getElem?_pruneElements {i : ℕ} (h : entries[i]? = some (name, s)) (xs : List Json) :
    (pruneElements S r entries xs)[i]? = xs[i]?.map (pruneAs S r s) := by
  induction entries generalizing i xs with
  | nil => cases h
  | cons entry entries ih =>
    cases xs with
    | nil => rfl
    | cons x xs =>
      cases i with
      | zero =>
        cases h
        rfl
      | succ i => exact ih h xs

/-- No element of an array is dropped. -/
theorem length_pruneElements (xs : List Json) :
    (pruneElements S r entries xs).length = xs.length := by
  induction entries generalizing xs with
  | nil => cases xs <;> rfl
  | cons entry entries ih =>
    cases xs with
    | nil => rfl
    | cons x xs => rw [pruneElements, List.length_cons, ih, List.length_cons]

/-- Only members of known fields are left. -/
theorem mem_keys_pruneMembers {ms : Members Json} {key : String}
    (h : key ∈ Map.keys (pruneMembers S r entries ms)) : key ∈ Map.keys entries := by
  induction ms with
  | nil => cases h
  | cons m ms ih =>
    rw [pruneMembers] at h
    split at h
    · rename_i s hs
      rcases List.mem_cons.1 h with rfl | h
      · exact Map.mem_keys_of_mem (Map.mem_of_lookup hs)
      · exact ih h
    · exact ih h

/-- An object stays one, and so does an array. -/
theorem sameForm_prune (hS : (S k).Structured) (d : Json) :
    d.SameForm (prune S r k d) ∧ (prune S r k d).SameForm d := by
  cases d with
  | object ms => rw [prune_object hS]; exact ⟨trivial, trivial⟩
  | array xs =>
    rw [prune_array hS]
    exact ⟨(length_pruneElements xs).symm, length_pruneElements xs⟩
  | _ => exact ⟨trivial, trivial⟩

/-- A tag that is found as before selects as before. -/
theorem selects_of_candidates {tag : String} {names : List String} {d y : Json}
    (hform : d.SameForm y) (h : y.candidates tag 0 = d.candidates tag 0) {i : ℕ}
    (hi : r.selects tag names d = some i) : r.selects tag names y = some i := by
  have hrel : List.Forall₂ ((Shape.scalar : Shape Unit).Rel (fun _ _ => True) r)
      (d.candidates tag 0) (y.candidates tag 0) :=
    h ▸ List.forall₂_same.2 fun x _ => .scalar x
  exact selects_of_rel hform (fun _ => hrel) hi

/-- No two fields of a struct have the same name, or that of the tag. -/
def Layout.DistinctFields : Layout κ → Prop
  | .value => True
  | .scalar => True
  | .struct fields => (Map.keys fields).Nodup
  | .tagged tag variants => ∀ v ∈ variants, (tag :: Map.keys v.2).Nodup

/-- Distinct fields have distinct names, the tag included. -/
theorem Layout.DistinctFields.nodup {l : Layout κ} (h : l.DistinctFields) (r : Route) (d : Json) :
    (Map.keys (l.entries r d)).Nodup := by
  cases l with
  | value => exact List.nodup_nil
  | scalar => exact List.nodup_nil
  | struct fields => exact h
  | tagged tag variants =>
    rw [Layout.entries, Layout.fields, Map.keys_cons]
    cases hfields : (r.selects tag (Map.keys variants) d).bind
        fun i => (variants[i]?).map Prod.snd with
    | none => exact List.nodup_singleton tag
    | some fields =>
      obtain ⟨i, -, hi⟩ := Option.bind_eq_some_iff.1 hfields
      obtain ⟨v, hv, rfl⟩ := Option.map_eq_some_iff.1 hi
      exact h v (List.mem_of_getElem? hv)

/-- Fields are related if their candidates are, one field at a time. -/
theorem fieldsRel_of_candidates {R : Node κ → Json → Prop} {d d' : Json} {i : ℕ}
    (h : ∀ j name s, entries[j]? = some (name, s) →
      List.Forall₂ (s.Rel R r) (d.candidates name (i + j)) (d'.candidates name (i + j))) :
    FieldsRel R r d d' i entries := by
  induction entries generalizing i with
  | nil => trivial
  | cons entry entries ih =>
    refine ⟨fun _ => h 0 entry.1 entry.2 rfl, ih fun j name s hj => ?_⟩
    rw [Nat.succ_add, ← Nat.add_succ]
    exact h (j + 1) name s hj

/-- Only structs and enums have fields. -/
theorem structured_of_entries {l : Layout κ} {d : Json} {i : ℕ}
    (h : (l.entries r d)[i]? = some (name, s)) : l.Structured := by
  cases l with
  | value => cases h
  | scalar => cases h
  | _ => trivial

/-- Nothing is made null by pruning it. -/
@[simp] theorem prune_eq_null {x : Json} : prune S r k x = .null ↔ x = .null := by
  cases x with
  | array xs =>
    by_cases hk : (S k).Structured
    · simp [prune_array hk]
    · rw [prune_of_not_structured hk]
  | object ms =>
    by_cases hk : (S k).Structured
    · simp [prune_object hk]
    · rw [prune_of_not_structured hk]
  | _ => exact Iff.rfl

theorem pruneAs_many {x : Json} (h : ∀ xs, x ≠ .array xs) : pruneAs S r (.many k) x = x := by
  cases x with
  | array xs => exact absurd rfl (h xs)
  | _ => rfl

theorem pruneAs_many_array (xs : List Json) :
    pruneAs S r (.many k) (.array xs) = .array (xs.map (prune S r k)) := by
  rw [pruneAs, pruneList_eq]

/-- A field is related to what is left of it. -/
theorem Shape.rel_prune (s : Shape κ) (x : Json) :
    s.Rel (fun n y => y = (n.prune S).doc) r x (pruneAs S r s x) := by
  cases s with
  | scalar => exact (pruneAs_scalar x).symm ▸ .scalar x
  | one k => exact .one rfl
  | optional k =>
    rw [pruneAs_optional]
    by_cases hx : x = .null
    · exact hx ▸ .null k
    · exact .optional hx (mt prune_eq_null.1 hx) rfl
  | many k =>
    by_cases hx : ∀ xs, x ≠ .array xs
    · exact .other _ hx
    · push Not at hx
      obtain ⟨xs, rfl⟩ := hx
      rw [pruneAs_many_array]
      exact .many (List.forall₂_map_right_iff.2 (List.forall₂_same.2 fun x _ => rfl))

/-- What is left of a field is related to it. -/
theorem Shape.rel_unprune (s : Shape κ) (x : Json) :
    s.Rel (fun n y => n.doc = prune S n.route n.kind y) r (pruneAs S r s x) x := by
  cases s with
  | scalar => exact (pruneAs_scalar x).symm ▸ .scalar x
  | one k => exact .one rfl
  | optional k =>
    rw [pruneAs_optional]
    by_cases hx : x = .null
    · exact hx ▸ .null k
    · exact .optional (mt prune_eq_null.1 hx) hx rfl
  | many k =>
    by_cases hx : ∀ xs, x ≠ .array xs
    · exact (pruneAs_many hx).symm ▸ .other _ hx
    · push Not at hx
      obtain ⟨xs, rfl⟩ := hx
      rw [pruneAs_many_array]
      exact .many (List.forall₂_map_left_iff.2 (List.forall₂_same.2 fun x _ => rfl))

/-- A member that is left is what is left of a member. -/
theorem mem_pruneMembers {m : String × Json} {ms : Members Json}
    (h : m ∈ pruneMembers S r entries ms) : ∃ m' ∈ ms, ∃ s, m.2 = pruneAs S r s m'.2 := by
  induction ms with
  | nil => cases h
  | cons m' ms ih =>
    have hrest : m ∈ pruneMembers S r entries ms →
        ∃ m'' ∈ m' :: ms, ∃ s, m.2 = pruneAs S r s m''.2 := by
      intro h
      obtain ⟨m'', hm'', hs⟩ := ih h
      exact ⟨m'', List.mem_cons_of_mem m' hm'', hs⟩
    rw [pruneMembers] at h
    split at h
    · rename_i s _
      rcases List.mem_cons.1 h with rfl | h
      exacts [⟨m', List.mem_cons_self, s, rfl⟩, hrest h]
    · exact hrest h

/-- An element that is left is what is left of an element. -/
theorem mem_pruneElements {x : Json} {xs : List Json} (h : x ∈ pruneElements S r entries xs) :
    ∃ y ∈ xs, ∃ s, x = pruneAs S r s y := by
  induction entries generalizing xs with
  | nil =>
    cases xs with
    | nil => cases h
    | cons y xs => exact ⟨x, h, .scalar, (pruneAs_scalar x).symm⟩
  | cons entry entries ih =>
    cases xs with
    | nil => cases h
    | cons y xs =>
      rcases List.mem_cons.1 h with rfl | h
      · exact ⟨y, List.mem_cons_self, entry.2, rfl⟩
      · obtain ⟨z, hz, hs⟩ := ih h
        exact ⟨z, List.mem_cons_of_mem y hz, hs⟩

/-- Pruning adds no level. -/
theorem depth_pruneAs_le (s : Shape κ) (d : Json) : (pruneAs S r s d).depth ≤ d.depth := by
  induction d generalizing r s with
  | array xs ih =>
    have hprune : ∀ k, (prune S r k (.array xs)).depth ≤ depth (.array xs) := by
      intro k
      by_cases hk : (S k).Structured
      · rw [prune_array hk, depth_array_le_iff]
        refine ⟨depth_array_pos xs, fun x hx => ?_⟩
        obtain ⟨y, hy, s, rfl⟩ := mem_pruneElements hx
        exact (ih y hy s).trans_lt (depth_lt_array hy)
      · rw [prune_of_not_structured hk]
    cases s with
    | scalar => rw [pruneAs_scalar]
    | one k => exact hprune k
    | optional k => exact pruneAs_optional (S := S) (.array xs) ▸ hprune k
    | many k =>
      rw [pruneAs_many_array, depth_array_le_iff, List.forall_mem_map]
      exact ⟨depth_array_pos xs, fun x hx => (ih x hx (.one k)).trans_lt (depth_lt_array hx)⟩
  | object ms ih =>
    have hprune : ∀ k, (prune S r k (.object ms)).depth ≤ depth (.object ms) := by
      intro k
      by_cases hk : (S k).Structured
      · rw [prune_object hk, depth_object_le_iff]
        refine ⟨depth_object_pos ms, fun m hm => ?_⟩
        obtain ⟨m', hm', s, hs⟩ := mem_pruneMembers hm
        exact hs ▸ (ih m' hm' s).trans_lt (depth_lt_object hm')
      · rw [prune_of_not_structured hk]
    cases s with
    | scalar => rw [pruneAs_scalar]
    | one k => exact hprune k
    | optional k => exact pruneAs_optional (S := S) (.object ms) ▸ hprune k
    | many k => rw [pruneAs_many (by simp)]
  | _ => exact le_rfl

/-- What is read of a pruned field is what is read of the field, pruned. -/
theorem Shape.parts_prune (s : Shape κ) (x : Json) :
    s.parts r (pruneAs S r s x) = (s.parts r x).map (Node.prune S) := by
  cases s with
  | scalar => rfl
  | one k => rfl
  | optional k =>
    rw [pruneAs_optional]
    by_cases hx : x = .null
    · rw [hx]
      rfl
    · rw [parts_optional hx, parts_optional (mt prune_eq_null.1 hx)]
      rfl
  | many k =>
    cases x with
    | array xs =>
      rw [pruneAs_many_array, parts, parts, List.map_map, List.map_map]
      rfl
    | _ => rfl

section DistinctFields

variable (hS : ∀ k, (S k).DistinctFields)

include hS

/-- What a field is found as in a pruned document. -/
theorem candidates_prune (hk : (S k).Structured) {d : Json} {i : ℕ}
    (h : ((S k).entries r d)[i]? = some (name, s)) :
    (prune S r k d).candidates name i =
      (d.candidates name i).map (pruneAs S ((S k).route r) s) := by
  cases d with
  | object ms =>
    have hlookup := Map.lookup_of_mem ((hS k).nodup r (.object ms)) (List.mem_of_getElem? h)
    rw [prune_object hk, candidates, candidates, filter_pruneMembers hlookup, Map.mapValues,
      List.map_map, List.map_map]
    rfl
  | array xs =>
    rw [prune_array hk, candidates, candidates, getElem?_pruneElements h, Option.toList_map]
  | _ => rfl

/-- The tag is not pruned, so the same fields are read. -/
theorem entries_prune (d : Json) :
    (S k).entries r (prune S r k d) = (S k).entries r d := by
  cases hk : S k with
  | tagged tag variants =>
    have hstructured : (S k).Structured := by rw [hk]; trivial
    obtain ⟨hform, hform'⟩ := sameForm_prune (r := r) hstructured d
    have htag : (prune S r k d).candidates tag 0 = d.candidates tag 0 := by
      have := candidates_prune hS hstructured (d := d) (r := r) (i := 0) (by rw [hk]; rfl)
      rw [this]
      exact (List.map_congr_left fun x _ => pruneAs_scalar x).trans (List.map_id _)
    have hselects : r.selects tag (Map.keys variants) (prune S r k d) =
        r.selects tag (Map.keys variants) d :=
      Option.ext fun i => ⟨selects_of_candidates hform' htag.symm, selects_of_candidates hform htag⟩
    rw [Layout.entries, Layout.entries, Layout.fields, Layout.fields, hselects]
  | _ => rfl

/-! ## Pruning is a simulation -/

/-- Pruning keeps what is read. -/
theorem simulation_prune : Simulation S fun n y => y = (n.prune S).doc where
  value := by
    rintro n y rfl hk
    rw [Node.prune, prune_of_not_structured (hk ▸ id)]
  scalar := by
    rintro n y rfl hk
    exact .inl (prune_of_not_structured (hk ▸ id) n.doc)
  form := by
    rintro n y rfl hk
    exact (sameForm_prune hk n.doc).1
  entries := by
    rintro ⟨r, k, d⟩ y rfl
    refine fieldsRel_of_candidates fun j name s hj => ?_
    rw [Nat.zero_add, Node.prune, candidates_prune hS (structured_of_entries hj) hj]
    exact List.forall₂_map_right_iff.2 (List.forall₂_same.2 fun x _ => s.rel_prune x)

/-- Pruning adds nothing to what is read. -/
theorem simulation_unprune : Simulation S fun n y => n.doc = prune S n.route n.kind y where
  value := by
    rintro ⟨r, k, d⟩ y (rfl : d = prune S r k y) hk
    rw [prune_of_not_structured (hk ▸ id)]
  scalar := by
    rintro ⟨r, k, d⟩ y (rfl : d = prune S r k y) hk
    exact .inl (prune_of_not_structured (hk ▸ id) y).symm
  form := by
    rintro ⟨r, k, d⟩ y (rfl : d = prune S r k y) hk
    exact (sameForm_prune hk y).2
  entries := by
    rintro ⟨r, k, d⟩ y (rfl : d = prune S r k y)
    rw [entries_prune hS]
    refine fieldsRel_of_candidates fun j name s hj => ?_
    rw [Nat.zero_add, candidates_prune hS (structured_of_entries hj) hj]
    exact List.forall₂_map_left_iff.2 (List.forall₂_same.2 fun x _ => s.rel_unprune x)

/-- A decoder that follows the layout reads what is pruned as what it was. -/
theorem read_prune {α : Type} {read : Json → Option α}
    (h : ∀ (R : Node κ → Json → Prop) (d : Json), Simulation S R →
      (⟨r, k, d⟩ : Node κ).Follows R read) (d : Json) : read (prune S r k d) = read d := by
  refine Option.ext fun a => ⟨fun ha => ?_, fun ha => ?_⟩
  · exact h _ (prune S r k d) (simulation_unprune hS) d rfl a ha
  · exact h _ d (simulation_prune hS) (prune S r k d) rfl a ha

/-! ## What is left -/

omit hS in
theorem getElem?_entries (l : Layout κ) (d : Json) (j : ℕ) :
    (l.entries r d)[l.offset + j]? = (l.fields r d)[j]? := by
  cases l with
  | tagged tag variants => rw [Layout.offset, Nat.one_add, Layout.entries, List.getElem?_cons_succ]
  | value => rfl
  | scalar => rfl
  | struct fields =>
    change fields[0 + j]? = fields[j]?
    rw [Nat.zero_add]

/-- The variant is selected as before, since the tag is a known field. -/
theorem fields_prune (d : Json) : (S k).fields r (prune S r k d) = (S k).fields r d := by
  have h := entries_prune hS (r := r) (k := k) d
  cases hk : S k with
  | tagged tag variants =>
    rw [hk] at h
    exact (List.cons.inj h).2
  | _ => rfl

omit hS in
theorem fieldParts_of_candidates {d d' : Json} {i : ℕ} {fields : List (String × Shape κ)}
    (h : ∀ j name s, fields[j]? = some (name, s) →
      d'.candidates name (i + j) = (d.candidates name (i + j)).map (pruneAs S r s)) :
    fieldParts r d' i fields = (fieldParts r d i fields).map (Node.prune S) := by
  induction fields generalizing i with
  | nil => rfl
  | cons field fields ih =>
    have hrest := ih (i := i + 1) fun j name s hj => by
      rw [Nat.succ_add, ← Nat.add_succ]
      exact h (j + 1) name s hj
    have hhead := h 0 field.1 field.2 rfl
    rw [Nat.add_zero] at hhead
    rw [fieldParts, fieldParts, List.map_append, hrest, hhead, List.flatMap_map, List.map_flatMap]
    simp only [Shape.parts_prune]

/-- The parts of a pruned document are pruned. -/
theorem Node.parts_prune (n : Node κ) : (n.prune S).parts S = (n.parts S).map (Node.prune S) := by
  obtain ⟨r, k, d⟩ := n
  rw [parts, parts]
  change fieldParts ((S k).route r) (Serde.prune S r k d) (S k).offset
    ((S k).fields r (Serde.prune S r k d)) = _
  rw [fields_prune hS]
  refine fieldParts_of_candidates fun j name s hj => ?_
  rw [← getElem?_entries] at hj
  exact candidates_prune hS (structured_of_entries hj) hj

/-- What is read in a pruned document is what is read in the document, pruned. -/
theorem Node.readAs_prune {n m : Node κ} (h : ReadAs S (n.prune S) m) :
    ∃ n', ReadAs S n n' ∧ m = n'.prune S := by
  induction h with
  | refl => exact ⟨n, .refl, rfl⟩
  | tail _ hm ih =>
    obtain ⟨n', hn', rfl⟩ := ih
    rw [n'.parts_prune hS] at hm
    obtain ⟨n'', hn'', rfl⟩ := List.mem_map.1 hm
    exact ⟨n'', hn'.tail hn'', rfl⟩

omit hS in
/-- The document has no unknown member, unless it is any value or a scalar. -/
def Node.Known (S : κ → Layout κ) (n : Node κ) : Prop :=
  (S n.kind).Structured → ∀ ms, n.doc = .object ms → ∀ key ∈ Map.keys ms,
    key ∈ (S n.kind).names n.route n.doc

/-- No unknown member is left, at any depth. -/
theorem Node.known_of_readAs_prune {n m : Node κ} (h : ReadAs S (n.prune S) m) : m.Known S := by
  obtain ⟨⟨r, k, d⟩, -, rfl⟩ := readAs_prune hS h
  intro hk ms hms key hkey
  have hentries := entries_prune hS (r := r) (k := k) d
  change (S k).Structured at hk
  change Serde.prune S r k d = .object ms at hms
  change key ∈ (S k).names r (Serde.prune S r k d)
  rw [← Layout.keys_entries, hentries]
  cases d with
  | object ns =>
    rw [prune_object hk] at hms
    cases hms
    exact mem_keys_pruneMembers hkey
  | array xs =>
    rw [prune_array hk] at hms
    cases hms
  | _ => cases hms

end DistinctFields

end Prune

end Serde
