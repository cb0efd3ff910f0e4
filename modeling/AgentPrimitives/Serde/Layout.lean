import AgentPrimitives.Serde.Reorder

/-!
# Layouts

A layout says what the parts of a document are read as: the fields of a struct,
or of the variant that the tag of an internally tagged enum selects. From the
layouts of the kinds of a format, a document read as one kind has *parts* read
as other kinds (`Node.parts`), down to any depth (`ReadAs`).

A decoder is *lawful* at a document (`Node.Lawful`) if

* it makes the same of every reordering of the document, as long as the values
  in it have no repeated names; and
* it only accepts the document if, at any depth, no object has its tag or a
  field twice (`Node.Once`).

A struct is lawful if its fields are (`Node.Lawful.structOn`), and an enum if
its variants are (`Node.Lawful.taggedOn`).
-/

namespace Serde

variable {κ α τ : Type}

/-- What a field is read as: a scalar, a document of another kind, which may be
    null, or an array of such documents. -/
inductive Shape (κ : Type)
  | scalar
  | one (k : κ)
  | optional (k : κ)
  | many (k : κ)

/-- What a document is read as: any value, a scalar, a struct with the given fields,
    or an internally tagged enum, with the fields of its variants. -/
inductive Layout (κ : Type)
  | value
  | scalar
  | struct (fields : List (String × Shape κ))
  | tagged (tag : String) (variants : List (String × List (String × Shape κ)))

/-- A document, with the route by which it is read and what it is read as. -/
structure Node (κ : Type) where
  route : Route
  kind : κ
  doc : Json

/-- What a field may be read from: the members with its name, or the element
    with its index. -/
def Json.candidates (name : String) (i : ℕ) : Json → List Json
  | .object ms => (ms.filter fun m => m.1 = name).map Prod.snd
  | .array xs => xs[i]?.toList
  | _ => []

/-- The candidates for a field are nested less deeply than the document. -/
theorem Json.depth_lt_of_mem_candidates {name : String} {i : ℕ} {d x : Json}
    (h : x ∈ d.candidates name i) : x.depth < d.depth := by
  cases d with
  | object ms =>
    obtain ⟨m, hm, rfl⟩ := List.mem_map.1 h
    exact depth_lt_object (List.mem_of_mem_filter hm)
  | array xs => exact depth_lt_array (List.mem_of_getElem? (Option.mem_toList.1 h))
  | _ => cases h

/-- The documents a field is read from that are of some kind. -/
def Shape.parts (r : Route) : Shape κ → Json → List (Node κ)
  | .scalar, _ => []
  | .one k, x => [⟨r, k, x⟩]
  | .optional _, .null => []
  | .optional k, x => [⟨r, k, x⟩]
  | .many k, .array xs => xs.map fun x => ⟨r, k, x⟩
  | .many _, _ => []

namespace Layout

/-- The fields that are read, given the document. -/
def fields (r : Route) (d : Json) : Layout κ → List (String × Shape κ)
  | .value => []
  | .scalar => []
  | .struct fields => fields
  | .tagged tag variants => ((r.selects tag (Map.keys variants) d).bind
      fun i => (variants[i]?).map Prod.snd).getD []

/-- The names that are read, the tag included. -/
def names (r : Route) (d : Json) : Layout κ → List String
  | .tagged tag variants => tag :: Map.keys ((tagged tag variants).fields r d)
  | l => Map.keys (l.fields r d)

/-- The route by which fields are read. -/
def route (r : Route) : Layout κ → Route
  | .tagged _ _ => .buffered
  | _ => r

/-- The index of the first field of an array. -/
def offset : Layout κ → ℕ
  | .tagged _ _ => 1
  | _ => 0

end Layout

/-- The parts of a document with the given fields, the first of them at `i`. -/
def fieldParts (r : Route) (d : Json) : ℕ → List (String × Shape κ) → List (Node κ)
  | _, [] => []
  | i, (name, s) :: fields =>
    (d.candidates name i).flatMap (s.parts r) ++ fieldParts r d (i + 1) fields

namespace Node

variable (S : κ → Layout κ)

/-- The parts of a document. -/
def parts (n : Node κ) : List (Node κ) :=
  fieldParts ((S n.kind).route n.route) n.doc (S n.kind).offset ((S n.kind).fields n.route n.doc)

/-- In reading one document, the other is read. -/
def ReadAs : Node κ → Node κ → Prop := Relation.ReflTransGen fun n m => m ∈ n.parts S

/-- The document is no object with its tag or a field twice. -/
def Once (n : Node κ) : Prop :=
  ∀ ms, n.doc = .object ms → ∀ name ∈ (S n.kind).names n.route n.doc, (Map.keys ms).count name ≤ 1

/-- No object does, in reading the document. -/
def AllOnce (n : Node κ) : Prop := ∀ m, ReadAs S n m → m.Once S

/-- In reading the document, no value with a repeated name is read. -/
def DistinctValues (n : Node κ) : Prop :=
  ∀ m, ReadAs S n m → S m.kind = .value → m.doc.Distinct

/-- What every decoder of a kind does. -/
structure Lawful (n : Node κ) (read : Json → Option α) : Prop where
  reorder : n.DistinctValues S → ∀ d, n.doc.Reorder d → read n.doc = read d
  once : ∀ a, read n.doc = some a → n.AllOnce S

variable {S} {n m : Node κ}

/-- No value with a repeated name is read in a part, if none is in the whole. -/
theorem DistinctValues.part (h : n.DistinctValues S) (hm : m ∈ n.parts S) : m.DistinctValues S :=
  fun _ hk => h _ (.head hm hk)

/-- No object repeats a field when this one does not, and none in its parts does. -/
theorem allOnce_iff : n.AllOnce S ↔ n.Once S ∧ ∀ m ∈ n.parts S, m.AllOnce S := by
  constructor
  · exact fun h => ⟨h n .refl, fun m hm k hk => h k (.head hm hk)⟩
  · rintro ⟨hn, hparts⟩ k hk
    obtain rfl | ⟨m, hm, hmk⟩ := hk.cases_head
    exacts [hn, hparts m hm k hmk]

end Node

/-! ## Documents without repeated names -/

section Distinct

variable {S : κ → Layout κ} {n m : Node κ}

theorem Json.Distinct.candidate {d x : Json} (hd : d.Distinct) {name : String} {i : ℕ}
    (hx : x ∈ d.candidates name i) : x.Distinct := by
  cases hd with
  | array h => exact h x (List.mem_of_getElem? (Option.mem_toList.1 hx))
  | object _ h =>
    obtain ⟨m, hm, rfl⟩ := List.mem_map.1 hx
    exact h m (List.mem_of_mem_filter hm)
  | _ => cases hx

theorem Json.Distinct.shapePart {x : Json} (hx : x.Distinct) {s : Shape κ} {r : Route}
    (hm : m ∈ s.parts r x) : m.doc.Distinct := by
  cases s with
  | scalar => cases hm
  | one k =>
    rw [List.mem_singleton.1 hm]
    exact hx
  | optional k =>
    cases x with
    | null => cases hm
    | _ =>
      rw [List.mem_singleton.1 hm]
      exact hx
  | many k =>
    cases x with
    | array xs =>
      obtain ⟨y, hy, rfl⟩ := List.mem_map.1 hm
      exact Json.names_array.1 hx y hy
    | _ => cases hm

theorem Json.Distinct.fieldPart {d : Json} (hd : d.Distinct) {r : Route} {i : ℕ}
    {fields : List (String × Shape κ)} (hm : m ∈ fieldParts r d i fields) : m.doc.Distinct := by
  induction fields generalizing i with
  | nil => cases hm
  | cons field fields ih =>
    obtain hm | hm := List.mem_append.1 hm
    · obtain ⟨x, hx, hm⟩ := List.mem_flatMap.1 hm
      exact (hd.candidate hx).shapePart hm
    · exact ih hm

/-- Without repeated names in the document, there are none in its values. -/
theorem Node.distinctValues (h : n.doc.Distinct) : n.DistinctValues S := by
  intro m hm hk
  clear hk
  induction hm with
  | refl => exact h
  | tail _ hm ih => exact ih.fieldPart hm

/-- A lawful decoder makes the same of a document without repeated names and of
    the value it is. -/
theorem Node.Lawful.read_normalize {read : Json → Option α} (hn : n.Lawful S read)
    (h : n.doc.Distinct) : read n.doc.normalize = read n.doc :=
  (hn.reorder (distinctValues h) _ h.reorder_normalize).symm

end Distinct

/-! ## Fields -/

/-- What every reader of a field of this shape does. -/
structure Shape.Lawful (S : κ → Layout κ) (r : Route) (s : Shape κ) (x : Json)
    (read : Json → Option α) : Prop where
  reorder : (∀ n ∈ s.parts r x, n.DistinctValues S) → ∀ y, x.Reorder y → read x = read y
  once : ∀ a, read x = some a → ∀ n ∈ s.parts r x, n.AllOnce S

/-- Fields, the first of them at `i`, each of which is lawful wherever it may be
    read from. -/
inductive Fields.Lawful (S : κ → Layout κ) (r : Route) (d : Json) :
    {τ : Type} → ℕ → Fields Json τ → List (String × Shape κ) → Prop
  | nil {i : ℕ} : Lawful S r d i .nil []
  | cons {i : ℕ} {α τ : Type} {name : String} {read : Json → Option α} {missing : Option α}
      {rest : Fields Json τ} {s : Shape κ} {fields : List (String × Shape κ)} :
      (∀ x ∈ d.candidates name i, s.Lawful S r x read) → Lawful S r d (i + 1) rest fields →
      Lawful S r d i (.cons name read missing none rest) ((name, s) :: fields)

namespace Fields

variable {S : κ → Layout κ} {r : Route} {i : ℕ} {fs : Fields Json τ}
  {fields : List (String × Shape κ)}

/-- In an object, the candidates for a field are the members of its name. -/
theorem mem_candidates_object {ms : Members Json} {name : String} {x : Json} :
    x ∈ (Json.object ms).candidates name i ↔ (name, x) ∈ ms := by
  simp [Json.candidates]

/-- A field that is read occurs at most once. -/
theorem member_once {name : String} {read : Json → Option α} {missing : Option α}
    {ms : Members Json} {a : α} (h : member name read missing none ms = some a) :
    (Map.keys ms).count name ≤ 1 ∧
      ∀ x ∈ (Json.object ms).candidates name i, read x = some a := by
  have hcount : (Map.keys ms).count name = (ms.filter fun m => m.1 = name).length := by
    rw [Map.keys, List.count, List.countP_map, List.countP_eq_length_filter]
    exact congrArg List.length (List.filter_congr fun m _ => rfl)
  rw [member] at h
  rw [Json.candidates, hcount]
  -- Of the members with this name there is none, one or more.
  generalize (ms.filter fun m => decide (m.1 = name)) = l at h
  rcases l with _ | ⟨m, _ | ⟨m', l⟩⟩
  · simp
  · simpa [resolve] using h
  · cases h

/-- Lawful fields are looked up alike among reordered members. -/
theorem Lawful.lookups_eq {ms ns ns' : Members Json} (h : fs.Lawful S r (.object ms) i fields)
    (hd : ∀ n ∈ fieldParts r (.object ms) i fields, n.DistinctValues S)
    (hms : Json.ReorderMembers ms ns) (hp : ns.Perm ns') : fs.lookups ms = fs.lookups ns' := by
  induction h with
  | nil => rfl
  | @cons i α τ name read missing rest s fields hx _ ih =>
    rw [fieldParts, List.forall_mem_append] at hd
    rw [lookups, lookups, ih hd.2, member_reorder hms hp name]
    intro m hm hname
    have hm' : m.2 ∈ (Json.object ms).candidates name i := mem_candidates_object.2 (hname ▸ hm)
    exact (hx m.2 hm').reorder fun n hn => hd.1 n (List.mem_flatMap.2 ⟨m.2, hm', hn⟩)

/-- Lawful fields that are found occur once. -/
theorem Lawful.lookups_once {ms : Members Json} (h : fs.Lawful S r (.object ms) i fields) {t : τ}
    (ht : fs.lookups ms = some t) :
    (∀ n ∈ fieldParts r (.object ms) i fields, n.AllOnce S) ∧
      ∀ name ∈ Map.keys fields, (Map.keys ms).count name ≤ 1 := by
  induction h with
  | nil => simp [fieldParts]
  | @cons i α τ name read missing rest s fields hx _ ih =>
    obtain ⟨a, ha, ht⟩ := Option.bind_eq_some_iff.1 ht
    obtain ⟨t, ht, -⟩ := Option.map_eq_some_iff.1 ht
    obtain ⟨hcount, hread⟩ := member_once (i := i) ha
    obtain ⟨hparts, hnames⟩ := ih ht
    rw [fieldParts, List.forall_mem_append, Map.keys_cons, List.forall_mem_cons]
    refine ⟨⟨fun n hn => ?_, hparts⟩, hcount, hnames⟩
    obtain ⟨x, hx', hn⟩ := List.mem_flatMap.1 hn
    exact (hx x hx').once a (hread x hx') n hn

/-- What remains of related lists from an index on. -/
theorem drop_cases {β γ : Type} {R : β → γ → Prop} {xs : List β} {ys : List γ}
    (h : List.Forall₂ R xs ys) (i : ℕ) :
    (xs.drop i = [] ∧ xs.drop (i + 1) = [] ∧ ys.drop i = [] ∧ ys.drop (i + 1) = [] ∧
        xs[i]? = none) ∨
      ∃ x y, xs[i]? = some x ∧ R x y ∧ xs.drop i = x :: xs.drop (i + 1) ∧
        ys.drop i = y :: ys.drop (i + 1) := by
  induction h generalizing i with
  | nil => simp
  | @cons x y xs ys hxy _ ih =>
    cases i with
    | zero => exact .inr ⟨x, y, rfl, hxy, rfl, rfl⟩
    | succ i => exact ih i

/-- Lawful fields are read alike from the elements of reordered arrays. -/
theorem Lawful.visitSeq_eq {xs ys : List Json} (h : fs.Lawful S r (.array xs) i fields)
    (hd : ∀ n ∈ fieldParts r (.array xs) i fields, n.DistinctValues S)
    (hxs : List.Forall₂ Json.Reorder xs ys) :
    fs.visitSeq (xs.drop i) = fs.visitSeq (ys.drop i) := by
  induction h with
  | @nil i =>
    obtain ⟨hx, -, hy, -, -⟩ | ⟨x, y, -, -, hx, hy⟩ := drop_cases hxs i
    · rw [hx, hy]
    · rw [hx, hy]
      rfl
  | @cons i α τ name read missing rest s fields hs _ ih =>
    rw [fieldParts, List.forall_mem_append] at hd
    have hrest := ih hd.2
    -- Either no element is left for this field, in both arrays, or there is one.
    obtain ⟨hx, hx', hy, hy', -⟩ | ⟨x, y, hi, hxy, hx, hy⟩ := drop_cases hxs i
    · rw [hx, hy]
    · have hmem : x ∈ (Json.array xs).candidates name i := by rw [Json.candidates, hi]; simp
      have hread :=
        (hs x hmem).reorder (fun n hn => hd.1 n (List.mem_flatMap.2 ⟨x, hmem, hn⟩)) y hxy
      rw [hx, hy, visitSeq, visitSeq, hread, hrest]

/-- Lawful fields that are read from an array are lawful in it. -/
theorem Lawful.visitSeq_once {xs : List Json} (h : fs.Lawful S r (.array xs) i fields) {t : τ}
    (ht : fs.visitSeq (xs.drop i) = some t) :
    ∀ n ∈ fieldParts r (.array xs) i fields, n.AllOnce S := by
  induction h with
  | nil => simp [fieldParts]
  | @cons i α τ name read missing rest s fields hs _ ih =>
    rw [fieldParts, List.forall_mem_append]
    obtain ⟨hx, hx', -, -, hi⟩ | ⟨x, y, hi, -, hx, -⟩ :=
      drop_cases (List.forall₂_same.2 fun x (_ : x ∈ xs) => (rfl : x = x)) i
    · rw [hx, visitSeq, Option.bind_eq_some_iff] at ht
      obtain ⟨a, -, ht⟩ := ht
      obtain ⟨t, ht, -⟩ := Option.map_eq_some_iff.1 ht
      rw [← hx'] at ht
      refine ⟨?_, ih ht⟩
      rw [Json.candidates, hi]
      simp
    · rw [hx, visitSeq, Option.bind_eq_some_iff] at ht
      obtain ⟨a, ha, ht⟩ := ht
      obtain ⟨t, ht, -⟩ := Option.map_eq_some_iff.1 ht
      refine ⟨fun n hn => ?_, ih ht⟩
      have hmem : x ∈ (Json.array xs).candidates name i := by rw [Json.candidates, hi]; simp
      rw [Json.candidates, hi, Option.toList_some, List.flatMap_singleton] at hn
      exact (hs x hmem).once a ha n hn

end Fields

/-! ## Shapes -/

section Shape

variable {S : κ → Layout κ} {r : Route} {k : κ} {x : Json} {read : Json → Option α}

/-- A payload keeps the last value of a repeated name: the order of members only stops
    to matter without such names. -/
theorem Node.Lawful.value {n : Node κ} (hS : S n.kind = .value) : n.Lawful S readValue where
  reorder hd d hnd := readValue_reorder hnd (hd n .refl hS)
  once _ _ := by
    rw [allOnce_iff, Once, parts, hS]
    simp [Layout.names, Layout.fields, fieldParts]

theorem Node.Lawful.scalar {n : Node κ} (hS : S n.kind = .scalar)
    (h : ∀ y, n.doc.Reorder y → read n.doc = read y) : n.Lawful S read where
  reorder _ := h
  once _ _ := by
    rw [allOnce_iff, Once, parts, hS]
    simp [Layout.names, Layout.fields, fieldParts]

theorem Shape.Lawful.scalar (h : ∀ y, x.Reorder y → read x = read y) :
    (scalar : Shape κ).Lawful S r x read where
  reorder _ := h
  once _ _ _ hn := absurd hn List.not_mem_nil

theorem Shape.Lawful.one (h : (⟨r, k, x⟩ : Node κ).Lawful S read) :
    (one k).Lawful S r x read where
  reorder hd := h.reorder (hd _ (List.mem_singleton_self _))
  once a ha n hn := by
    rw [List.mem_singleton.1 hn]
    exact h.once a ha

theorem Shape.parts_optional (hx : x ≠ .null) : (optional k).parts r x = [⟨r, k, x⟩] := by
  cases x with
  | null => exact absurd rfl hx
  | _ => rfl

theorem Shape.Lawful.optional (h : (⟨r, k, x⟩ : Node κ).Lawful S read) :
    (optional k).Lawful S r x (readOption read) where
  reorder hd y hxy := by
    -- What is null stays null, and is absent either way.
    by_cases hx : x = .null
    · subst hx
      cases hxy
      rfl
    · have hy : y ≠ .null := by
        rintro rfl
        cases hxy
        exact hx rfl
      rw [readOption_of_ne_null hx read, readOption_of_ne_null hy read]
      rw [parts_optional hx] at hd
      exact congrArg (Option.map some) (h.reorder (hd _ (List.mem_singleton_self _)) y hxy)
  once a ha n hn := by
    by_cases hx : x = .null
    · subst hx
      cases hn
    · rw [parts_optional hx] at hn
      rw [readOption_of_ne_null hx read] at ha
      obtain ⟨b, hb, -⟩ := Option.map_eq_some_iff.1 ha
      rw [List.mem_singleton.1 hn]
      exact h.once b hb

/-- A sequence is lawful if its items are, which are nested less deeply than it. -/
theorem Shape.Lawful.many (h : ∀ y : Json, y.depth < x.depth → (⟨r, k, y⟩ : Node κ).Lawful S read) :
    (many k).Lawful S r x (readVec read) where
  reorder hd y hxy := by
    cases x with
    | array xs =>
      obtain ⟨ys, rfl, hxs⟩ := Json.reorder_array.1 hxy
      have hd : ∀ x ∈ xs, (⟨r, k, x⟩ : Node κ).DistinctValues S :=
        fun x hx => hd _ (List.mem_map_of_mem hx)
      exact mapM_eq_of_forall₂ hxs fun x hx y hxy =>
        (h x (Json.depth_lt_array hx)).reorder (hd x hx) y hxy
    | number n => cases hxy; rfl
    | object ms =>
      obtain ⟨ns, ns', rfl, -, -⟩ := Json.reorder_object.1 hxy
      rfl
    | _ => cases hxy; rfl
  once a ha n hn := by
    obtain ⟨xs, rfl, hxs⟩ := readVec_eq_some.1 ha
    obtain ⟨y, hy, rfl⟩ := List.mem_map.1 hn
    obtain ⟨i, hi⟩ := List.mem_iff_getElem?.1 hy
    obtain ⟨b, -, hb⟩ := exists_getElem?_of_forall₂ hxs hi
    exact (h y (Json.depth_lt_array hy)).once b hb

end Shape

/-! ## Structs and enums -/

section Lawful

variable {S : κ → Layout κ} {n : Node κ}

/-- What is made of the value read does not matter. -/
theorem Node.Lawful.map {β : Type} {read : Json → Option α} (h : n.Lawful S read) (f : α → β) :
    n.Lawful S fun d => (read d).map f where
  reorder hd d hnd := congrArg (Option.map f) (h.reorder hd d hnd)
  once b hb := by
    obtain ⟨a, ha, -⟩ := Option.map_eq_some_iff.1 hb
    exact h.once a ha

/-- A struct whose fields are lawful is. -/
theorem Node.Lawful.structOn {fields : List (String × Shape κ)} (hS : S n.kind = .struct fields)
    {fs : Fields Json τ} (h : fs.Lawful S n.route n.doc 0 fields) : n.Lawful S (structOn fs) := by
  have hparts : n.parts S = fieldParts n.route n.doc 0 fields := by rw [Node.parts, hS]; rfl
  have hnames : (S n.kind).names n.route n.doc = Map.keys fields := by rw [hS]; rfl
  obtain ⟨r, k, d⟩ := n
  constructor
  · intro hd d' hdd'
    have hd : ∀ m ∈ fieldParts r d 0 fields, m.DistinctValues S :=
      fun m hm => hd.part (hparts ▸ hm)
    cases d with
    | object ms =>
      obtain ⟨ns, ns', rfl, hms, hp⟩ := Json.reorder_object.1 hdd'
      exact h.lookups_eq hd hms hp
    | array xs =>
      obtain ⟨ys, rfl, hxs⟩ := Json.reorder_array.1 hdd'
      exact h.visitSeq_eq hd hxs
    | _ => cases hdd'; rfl
  · intro t ht
    rw [Node.allOnce_iff, hparts, Node.Once, hnames]
    cases d with
    | object ms =>
      -- A field that is found occurs once, and those that are missing do not occur.
      obtain ⟨hparts, hnames⟩ := h.lookups_once ht
      refine ⟨fun ms' hms' => ?_, hparts⟩
      cases hms'
      exact hnames
    | array xs => exact ⟨fun _ hms => (by cases hms), h.visitSeq_once ht⟩
    | _ => cases ht

/-- What every variant of an enum does with a document whose tag selects it. -/
structure Variant.Lawful (S : κ → Layout κ) (d : Json) (tag : String) (v : Variant α)
    (fields : String × List (String × Shape κ)) : Prop where
  name : v.name = fields.1
  reorder : (∀ n ∈ fieldParts .buffered d 1 fields.2, n.DistinctValues S) →
    ∀ d', d.Reorder d' → v.on tag d = v.on tag d'
  once : ∀ a, v.on tag d = some a → (∀ n ∈ fieldParts .buffered d 1 fields.2, n.AllOnce S) ∧
    ∀ ms, d = .object ms → ∀ name ∈ Map.keys fields.2, (Map.keys ms).count name ≤ 1

theorem Variant.Lawful.unit {d : Json} {tag name : String} {a : α} :
    (Variant.unit name a).Lawful S d tag (name, []) where
  name := rfl
  reorder _ d' hdd' := by
    cases d with
    | object ms =>
      obtain ⟨ns, ns', rfl, -, -⟩ := Json.reorder_object.1 hdd'
      rfl
    | array xs =>
      obtain ⟨ys, rfl, hxs⟩ := Json.reorder_array.1 hdd'
      cases hxs with
      | nil => rfl
      | cons _ hxs =>
        rw [on, on, onElements_unit, onElements_unit]
        cases hxs <;> rfl
    | _ => cases hdd'; rfl
  once _ _ := ⟨by simp [fieldParts], by simp⟩

section Struct

variable {tag name : String} {fs : Fields Content τ} (hfs : (tag :: fs.names).Nodup) {make : τ → α}

include hfs

theorem Variant.on_struct_object (ms : Members Json) : (Variant.struct name fs make).on tag
    (.object ms) = ((fs.comap Json.buffer).lookups ms).map make := by
  rw [List.nodup_cons] at hfs
  rw [on, onMembers_struct hfs.2, Fields.lookups_filter (by simpa using hfs.1)]

theorem Variant.on_struct_array (t : Json) (xs : List Json) : (Variant.struct name fs make).on tag
    (.array (t :: xs)) = ((fs.comap Json.buffer).visitSeq xs).map make := by
  rw [List.nodup_cons] at hfs
  rw [on, onElements_struct hfs.2]

/-- A struct variant is lawful if its fields are, in the buffer and next to the tag. -/
theorem Variant.Lawful.struct {d : Json} {fields : List (String × Shape κ)}
    (h : (fs.comap Json.buffer).Lawful S .buffered d 1 fields) :
    (Variant.struct name fs make).Lawful S d tag (name, fields) where
  name := rfl
  reorder hd d' hdd' := by
    cases d with
    | object ms =>
      obtain ⟨ns, ns', rfl, hms, hp⟩ := Json.reorder_object.1 hdd'
      rw [on_struct_object hfs, on_struct_object hfs, h.lookups_eq hd hms hp]
    | array xs =>
      obtain ⟨ys, rfl, hxs⟩ := Json.reorder_array.1 hdd'
      cases hxs with
      | nil => rfl
      | cons hx hxs =>
        rw [on_struct_array hfs, on_struct_array hfs]
        exact congrArg (Option.map make) (h.visitSeq_eq hd (.cons hx hxs))
    | _ => cases hdd'; rfl
  once a ha := by
    cases d with
    | object ms =>
      rw [on_struct_object hfs] at ha
      obtain ⟨t, ht, -⟩ := Option.map_eq_some_iff.1 ha
      obtain ⟨hparts, hnames⟩ := h.lookups_once ht
      refine ⟨hparts, fun ms' hms' => ?_⟩
      cases hms'
      exact hnames
    | array xs =>
      cases xs with
      | nil => cases ha
      | cons x xs =>
        rw [on_struct_array hfs] at ha
        obtain ⟨t, ht, -⟩ := Option.map_eq_some_iff.1 ha
        exact ⟨h.visitSeq_once ht, fun _ hms => by cases hms⟩
    | _ => cases ha

end Struct

/-- Reordering the members does not select another variant. -/
theorem Route.selects_reorder (r : Route) (tag : String) (names : List String) {d d' : Json}
    (h : d.Reorder d') : r.selects tag names d = r.selects tag names d' := by
  cases d with
  | object ms =>
    obtain ⟨ns, ns', rfl, hms, hp⟩ := Json.reorder_object.1 h
    exact Fields.member_reorder hms hp tag (fun m _ _ y hy => r.readTag_reorder names hy) none none
  | array xs =>
    obtain ⟨ys, rfl, hxs⟩ := Json.reorder_array.1 h
    cases hxs with
    | nil => rfl
    | cons hx _ => exact r.readTag_reorder names hx
  | _ => cases h; rfl

/-- An enum whose variants are lawful is. -/
theorem Node.Lawful.taggedOn {tag : String} {vs : List (String × List (String × Shape κ))}
    (hS : S n.kind = .tagged tag vs) {variants : List (Variant α)}
    (h : List.Forall₂ (fun v fields => v.Lawful S n.doc tag fields) variants vs) :
    n.Lawful S (taggedOn n.route tag variants) := by
  have hnames : variants.map Variant.name = Map.keys vs :=
    map_eq_of_forall₂ h fun v _ fields _ hv => hv.name
  obtain ⟨r, k, d⟩ := n
  -- The parts of the document are those of the selected variant.
  have hparts : ∀ i fields, r.selects tag (Map.keys vs) d = some i → vs[i]? = some fields →
      Node.parts S ⟨r, k, d⟩ = fieldParts .buffered d 1 fields.2 ∧
        (S k).names r d = tag :: Map.keys fields.2 := by
    intro i fields hi hfields
    have hf : (Layout.tagged tag vs).fields r d = fields.2 := by
      rw [Layout.fields, hi, Option.bind_some, hfields]
      rfl
    rw [Node.parts, hS, Layout.names, hf]
    exact ⟨rfl, rfl⟩
  constructor
  · intro hd d' hdd'
    rw [taggedOn_eq_selects, taggedOn_eq_selects, ← r.selects_reorder tag _ hdd']
    refine Option.bind_congr fun i hi => ?_
    rw [hnames] at hi
    cases hv : variants[i]? with
    | none => rfl
    | some v =>
      obtain ⟨fields, hfields, hlawful⟩ := exists_getElem?_of_forall₂ h hv
      refine hlawful.reorder (fun m hm => hd.part ?_) d' hdd'
      rwa [(hparts i fields hi hfields).1]
  · intro a ha
    rw [taggedOn_eq_selects, hnames, Option.bind_eq_some_iff] at ha
    obtain ⟨i, hi, ha⟩ := ha
    obtain ⟨v, hv, ha⟩ := Option.bind_eq_some_iff.1 ha
    obtain ⟨fields, hfields, hlawful⟩ := exists_getElem?_of_forall₂ h hv
    obtain ⟨hp, hn⟩ := hparts i fields hi hfields
    obtain ⟨hall, honce⟩ := hlawful.once a ha
    rw [Node.allOnce_iff, hp, Node.Once, hn]
    refine ⟨fun ms hms => List.forall_mem_cons.2 ⟨?_, honce ms hms⟩, hall⟩
    cases hms
    exact (Fields.member_once (i := 0) hi).1

end Lawful

end Serde
