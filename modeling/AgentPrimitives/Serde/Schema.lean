import AgentPrimitives.Serde.Layout

/-!
# Schemas

A schema is a layout that also says what is demanded of a document: which of its
fields may be missing, and which documents a scalar is read from. It is checked
one node at a time (`Schema.admits`), and a document is *accepted* if everything
that is read in reading it is admitted (`Node.Accepted`). Whether it is can be
computed without decoding anything (`Node.accepts`, `Node.accepts_iff`).

A decoder *obeys* a schema at a document (`Node.Obeys`) if it reads the document
exactly if that is accepted. A struct obeys its schema if its fields do
(`Node.Obeys.structOn`), and an enum if its variants do (`Node.Obeys.taggedOn`).
-/

namespace Serde

variable {κ α τ : Type}

/-- A form of scalars: the documents that are read as one, and how each is written. -/
structure Scalar where
  ok : Route → Json → Bool
  written : Json → Json

/-- What a field is read from: a scalar of a certain form, a document of another kind,
    which may be null, or an array of such documents. -/
inductive Check (κ : Type)
  | scalar (form : Scalar)
  | one (k : κ)
  | optional (k : κ)
  | many (k : κ)

/-- A field, which may be missing from an object, or beyond the end of an array. -/
structure FieldCheck (κ : Type) where
  name : String
  check : Check κ
  maybeMember : Bool
  maybeElement : Bool

/-- What is demanded of a document: nothing, the form of a scalar, the fields of a
    struct, or those of the variant that the tag of an internally tagged enum selects. -/
inductive Schema (κ : Type)
  | value
  | scalar (form : Scalar)
  | struct (fields : List (FieldCheck κ))
  | tagged (tag : String) (variants : List (String × List (FieldCheck κ)))

/-- The document is an array. -/
def Json.isArray : Json → Bool
  | .array _ => true
  | _ => false

/-- What stands for the unit: null, or, out of the buffer, an empty object. -/
def Route.isUnit : Route → Json → Bool
  | _, .null => true
  | .buffered, .object [] => true
  | _, _ => false

/-! ### Scalars -/

namespace Scalar

/-- Any string. -/
def string : Scalar where
  ok
    | _, .string _ => true
    | _, _ => false
  written := id

/-- True or false. -/
def bool : Scalar where
  ok
    | _, .bool _ => true
    | _, _ => false
  written := id

/-- A string, or null. -/
def optionalString : Scalar where
  ok
    | _, .null => true
    | _, .string _ => true
    | _, _ => false
  written := id

/-- A string of the form of `α`, written in the form that `α` prefers. -/
def parsed (α : Type) [StringCodec α] : Scalar where
  ok
    | _, .string s => (StringCodec.parse s : Option α).isSome
    | _, _ => false
  written
    | .string s => (StringCodec.parse s : Option α).elim (.string s) fun a =>
        .string (StringCodec.format a)
    | j => j

/-- One of the names of an externally tagged enum, or an object with one of them and
    the unit. -/
def name (names : List String) : Scalar where
  ok
    | _, .string name => name ∈ names
    | r, .object [(name, d)] => name ∈ names && r.isUnit d
    | _, _ => false
  written
    | .object [(name, _)] => .string name
    | j => j

end Scalar

namespace Check

/-- A field that is a string. -/
def string : Check κ := .scalar .string

/-- A field that is true or false. -/
def bool : Check κ := .scalar .bool

/-- A field that is a string or null. -/
def optionalString : Check κ := .scalar .optionalString

/-- A field that is a string of the form of `α`. -/
def parsed (α : Type) [StringCodec α] : Check κ := .scalar (.parsed α)

/-- A field that is one of the names of an externally tagged enum. -/
def name (names : List String) : Check κ := .scalar (.name names)

/-! ### Forms -/

/-- The shape of a field, the forms of scalars apart. -/
def shape : Check κ → Shape κ
  | .scalar _ => .scalar
  | .one k => .one k
  | .optional k => .optional k
  | .many k => .many k

/-- What is found at a field is of the right form, its parts apart. -/
def ok (r : Route) (x : Json) : Check κ → Bool
  | .scalar form => form.ok r x
  | .one _ => true
  | .optional _ => true
  | .many _ => x.isArray

end Check

namespace FieldCheck

/-- A field without default. -/
abbrev required (name : String) (check : Check κ) : FieldCheck κ := ⟨name, check, false, false⟩

/-- A field with a default. -/
abbrev default (name : String) (check : Check κ) : FieldCheck κ := ⟨name, check, true, true⟩

/-- The name and the shape of a field. -/
def entry (f : FieldCheck κ) : String × Shape κ := (f.name, f.check.shape)

/-- Nothing needs to be found at the field in a document of this form. -/
def omissible (f : FieldCheck κ) : Json → Bool
  | .object _ => f.maybeMember
  | _ => f.maybeElement

theorem omissible_same (name : String) (check : Check κ) (maybe : Bool) (d : Json) :
    (⟨name, check, maybe, maybe⟩ : FieldCheck κ).omissible d = maybe := by
  cases d <;> rfl

/-- What is found at the field with index `i` is of the right form, and it is not
    found twice. -/
def found (r : Route) (d : Json) (i : ℕ) (f : FieldCheck κ) : Bool :=
  match d.candidates f.name i with
  | [] => f.omissible d
  | [x] => f.check.ok r x
  | _ => false

end FieldCheck

/-- All fields, the first of them at `i`. -/
def fieldsFound (r : Route) (d : Json) : ℕ → List (FieldCheck κ) → Bool
  | _, [] => true
  | i, f :: fields => f.found r d i && fieldsFound r d (i + 1) fields

namespace Schema

/-- The layout of what has the schema. -/
def layout : Schema κ → Layout κ
  | .value => .value
  | .scalar _ => .scalar
  | .struct fields => .struct (fields.map FieldCheck.entry)
  | .tagged tag variants => .tagged tag (Map.mapValues (List.map FieldCheck.entry) variants)

/-- What the schema demands of a document, its parts apart. -/
def admits (r : Route) (d : Json) : Schema κ → Bool
  | .value => true
  | .scalar form => form.ok r d
  | .struct fields => d.Fits fields.length && fieldsFound r d 0 fields
  | .tagged tag variants =>
    ((r.selects tag (Map.keys variants) d).bind fun i => variants[i]?).any fun v =>
      d.Fits (v.2.length + 1) && fieldsFound .buffered d 1 v.2

end Schema

/-- The layouts of all schemas. -/
def layoutOf (S : κ → Schema κ) (k : κ) : Layout κ := (S k).layout

namespace Node

variable (S : κ → Schema κ)

/-- What is demanded of the document is met. -/
def Admitted (n : Node κ) : Prop := (S n.kind).admits n.route n.doc = true

/-- All that is read in reading the document is admitted. -/
def Accepted (n : Node κ) : Prop :=
  ∀ m, ReadAs (layoutOf S) n m → m.Admitted S

/-- Checking a document, down to a bounded depth. -/
def acceptsUpTo : ℕ → Node κ → Bool
  | 0, _ => false
  | fuel + 1, n => (S n.kind).admits n.route n.doc && (n.parts (layoutOf S)).all (acceptsUpTo fuel)

/-- Checking a document. -/
def accepts (n : Node κ) : Bool := acceptsUpTo S (n.doc.depth + 1) n

variable {S} {n m : Node κ}

/-- A node is accepted when it is admitted, and its parts are accepted. -/
theorem accepted_iff : n.Accepted S ↔ n.Admitted S ∧ ∀ m ∈ n.parts (layoutOf S), m.Accepted S := by
  constructor
  · exact fun h => ⟨h n .refl, fun m hm k hk => h k (.head hm hk)⟩
  · rintro ⟨hn, hparts⟩ k hk
    obtain rfl | ⟨m, hm, hmk⟩ := hk.cases_head
    exacts [hn, hparts m hm k hmk]

/-! ## Checking -/

theorem depth_le_of_mem_shapeParts {s : Shape κ} {r : Route} {x : Json} (hm : m ∈ s.parts r x) :
    m.doc.depth ≤ x.depth := by
  cases s with
  | scalar => cases hm
  | one k => rw [List.mem_singleton.1 hm]
  | optional k =>
    by_cases hx : x = .null
    · subst hx
      cases hm
    · rw [Shape.parts_optional hx] at hm
      rw [List.mem_singleton.1 hm]
  | many k =>
    cases x with
    | array xs =>
      obtain ⟨y, hy, rfl⟩ := List.mem_map.1 hm
      exact (Json.depth_lt_array hy).le
    | _ => cases hm

/-- The parts of a document are nested less deeply than it. -/
theorem depth_lt_of_mem_fieldParts {r : Route} {d : Json} {i : ℕ}
    {fields : List (String × Shape κ)} (hm : m ∈ fieldParts r d i fields) :
    m.doc.depth < d.depth := by
  induction fields generalizing i with
  | nil => cases hm
  | cons field fields ih =>
    rcases List.mem_append.1 hm with hm | hm
    · obtain ⟨x, hx, hm⟩ := List.mem_flatMap.1 hm
      exact (depth_le_of_mem_shapeParts hm).trans_lt (Json.depth_lt_of_mem_candidates hx)
    · exact ih hm

/-- The depth of a document suffices to check it. -/
theorem acceptsUpTo_iff {fuel : ℕ} (h : n.doc.depth < fuel) :
    acceptsUpTo S fuel n = true ↔ n.Accepted S := by
  induction fuel generalizing n with
  | zero => exact absurd h (Nat.not_lt_zero _)
  | succ fuel ih =>
    rw [acceptsUpTo, Bool.and_eq_true, List.all_eq_true, accepted_iff]
    refine and_congr Iff.rfl (forall₂_congr fun m hm => ih ?_)
    exact (depth_lt_of_mem_fieldParts hm).trans_le (Nat.le_of_lt_succ h)

/-- The checker decides acceptance: the depth of a document is fuel enough. -/
theorem accepts_iff : n.accepts S = true ↔ n.Accepted S := acceptsUpTo_iff (Nat.lt_succ_self _)

/-- The decoder reads the document exactly if that is accepted. -/
def Obeys (S : κ → Schema κ) (n : Node κ) (read : Json → Option α) : Prop :=
  (read n.doc).isSome = true ↔ n.Accepted S

end Node

/-- A field that is read as demanded from what may be found at it. -/
def Check.Obeys (S : κ → Schema κ) (r : Route) (c : Check κ) (x : Json) (read : Json → Option α) :
    Prop :=
  (read x).isSome = true ↔ c.ok r x = true ∧ ∀ m ∈ c.shape.parts r x, m.Accepted S

/-- Fields, the first of them at `i`, each read as demanded wherever it may be read
    from, and missing only when it may be. -/
inductive Fields.Obeys (S : κ → Schema κ) (r : Route) (d : Json) :
    {τ : Type} → ℕ → Fields Json τ → List (FieldCheck κ) → Prop
  | nil {i : ℕ} : Obeys S r d i .nil []
  | cons {i : ℕ} {α τ : Type} {read : Json → Option α} {missing : Option α}
      {rest : Fields Json τ} {f : FieldCheck κ} {fields : List (FieldCheck κ)} :
      (∀ x ∈ d.candidates f.name i, f.check.Obeys S r x read) →
      missing.isSome = f.omissible d → Obeys S r d (i + 1) rest fields →
      Obeys S r d i (.cons f.name read missing none rest) (f :: fields)

/-! ## Shapes -/

section Check

variable {S : κ → Schema κ} {r : Route} {k : κ} {x : Json} {read : Json → Option α}

/-! Scalars are read exactly from the documents of their form. -/

theorem Scalar.isSome_string : (readString x).isSome = Scalar.string.ok r x := by
  cases x with
  | number n => cases n <;> rfl
  | _ => rfl

theorem Scalar.isSome_bool : (readBool x).isSome = Scalar.bool.ok r x := by
  cases x with
  | number n => cases n <;> rfl
  | _ => rfl

theorem Scalar.isSome_optionalString :
    (readOption readString x).isSome = optionalString.ok r x := by
  cases x with
  | number n => cases n <;> rfl
  | _ => rfl

theorem Scalar.isSome_parsed [StringCodec α] :
    (readParsed x : Option α).isSome = (parsed α).ok r x := by
  cases x with
  | number n => cases n <;> rfl
  | _ => rfl

/-- The checker of a unit agrees with its reader. -/
theorem Route.isUnit_iff : r.isUnit x = true ↔ r.unit x = some () := by
  rw [unit_eq_some]
  cases x with
  | object ms => cases r <;> cases ms <;> simp [isUnit]
  | _ => cases r <;> simp [isUnit]

theorem Scalar.isSome_name (variants : Members α) :
    (r.read (readUnitVariant variants) (readUnitVariant variants) x).isSome =
      (name (Map.keys variants)).ok r x := by
  have hmem : ∀ name : String,
      name ∈ Map.keys variants ↔ ∃ a, variants.lookup name = some a := fun name => by
    rw [← Option.ne_none_iff_exists', Ne, Map.lookup_eq_none, not_not]
  rw [Bool.eq_iff_iff, Option.isSome_iff_exists]
  simp only [read_readUnitVariant_eq_some]
  constructor
  · rintro ⟨a, name, hname, rfl | ⟨d, rfl, hd⟩⟩
    · exact decide_eq_true ((hmem name).2 ⟨a, hname⟩)
    · exact Bool.and_eq_true_iff.2
        ⟨decide_eq_true ((hmem name).2 ⟨a, hname⟩), Route.isUnit_iff.2 hd⟩
  · intro h
    cases x with
    | string name =>
      obtain ⟨a, ha⟩ := (hmem name).1 (of_decide_eq_true h)
      exact ⟨a, name, ha, .inl rfl⟩
    | object ms =>
      -- Only an object with a single member can be a variant.
      rcases ms with _ | ⟨⟨name, d⟩, _ | ⟨m, ms⟩⟩
      · cases h
      · obtain ⟨hname, hd⟩ := Bool.and_eq_true_iff.1 h
        obtain ⟨a, ha⟩ := (hmem name).1 (of_decide_eq_true hname)
        exact ⟨a, name, ha, .inr ⟨d, rfl, Route.isUnit_iff.1 hd⟩⟩
      · cases h
    | _ => cases h

theorem Check.Obeys.scalar {form : Scalar} (h : (read x).isSome = form.ok r x) :
    (scalar form : Check κ).Obeys S r x read := by
  simp [Obeys, Check.ok, shape, Shape.parts, h]

theorem Check.Obeys.one (h : (⟨r, k, x⟩ : Node κ).Obeys S read) :
    (one k).Obeys S r x read := by
  rw [Obeys, Check.ok, shape, Shape.parts, List.forall_mem_singleton]
  exact h.trans (and_iff_right rfl).symm

theorem Check.Obeys.optional (h : (⟨r, k, x⟩ : Node κ).Obeys S read) :
    (optional k).Obeys S r x (readOption read) := by
  rw [Obeys, Check.ok, shape]
  by_cases hx : x = .null
  · subst hx
    simp [readOption, any, Shape.parts]
  · rw [Shape.parts_optional hx, readOption_of_ne_null hx, Option.isSome_map,
      List.forall_mem_singleton]
    exact h.trans (and_iff_right rfl).symm

/-- A sequence obeys if its items do, which are nested less deeply than it. -/
theorem Check.Obeys.many
    (h : ∀ y : Json, y.depth < x.depth → (⟨r, k, y⟩ : Node κ).Obeys S read) :
    (many k).Obeys S r x (readVec read) := by
  rw [Obeys, Option.isSome_iff_exists]
  simp only [readVec_eq_some]
  constructor
  · rintro ⟨as, xs, rfl, hxs⟩
    refine ⟨rfl, List.forall_mem_map.2 fun y hy => ?_⟩
    obtain ⟨i, hi⟩ := List.mem_iff_getElem?.1 hy
    obtain ⟨a, -, ha⟩ := exists_getElem?_of_forall₂ hxs hi
    exact (h y (Json.depth_lt_array hy)).1 (Option.isSome_iff_exists.2 ⟨a, ha⟩)
  · rintro ⟨hx, hparts⟩
    cases x with
    | array xs =>
      -- The elements are read one by one.
      obtain ⟨as, has⟩ := exists_forall₂ (R := fun x a => read x = some a) fun y hy =>
        Option.isSome_iff_exists.1
          ((h y (Json.depth_lt_array hy)).2 (hparts _ (List.mem_map_of_mem hy)))
      exact ⟨as, xs, rfl, has⟩
    | _ => cases hx

end Check

/-! ## Fields -/

namespace Fields

variable {S : κ → Schema κ} {r : Route} {i : ℕ} {fs : Fields Json τ} {fields : List (FieldCheck κ)}

/-- What a field is, given all that is found at it. -/
def pick (read : Json → Option α) (missing : Option α) : List Json → Option α
  | [] => missing
  | [x] => read x
  | _ => none

/-- The member of a field is its one candidate, and several are too many. -/
theorem member_eq_pick (name : String) (i : ℕ) (read : Json → Option α) (missing : Option α)
    (ms : Members Json) : member name read missing none ms =
      pick read missing ((Json.object ms).candidates name i) := by
  rw [member, Json.candidates]
  generalize ms.filter (fun m => decide (m.1 = name)) = l
  rcases l with _ | ⟨m, _ | ⟨m', l⟩⟩ <;> rfl

/-- The next element of an array is picked as the only candidate, if it is there. -/
theorem visitSeq_drop (name : String) (read : Json → Option α) (missing : Option α)
    (rest : Fields Json τ) (xs : List Json) (i : ℕ) :
    (cons name read missing none rest).visitSeq (xs.drop i) =
      (pick read missing ((Json.array xs).candidates name i)).bind fun a =>
        (rest.visitSeq (xs.drop (i + 1))).map fun t => (a, t) := by
  rw [Json.candidates, List.drop_eq_getElem?_toList_append]
  rcases h : xs[i]? with _ | x
  · have hi := List.getElem?_eq_none_iff.1 h
    rw [List.drop_eq_nil_of_le (Nat.le_succ_of_le hi)]
    rfl
  · rfl

/-- A field that may be read wherever it is found is read exactly if it is found. -/
theorem isSome_pick {d : Json} {f : FieldCheck κ} {read : Json → Option α} {missing : Option α}
    (hread : ∀ x ∈ d.candidates f.name i, f.check.Obeys S r x read)
    (hmissing : missing.isSome = f.omissible d) :
    (pick read missing (d.candidates f.name i)).isSome = true ↔
      f.found r d i = true ∧
        ∀ m ∈ (d.candidates f.name i).flatMap (f.check.shape.parts r), m.Accepted S := by
  rw [FieldCheck.found]
  generalize d.candidates f.name i = l at hread
  rcases l with _ | ⟨x, _ | ⟨x', l⟩⟩
  · simp [pick, hmissing]
  · rw [List.flatMap_singleton]
    exact hread x (List.mem_singleton_self x)
  · simp [pick]

theorem isSome_bind_map {o : Option α} {p : Option τ} :
    (o.bind fun a => p.map fun t => (a, t)).isSome = true ↔ o.isSome = true ∧ p.isSome = true := by
  cases o <;> simp

/-- Fields that obey are looked up if they are all found, and their parts accepted. -/
theorem Obeys.lookups {ms : Members Json} (h : fs.Obeys S r (.object ms) i fields) :
    (fs.lookups ms).isSome = true ↔ fieldsFound r (.object ms) i fields = true ∧
      ∀ m ∈ fieldParts r (.object ms) i (fields.map FieldCheck.entry), m.Accepted S := by
  induction h with
  | nil => simp [fieldsFound, fieldParts]
  | cons hread hmissing _ ih =>
    rw [Fields.lookups, isSome_bind_map, member_eq_pick, isSome_pick hread hmissing, ih,
      fieldsFound, Bool.and_eq_true, List.map_cons, FieldCheck.entry, fieldParts,
      List.forall_mem_append, and_and_and_comm]

/-- Fields that obey are read from an array that is not too long, if they are all found,
    and their parts accepted. -/
theorem Obeys.visitSeq {xs : List Json} (h : fs.Obeys S r (.array xs) i fields) :
    (fs.visitSeq (xs.drop i)).isSome = true ↔ xs.length ≤ i + fields.length ∧
      fieldsFound r (.array xs) i fields = true ∧
      ∀ m ∈ fieldParts r (.array xs) i (fields.map FieldCheck.entry), m.Accepted S := by
  induction h with
  | @nil i =>
    rw [List.length_nil, Nat.add_zero, ← List.drop_eq_nil_iff]
    cases xs.drop i <;> simp [Fields.visitSeq, fieldsFound, fieldParts]
  | @cons i α τ read missing rest f fields hread hmissing _ ih =>
    rw [visitSeq_drop, isSome_bind_map, isSome_pick hread hmissing, ih, fieldsFound,
      Bool.and_eq_true, List.map_cons, FieldCheck.entry, fieldParts, List.forall_mem_append,
      List.length_cons, Nat.add_right_comm i 1, ← Nat.add_assoc]
    tauto

end Fields

/-! ## Structs and enums -/

section Obeys

variable {S : κ → Schema κ} {n : Node κ}

/-- Any document is accepted as a payload. -/
theorem Node.Obeys.value (hS : S n.kind = .value) : n.Obeys S readValue := by
  rw [Obeys, accepted_iff, Admitted, parts, layoutOf, hS]
  simp [readValue, Schema.admits, Schema.layout, Layout.fields, fieldParts]

theorem Node.Obeys.scalar {form : Scalar} (hS : S n.kind = .scalar form)
    {read : Json → Option α} (h : (read n.doc).isSome = form.ok n.route n.doc) :
    n.Obeys S read := by
  rw [Obeys, accepted_iff, Admitted, parts, layoutOf, hS]
  simp [Schema.admits, Schema.layout, Layout.fields, fieldParts, h]

theorem Node.Obeys.map {β : Type} {read : Json → Option α} (h : n.Obeys S read) (f : α → β) :
    n.Obeys S fun d => (read d).map f := by
  rw [Obeys, Option.isSome_map]
  exact h

/-- A struct whose fields obey the schema does. -/
theorem Node.Obeys.structOn {fields : List (FieldCheck κ)} (hS : S n.kind = .struct fields)
    {fs : Fields Json τ} (h : fs.Obeys S n.route n.doc 0 fields) : n.Obeys S (structOn fs) := by
  obtain ⟨r, k, d⟩ := n
  have hparts : parts (layoutOf S) ⟨r, k, d⟩ = fieldParts r d 0 (fields.map FieldCheck.entry) := by
    rw [parts, layoutOf, hS]
    rfl
  rw [Obeys, accepted_iff, Admitted, hparts, hS, Schema.admits, Bool.and_eq_true,
    decide_eq_true_iff, and_assoc]
  cases d with
  | object ms => exact h.lookups.trans (and_iff_right trivial).symm
  | array xs =>
    have := h.visitSeq
    rw [List.drop_zero, Nat.zero_add] at this
    rw [Serde.structOn, this, Json.Fits]
  | _ => simp [Serde.structOn, Json.Fits]

/-- What a variant makes of a document whose tag selects it. -/
structure Variant.Obeys (S : κ → Schema κ) (d : Json) (tag : String) (v : Variant α)
    (fields : String × List (FieldCheck κ)) : Prop where
  name : v.name = fields.1
  on : d ≠ .array [] → ((v.on tag d).isSome = true ↔ d.Fits (fields.2.length + 1) ∧
    fieldsFound .buffered d 1 fields.2 = true ∧
      ∀ m ∈ fieldParts .buffered d 1 (fields.2.map FieldCheck.entry), m.Accepted S)

theorem Variant.Obeys.unit {d : Json} {tag name : String} {a : α} :
    (Variant.unit name a).Obeys S d tag (name, []) where
  name := rfl
  on hd := by
    cases d with
    | object ms => simp [Variant.on, Json.Fits, fieldsFound, fieldParts]
    | array xs =>
      cases xs with
      | nil => exact absurd rfl hd
      | cons x xs =>
        cases xs <;> simp [Variant.on, onElements_unit, Json.Fits, fieldsFound, fieldParts]
    | _ => simp [Variant.on, Json.Fits]

/-- A struct variant obeys if its fields do, in the buffer and next to the tag. -/
theorem Variant.Obeys.struct {d : Json} {tag name : String} {fs : Fields Content τ}
    (hfs : (tag :: fs.names).Nodup) {make : τ → α} {fields : List (FieldCheck κ)}
    (h : (fs.comap Json.buffer).Obeys S .buffered d 1 fields) :
    (Variant.struct name fs make).Obeys S d tag (name, fields) where
  name := rfl
  on hd := by
    cases d with
    | object ms =>
      rw [on_struct_object hfs, Option.isSome_map, h.lookups]
      simp [Json.Fits]
    | array xs =>
      cases xs with
      | nil => exact absurd rfl hd
      | cons x xs =>
        have := h.visitSeq
        rw [List.drop_one, List.tail_cons] at this
        rw [on_struct_array hfs, Option.isSome_map, this, Nat.add_comm 1]
        simp [Json.Fits]
    | _ => simp [Variant.on, Json.Fits]

/-- What a variant with a single field is read from. -/
theorem Variant.exists_pick_of_on {β : Type} {tag name field : String} (htag : tag ≠ field)
    {read : Content → Option α} {missing : Option α} {make : α × Unit → β} {d : Json} {b : β}
    (hb : (struct name (.cons field read missing none .nil) make).on tag d = some b) :
    ∃ a, Fields.pick (fun x => read x.buffer) missing (d.candidates field 1) = some a ∧
      make (a, ()) = b := by
  have hfs : (tag :: (Fields.cons field read missing none .nil).names).Nodup := by
    simp [Fields.names, htag]
  cases d with
  | object ms =>
    rw [on_struct_object hfs, Fields.comap, Fields.lookups, Fields.member_eq_pick _ 1] at hb
    simpa [Fields.comap, Option.bind_eq_some_iff] using hb
  | array xs =>
    cases xs with
    | nil => cases hb
    | cons x xs =>
      have hdrop := Fields.visitSeq_drop field (fun x : Json => read x.buffer) missing .nil
        (x :: xs) 1
      rw [List.drop_one, List.tail_cons] at hdrop
      rw [on_struct_array hfs, Fields.comap, Fields.comap, hdrop, Option.map_bind,
        Option.bind_eq_some_iff] at hb
      obtain ⟨a, ha, hb⟩ := hb
      obtain ⟨t, ht, rfl⟩ := Option.map_eq_some_iff.1 hb
      obtain ⟨u, -, rfl⟩ := Option.map_eq_some_iff.1 ht
      exact ⟨a, ha, rfl⟩
  | _ => cases hb

/-- An enum whose variants obey the schema does. -/
theorem Node.Obeys.taggedOn {tag : String} {vs : List (String × List (FieldCheck κ))}
    (hS : S n.kind = .tagged tag vs) {variants : List (Variant α)}
    (h : List.Forall₂ (fun v fields => v.Obeys S n.doc tag fields) variants vs) :
    n.Obeys S (taggedOn n.route tag variants) := by
  have hnames : variants.map Variant.name = Map.keys vs :=
    map_eq_of_forall₂ h fun v _ fields _ hv => hv.name
  obtain ⟨r, k, d⟩ := n
  rw [Obeys, accepted_iff, Admitted, parts, layoutOf, hS, Schema.admits, taggedOn_eq_selects,
    hnames]
  simp only [Schema.layout, Layout.fields, Layout.route, Layout.offset, Map.keys_mapValues]
  -- A document without tag is rejected.
  cases hi : r.selects tag (Map.keys vs) d with
  | none => simp
  | some i =>
    have hd : d ≠ .array [] := by
      rintro rfl
      cases hi
    cases hv : vs[i]? with
    | none =>
      have hvariant : variants[i]? = none := by
        rw [List.getElem?_eq_none_iff, h.length_eq, ← List.getElem?_eq_none_iff, hv]
      simp [hv, hvariant]
    | some fields =>
      obtain ⟨v, hvariant, hobeys⟩ := exists_getElem?_of_forall₂ h.flip hv
      rw [Option.bind_some, hvariant, Option.bind_some, hobeys.on hd]
      simp [Map.mapValues, hv, and_assoc]

end Obeys

end Serde
