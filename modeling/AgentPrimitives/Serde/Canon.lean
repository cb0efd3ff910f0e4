import AgentPrimitives.Serde.Conform

/-!
# Canonical documents

Reading a document and writing what was read gives its *canonical* form
(`Node.canon`), which can be made from the document by its schema alone: an object
for every array, with the fields in order and the names of variants for their
indices, without unknown members, and with what is written of fields that are
missing (`Rule`).

An encoder *writes* a document canonically (`Node.Writes`) if it writes what is read
from it as the canonical form. It is enough to see that of its fields and variants.
If it does, and what it writes is read back, two documents are read alike exactly if
they have the same canonical form (`Node.read_eq_iff`).
-/

namespace Serde

variable {κ α τ : Type}

/-- What is written of a field that is missing, if anything, and what is not written
    of one that is there. -/
structure Rule where
  missing : Option Json
  skip : Json → Bool

/-- A field that is written exactly if it is there. -/
def Rule.plain : Rule := ⟨none, fun _ => false⟩

/-- The canonical form of what is found at a field, unless it is absent. -/
def Check.canon (canon : Node κ → Json) (r : Route) : Check κ → Json → Option Json
  | .scalar form, x => some (form.written x)
  | .one k, x => some (canon ⟨r, k, x⟩)
  | .optional _, .null => none
  | .optional k, x => some (canon ⟨r, k, x⟩)
  | .many k, .array xs => some (.array (xs.map fun x => canon ⟨r, k, x⟩))
  | .many _, x => some x

/-- The member that is written for a field. -/
def FieldCheck.member (rule : Rule) (f : FieldCheck κ) (o : Option Json) : Members Json :=
  (o.filter fun j => !rule.skip j).elim [] fun j => [(f.name, j)]

/-- The canonical form of the field with index `i`. -/
def FieldCheck.canon (rule : Rule) (canon : Node κ → Json) (r : Route) (d : Json) (i : ℕ)
    (f : FieldCheck κ) : Members Json :=
  f.member rule <|
    match d.candidates f.name i with
    | [] => rule.missing
    | x :: _ => f.check.canon canon r x

/-- The canonical form of all fields, the first of them at `i`. -/
def canonFields (rules : String → Rule) (canon : Node κ → Json) (r : Route) (d : Json) :
    ℕ → List (FieldCheck κ) → Members Json
  | _, [] => []
  | i, f :: fields =>
    f.canon (rules f.name) canon r d i ++ canonFields rules canon r d (i + 1) fields

namespace Node

variable (S : κ → Schema κ) (rules : κ → String → Rule)

/-- The canonical form of a document, given that of its parts. -/
def canonStep (canon : Node κ → Json) (n : Node κ) : Json :=
  match S n.kind with
  | .value => n.doc.normalize
  | .scalar form => form.written n.doc
  | .struct fields => .object (canonFields (rules n.kind) canon n.route n.doc 0 fields)
  | .tagged tag variants =>
    ((n.route.selects tag (Map.keys variants) n.doc).bind fun i => variants[i]?).elim n.doc
      fun v => tagged tag v.1 (canonFields (rules n.kind) canon .buffered n.doc 1 v.2)

/-- The canonical form, down to a bounded depth. -/
def canonUpTo : ℕ → Node κ → Json
  | 0, n => n.doc
  | fuel + 1, n => n.canonStep S rules (canonUpTo fuel)

/-- The canonical form of a document. -/
def canon (n : Node κ) : Json := n.canonUpTo S rules (n.doc.depth + 1)

end Node

/-! ## The depth suffices -/

section Congr

variable {S : κ → Schema κ} {rules : κ → String → Rule} {f g : Node κ → Json}

theorem Check.canon_congr {r : Route} {c : Check κ} {x : Json}
    (h : ∀ m : Node κ, m.doc.depth ≤ x.depth → f m = g m) : c.canon f r x = c.canon g r x := by
  cases c with
  | scalar form => rfl
  | one k => exact congrArg some (h _ le_rfl)
  | optional k =>
    cases x with
    | null => rfl
    | _ => exact congrArg some (h _ le_rfl)
  | many k =>
    cases x with
    | array xs =>
      exact congrArg (fun ys => some (Json.array ys))
        (List.map_congr_left fun y hy => h _ (Json.depth_lt_array hy).le)
    | _ => rfl

theorem canonFields_congr {rule : String → Rule} {r : Route} {d : Json}
    (h : ∀ m : Node κ, m.doc.depth < d.depth → f m = g m) (i : ℕ) (fields : List (FieldCheck κ)) :
    canonFields rule f r d i fields = canonFields rule g r d i fields := by
  induction fields generalizing i with
  | nil => rfl
  | cons field fields ih =>
    rw [canonFields, canonFields, ih, FieldCheck.canon, FieldCheck.canon]
    congr 2
    cases hc : d.candidates field.name i with
    | nil => rfl
    | cons x l =>
      have hx : x ∈ d.candidates field.name i := hc ▸ List.mem_cons_self
      exact Check.canon_congr fun m hm => h m (hm.trans_lt (Json.depth_lt_of_mem_candidates hx))

/-- One step of the canonical form depends on the parts only. -/
theorem Node.canonStep_congr {n : Node κ}
    (h : ∀ m : Node κ, m.doc.depth < n.doc.depth → f m = g m) :
    n.canonStep S rules f = n.canonStep S rules g := by
  rw [canonStep, canonStep]
  cases S n.kind with
  | value => rfl
  | scalar form => rfl
  | struct fields => exact congrArg Json.object (canonFields_congr h 0 fields)
  | tagged tag variants =>
    dsimp only
    congr 1
    funext v
    exact congrArg (tagged tag v.1) (canonFields_congr h 1 v.2)

/-- The depth of the document is fuel enough: more of it gives the same canonical form. -/
theorem Node.canonUpTo_congr {fuel fuel' : ℕ} {n : Node κ} (h : n.doc.depth < fuel)
    (h' : n.doc.depth < fuel') : n.canonUpTo S rules fuel = n.canonUpTo S rules fuel' := by
  induction fuel generalizing fuel' n with
  | zero => exact absurd h (Nat.not_lt_zero _)
  | succ fuel ih =>
    cases fuel' with
    | zero => exact absurd h' (Nat.not_lt_zero _)
    | succ fuel' =>
      exact canonStep_congr fun m hm =>
        ih (hm.trans_le (Nat.le_of_lt_succ h)) (hm.trans_le (Nat.le_of_lt_succ h'))

/-- The canonical form of a document is made of those of its parts. -/
theorem Node.canon_eq (n : Node κ) :
    n.canon S rules = n.canonStep S rules fun m => m.canon S rules :=
  canonStep_congr fun _ hm => canonUpTo_congr hm (Nat.lt_succ_self _)

end Congr

/-! ## Writing what is read -/

/-- What is read from a scalar is written as its form says. -/
def Scalar.Writes (form : Scalar) (x : Json) (read : Json → Option α) (write : α → Json) : Prop :=
  ∀ a, read x = some a → write a = form.written x

/-- What is read from the document is written as its canonical form. -/
def Node.Writes (S : κ → Schema κ) (rules : κ → String → Rule) (n : Node κ)
    (read : Json → Option α) (write : α → Json) : Prop :=
  ∀ a, read n.doc = some a → write a = n.canon S rules

/-- What is read from what may be found at a field is written as its canonical form,
    unless that is absent. -/
def Check.Writes (S : κ → Schema κ) (rules : κ → String → Rule) (r : Route) (c : Check κ)
    (x : Json) (read : Json → Option α) (write : α → Option Json) : Prop :=
  ∀ a, read x = some a → write a = c.canon (fun n => n.canon S rules) r x

/-- Writing a field, and then the others. -/
def FieldCheck.writeCons (rule : Rule) (f : FieldCheck κ) (write : α → Option Json)
    (rest : τ → Members Json) (t : α × τ) : Members Json :=
  f.member rule (write t.1) ++ rest t.2

/-- Fields, the first of them at `i`, each written as what it is read from, or, if it
    is missing, as the rule for it says. -/
inductive Fields.Writes (S : κ → Schema κ) (rules : κ → String → Rule) (rule : String → Rule)
    (r : Route) (d : Json) : {τ : Type} → ℕ → Fields Json τ → List (FieldCheck κ) →
      (τ → Members Json) → Prop
  | nil {i : ℕ} : Writes S rules rule r d i .nil [] fun _ => []
  | cons {i : ℕ} {α τ : Type} {read : Json → Option α} {missing : Option α}
      {rest : Fields Json τ} {f : FieldCheck κ} {fields : List (FieldCheck κ)}
      {write : α → Option Json} {writeRest : τ → Members Json} :
      (∀ x ∈ d.candidates f.name i, f.check.Writes S rules r x read write) →
      (∀ a, missing = some a → write a = (rule f.name).missing) →
      Writes S rules rule r d (i + 1) rest fields writeRest →
      Writes S rules rule r d i (.cons f.name read missing none rest) (f :: fields)
        (f.writeCons (rule f.name) write writeRest)

/-- A variant whose contents are written as what they are read from. -/
structure Variant.Writes (S : κ → Schema κ) (rules : κ → String → Rule) (rule : String → Rule)
    (d : Json) (tag : String) (v : Variant α) (fields : String × List (FieldCheck κ))
    (write : α → Json) : Prop where
  name : v.name = fields.1
  on : ∀ a, v.on tag d = some a → write a =
    tagged tag fields.1 (canonFields rule (fun n => n.canon S rules) .buffered d 1 fields.2)

/-! ### Forms -/

namespace Scalar.Writes

variable {r : Route} {x : Json}

theorem string : Scalar.string.Writes x readString .string :=
  fun _ hs => (readString_eq_some.1 hs).symm

theorem bool : Scalar.bool.Writes x readBool .bool := fun _ hb => (readBool_eq_some.1 hb).symm

theorem optionalString :
    Scalar.optionalString.Writes x (readOption readString) fun o => o.elim .null .string := by
  intro o ho
  obtain ⟨rfl, rfl⟩ | ⟨-, s, hs, rfl⟩ := readOption_eq_some.1 ho
  · rfl
  · exact (readString_eq_some.1 hs).symm

theorem parsed [StringCodec α] :
    (Scalar.parsed α).Writes x readParsed fun a : α => .string (StringCodec.format a) := by
  intro a ha
  obtain ⟨s, rfl, hs⟩ := readParsed_eq_some.1 ha
  simp [Scalar.parsed, hs]

/-- A unit variant is written as its name, also when it was read from an object. -/
theorem name (variants : Members α) {write : α → Json}
    (hwrite : ∀ m ∈ variants, write m.2 = .string m.1) :
    (Scalar.name (Map.keys variants)).Writes x
      (r.read (readUnitVariant variants) (readUnitVariant variants)) write := by
  intro a ha
  obtain ⟨name, hname, hx⟩ := read_readUnitVariant_eq_some.1 ha
  refine (hwrite _ (Map.mem_of_lookup hname)).trans ?_
  rcases hx with rfl | ⟨d, rfl, -⟩ <;> rfl

end Scalar.Writes

namespace Check.Writes

variable {S : κ → Schema κ} {rules : κ → String → Rule} {r : Route} {k : κ} {x : Json}
  {read : Json → Option α}

theorem congr {c : Check κ} {read' : Json → Option α} {write : α → Option Json}
    (h : c.Writes S rules r x read write) (heq : read = read') :
    c.Writes S rules r x read' write := heq ▸ h

theorem map {β : Type} {c : Check κ} {write : α → Option Json} {write' : β → Option Json}
    (h : c.Writes S rules r x read write) {f : α → β} (hf : ∀ a, write' (f a) = write a) :
    c.Writes S rules r x (fun d => (read d).map f) write' := by
  intro b hb
  obtain ⟨a, ha, rfl⟩ := Option.map_eq_some_iff.1 hb
  rw [hf, h a ha]

theorem scalar {form : Scalar} {write : α → Json} (h : form.Writes x read write) :
    (scalar form : Check κ).Writes S rules r x read fun a => some (write a) :=
  fun a ha => congrArg some (h a ha)

theorem string : (string : Check κ).Writes S rules r x readString fun s => some (.string s) :=
  scalar .string

theorem bool : (bool : Check κ).Writes S rules r x readBool fun b => some (.bool b) :=
  scalar .bool

theorem optionalString : (optionalString : Check κ).Writes S rules r x (readOption readString)
    fun o => some (o.elim .null .string) :=
  scalar .optionalString

theorem parsed [StringCodec α] : (parsed α : Check κ).Writes S rules r x readParsed
    fun a : α => some (.string (StringCodec.format a)) :=
  scalar .parsed

theorem name (variants : Members α) {write : α → Json}
    (hwrite : ∀ m ∈ variants, write m.2 = .string m.1) :
    (name (Map.keys variants) : Check κ).Writes S rules r x
      (r.read (readUnitVariant variants) (readUnitVariant variants)) fun a => some (write a) :=
  scalar (.name variants hwrite)

theorem one {write : α → Json} (h : (⟨r, k, x⟩ : Node κ).Writes S rules read write) :
    (one k).Writes S rules r x read fun a => some (write a) :=
  fun a ha => congrArg some (h a ha)

/-- An absent value is not written, a present one as what it is. -/
theorem optional {write : α → Json} (h : (⟨r, k, x⟩ : Node κ).Writes S rules read write) :
    (optional k).Writes S rules r x (readOption read) (Option.map write) := by
  intro o ho
  obtain ⟨rfl, rfl⟩ | ⟨hx, a, ha, rfl⟩ := readOption_eq_some.1 ho
  · rfl
  · rw [Option.map_some, h a ha]
    cases x with
    | null => exact absurd rfl hx
    | _ => rfl

/-- A sequence is written item by item. -/
theorem many {write : α → Json}
    (h : ∀ y : Json, y.depth < x.depth → (⟨r, k, y⟩ : Node κ).Writes S rules read write) :
    (many k).Writes S rules r x (readVec read) fun as => some (.array (as.map write)) := by
  intro as has
  obtain ⟨xs, rfl, hxs⟩ := readVec_eq_some.1 has
  -- The elements are written one by one.
  have hwrite : (xs.map fun y => (⟨r, k, y⟩ : Node κ).canon S rules) = as.map write :=
    map_eq_of_forall₂ hxs fun y hy a _ ha => (h y (Json.depth_lt_array hy) a ha).symm
  exact congrArg (fun ys => some (Json.array ys)) hwrite.symm

/-! Fields of variants are read out of the buffer. -/

theorem string_buffer : (Check.string : Check κ).Writes S rules r x (fun d => readString d.buffer)
    fun s => some (.string s) :=
  string.congr (funext fun d => (readString_buffer d).symm)

theorem bool_buffer : (Check.bool : Check κ).Writes S rules r x (fun d => readBool d.buffer)
    fun b => some (.bool b) :=
  bool.congr (funext fun d => (readBool_buffer d).symm)

theorem optionalString_buffer : (Check.optionalString : Check κ).Writes S rules r x
    (fun d => readOption readString d.buffer) fun o => some (o.elim .null .string) :=
  optionalString.congr (funext fun d => by simp only [readOption_buffer, readString_buffer])

theorem many_buffer {read : Content → Option α} {write : α → Json}
    (h : ∀ y : Json, y.depth < x.depth →
      (⟨r, k, y⟩ : Node κ).Writes S rules (fun d => read d.buffer) write) :
    (Check.many k).Writes S rules r x (fun d => readVec read d.buffer)
      fun as => some (.array (as.map write)) :=
  (many h).congr (funext fun d => (readVec_buffer d read).symm)

theorem optional_buffer {read : Content → Option α} {write : α → Json}
    (h : (⟨r, k, x⟩ : Node κ).Writes S rules (fun d => read d.buffer) write) :
    (Check.optional k).Writes S rules r x (fun d => readOption read d.buffer) (Option.map write) :=
  (optional h).congr (funext fun d => (readOption_buffer d read).symm)

end Check.Writes

/-! ### Fields -/

namespace Fields

variable {S : κ → Schema κ} {rules : κ → String → Rule} {rule : String → Rule} {r : Route}
  {d : Json} {i : ℕ} {fs : Fields Json τ} {fields : List (FieldCheck κ)} {write : τ → Members Json}
  {t : τ}

/-- A required field is written from what was read of it. -/
theorem Writes.required {name : String} {check : Check κ} {read : Json → Option α}
    {rest : Fields Json τ} {writeField : α → Option Json} {writeRest : τ → Members Json}
    (hread : ∀ x ∈ d.candidates name i, check.Writes S rules r x read writeField)
    (hrest : rest.Writes S rules rule r d (i + 1) fields writeRest) :
    (Fields.required name read rest).Writes S rules rule r d i (.required name check :: fields)
      ((FieldCheck.required name check).writeCons (rule name) writeField writeRest) :=
  cons (f := .required name check) hread (fun _ h => absurd h.symm (Option.some_ne_none _)) hrest

/-- A field that is missing is written as its default is. -/
theorem Writes.default {name : String} {check : Check κ} {read : Json → Option α} {a : α}
    {rest : Fields Json τ} {writeField : α → Option Json} {writeRest : τ → Members Json}
    (hread : ∀ x ∈ d.candidates name i, check.Writes S rules r x read writeField)
    (ha : writeField a = (rule name).missing)
    (hrest : rest.Writes S rules rule r d (i + 1) fields writeRest) :
    (Fields.default name read a rest).Writes S rules rule r d i (.default name check :: fields)
      ((FieldCheck.default name check).writeCons (rule name) writeField writeRest) :=
  cons (f := .default name check) hread (fun _ h => Option.some_inj.1 h ▸ ha) hrest

/-- What is picked from all that is found at a field is written as the canonical form
    of the field. -/
theorem member_of_pick {f : FieldCheck κ} {read : Json → Option α} {missing : Option α}
    {writeField : α → Option Json} {a : α}
    (hread : ∀ x ∈ d.candidates f.name i, f.check.Writes S rules r x read writeField)
    (hmissing : ∀ a, missing = some a → writeField a = (rule f.name).missing)
    (ha : pick read missing (d.candidates f.name i) = some a) :
    f.member (rule f.name) (writeField a) =
      f.canon (rule f.name) (fun n => n.canon S rules) r d i := by
  rw [FieldCheck.canon]
  generalize d.candidates f.name i = l at hread ha
  rcases l with _ | ⟨x, _ | ⟨x', l⟩⟩
  · exact congrArg _ (hmissing a ha)
  · exact congrArg _ (hread x (List.mem_singleton_self x) a ha)
  · cases ha

/-- The fields looked up among members are written canonically. -/
theorem Writes.lookups {ms : Members Json}
    (h : fs.Writes S rules rule r (.object ms) i fields write) (ht : fs.lookups ms = some t) :
    write t = canonFields rule (fun n => n.canon S rules) r (.object ms) i fields := by
  induction h with
  | nil => rfl
  | cons hread hmissing _ ih =>
    rw [Fields.lookups, member_eq_pick] at ht
    obtain ⟨a, ha, ht⟩ := Option.bind_eq_some_iff.1 ht
    obtain ⟨t, hrest, rfl⟩ := Option.map_eq_some_iff.1 ht
    rw [FieldCheck.writeCons, canonFields, member_of_pick hread hmissing ha, ih hrest]

/-- The fields read from elements are written canonically. -/
theorem Writes.visitSeq {xs : List Json}
    (h : fs.Writes S rules rule r (.array xs) i fields write)
    (ht : fs.visitSeq (xs.drop i) = some t) :
    write t = canonFields rule (fun n => n.canon S rules) r (.array xs) i fields := by
  induction h with
  | nil => rfl
  | cons hread hmissing _ ih =>
    rw [visitSeq_drop] at ht
    obtain ⟨a, ha, ht⟩ := Option.bind_eq_some_iff.1 ht
    obtain ⟨t, hrest, rfl⟩ := Option.map_eq_some_iff.1 ht
    rw [FieldCheck.writeCons, canonFields, member_of_pick hread hmissing ha, ih hrest]

end Fields

/-! ### Structs and enums -/

section Writes

variable {S : κ → Schema κ} {rules : κ → String → Rule} {n : Node κ}

/-- A payload is written as the tree of its `Value`. -/
theorem Node.Writes.value (hS : S n.kind = .value) : n.Writes S rules readValue Value.tree := by
  intro v hv
  rw [canon_eq, canonStep, hS]
  exact (congrArg Value.tree (Option.some_inj.1 hv)).symm

theorem Node.Writes.scalar {form : Scalar} (hS : S n.kind = .scalar form)
    {read : Json → Option α} {write : α → Json} (h : form.Writes n.doc read write) :
    n.Writes S rules read write := by
  intro a ha
  rw [canon_eq, canonStep, hS]
  exact h a ha

theorem Node.Writes.congr {read read' : Json → Option α} {write : α → Json}
    (h : n.Writes S rules read write) (heq : read = read') : n.Writes S rules read' write :=
  heq ▸ h

theorem Node.Writes.map {β : Type} {read : Json → Option α} {write : α → Json}
    {write' : β → Json} (h : n.Writes S rules read write) {f : α → β}
    (hf : ∀ a, write' (f a) = write a) : n.Writes S rules (fun d => (read d).map f) write' := by
  intro b hb
  obtain ⟨a, ha, rfl⟩ := Option.map_eq_some_iff.1 hb
  rw [hf, h a ha]

/-- A struct is written as what it is read from if its fields are. -/
theorem Node.Writes.structOn {fields : List (FieldCheck κ)} (hS : S n.kind = .struct fields)
    {fs : Fields Json τ} {write : τ → Members Json}
    (h : fs.Writes S rules (rules n.kind) n.route n.doc 0 fields write) :
    n.Writes S rules (structOn fs) fun t => .object (write t) := by
  intro t ht
  rw [canon_eq, canonStep, hS]
  obtain ⟨r, k, d⟩ := n
  cases d with
  | object ms => exact congrArg Json.object (h.lookups ht)
  | array xs => exact congrArg Json.object (h.visitSeq ht)
  | _ => cases ht

variable {rule : String → Rule} {d : Json} {tag name : String} {make : τ → α}
  {fields : List (FieldCheck κ)} {write : α → Json}

theorem Variant.Writes.unit {a : α} (hwrite : write a = tagged tag name []) :
    (Variant.unit name a).Writes S rules rule d tag (name, []) write where
  name := rfl
  on b hb := by
    have hb : a = b := by
      cases d with
      | object ms => exact Option.some_inj.1 hb
      | array xs =>
        rcases xs with _ | ⟨x, _ | ⟨x', xs⟩⟩
        · cases hb
        · exact Option.some_inj.1 hb
        · cases hb
      | _ => cases hb
    exact hb ▸ hwrite

/-- A struct variant is written with its tag first, then its fields. -/
theorem Variant.Writes.struct {fs : Fields Content τ} (hfs : (tag :: fs.names).Nodup)
    {writeFields : τ → Members Json}
    (h : (fs.comap Json.buffer).Writes S rules rule .buffered d 1 fields writeFields)
    (hwrite : ∀ t, write (make t) = tagged tag name (writeFields t)) :
    (Variant.struct name fs make).Writes S rules rule d tag (name, fields) write where
  name := rfl
  on a ha := by
    cases d with
    | object ms =>
      rw [on_struct_object hfs] at ha
      obtain ⟨t, ht, rfl⟩ := Option.map_eq_some_iff.1 ha
      rw [hwrite, h.lookups ht]
    | array xs =>
      cases xs with
      | nil => cases ha
      | cons x xs =>
        rw [on_struct_array hfs] at ha
        obtain ⟨t, ht, rfl⟩ := Option.map_eq_some_iff.1 ha
        rw [hwrite, h.visitSeq ht]
    | _ => cases ha

theorem Variant.Writes.structBy {onMap onSeq : Fields Content τ}
    (hmap : (tag :: onMap.names).Nodup) (hseq : (tag :: onSeq.names).Nodup)
    {writeFields : τ → Members Json}
    (h : ∀ ms, d = .object ms →
      (onMap.comap Json.buffer).Writes S rules rule .buffered d 1 fields writeFields)
    (h' : ∀ xs, d = .array xs →
      (onSeq.comap Json.buffer).Writes S rules rule .buffered d 1 fields writeFields)
    (hwrite : ∀ t, write (make t) = tagged tag name (writeFields t)) :
    (Variant.structBy name onMap onSeq make).Writes S rules rule d tag (name, fields) write where
  name := rfl
  on a ha := by
    cases d with
    | object ms => exact (Variant.Writes.struct hmap (h ms rfl) hwrite).on a ha
    | array xs =>
      rw [on_structBy_array] at ha
      exact (Variant.Writes.struct hseq (h' xs rfl) hwrite).on a ha
    | _ => cases ha

/-- An enum is written as what it is read from if its variants are. -/
theorem Node.Writes.taggedOn {vs : List (String × List (FieldCheck κ))}
    (hS : S n.kind = .tagged tag vs) {variants : List (Variant α)}
    (h : List.Forall₂
      (fun v fields => v.Writes S rules (rules n.kind) n.doc tag fields write) variants vs) :
    n.Writes S rules (taggedOn n.route tag variants) write := by
  have hnames : variants.map Variant.name = Map.keys vs :=
    map_eq_of_forall₂ h fun v _ fields _ hv => hv.name
  intro a ha
  rw [taggedOn_eq_selects, hnames] at ha
  obtain ⟨i, hi, ha⟩ := Option.bind_eq_some_iff.1 ha
  obtain ⟨v, hv, ha⟩ := Option.bind_eq_some_iff.1 ha
  -- The same index selects the fields of the variant.
  obtain ⟨fields, hfields, hwrites⟩ := exists_getElem?_of_forall₂ h hv
  rw [canon_eq, canonStep, hS]
  dsimp only
  rw [hi, Option.bind_some, hfields, hwrites.on a ha]
  rfl

end Writes

/-! ## Reading and writing -/

/-- The canonical form of a document that is accepted. -/
def Node.recode (S : κ → Schema κ) (rules : κ → String → Rule) (n : Node κ) : Option Json :=
  if n.accepts S then some (n.canon S rules) else none

section

variable {S : κ → Schema κ} {rules : κ → String → Rule} {r : Route} {k : κ}
  {read : Json → Option α} {write : α → Json}

/-- To read a document and to write what was read is to make it canonical. -/
theorem Node.Conforms.map_read {n : Node κ} (h : n.Conforms S read)
    (hwrites : n.Writes S rules read write) : (read n.doc).map write = n.recode S rules := by
  rw [recode, ← h.isSome_read]
  cases hread : read n.doc with
  | none => rfl
  | some a => exact congrArg some (hwrites a hread)

variable (hmap : ∀ d, (read d).map write = (⟨r, k, d⟩ : Node κ).recode S rules)

include hmap

/-- The canonical form of a document is read as the document is, by whatever reads back
    what is written. -/
theorem Node.recode_bind_read {read' : Json → Option α}
    (hread : ∀ d a, read d = some a → read' (write a) = some a) (d : Json) :
    ((⟨r, k, d⟩ : Node κ).recode S rules).bind read' = read d := by
  rw [← hmap]
  cases h : read d with
  | none => rfl
  | some a => exact hread d a h

/-- Documents are read alike exactly if they have the same canonical form, or neither
    is accepted. -/
theorem Node.read_eq_iff (hread : ∀ d a, read d = some a → read (write a) = some a)
    (d d' : Json) : read d = read d' ↔
      (⟨r, k, d⟩ : Node κ).recode S rules = (⟨r, k, d'⟩ : Node κ).recode S rules := by
  refine ⟨fun h => ?_, fun h => ?_⟩
  · rw [← hmap, ← hmap, h]
  · rw [← recode_bind_read hmap hread d, h, recode_bind_read hmap hread d']

end

end Serde
