import AgentPrimitives.Serde.Derive

/-!
# Decoding documents

A document is decoded by one of two routes (`Route`): directly, or out of the
buffer of an enclosing internally tagged enum. On either, what the derived
decoders make of a document only depends on how the route reads a tag, the unit
and the parts of the document: a struct looks up its fields among the members
of an object, or takes the elements of an array in order (`structOn`); an
internally tagged enum looks up its tag first (`taggedOn`).

These are the forms decoders are reasoned about in.
-/

namespace Serde

variable {α τ : Type}

/-- How a document is read. -/
inductive Route
  | direct
  | buffered
  deriving DecidableEq

namespace Route

/-- Reading a document by a route, by one decoder for each deserializer. -/
def read (direct : Json → Option α) (buffered : Content → Option α) : Route → Json → Option α
  | .direct, j => direct j
  | .buffered, j => buffered j.buffer

/-- The identifier a document is read as. -/
def identifier : Route → Json → Option Ident
  | .direct, j => Serde.identifier j
  | .buffered, j => Serde.identifier j.buffer

/-- Reading the unit. -/
def unit : Route → Json → Option Unit
  | .direct, j => Deserializer.unit j
  | .buffered, j => Deserializer.unit j.buffer

/-- The variant a tag selects. -/
def readTag (r : Route) (names : List String) (t : Json) : Option ℕ :=
  (r.identifier t).bind (selectVariant names)

@[simp] theorem identifier_string (r : Route) (s : String) :
    r.identifier (.string s) = some (.name s) := by
  cases r <;> rfl

end Route

/-! ## Structs -/

/-- A struct, read from a document. -/
def structOn (fs : Fields Json τ) : Json → Option τ
  | .object ms => fs.lookups ms
  | .array xs => fs.visitSeq xs
  | _ => none

/-- The derived decoder of a struct, in closed form: `structOn`. -/
theorem deserializeStruct_eq {fs : Fields Json τ} (hfs : fs.names.Nodup) (j : Json) :
    deserializeStruct fs j = structOn fs j := by
  cases j with
  | object ms => exact Fields.visitMap_eq hfs ms
  | number n => cases n <;> rfl
  | _ => rfl

/-- The derived decoder of a struct on a buffer, in closed form. -/
theorem deserializeStruct_buffer {fs : Fields Content τ} (hfs : fs.names.Nodup) (j : Json) :
    deserializeStruct fs j.buffer = structOn (fs.comap Json.buffer) j := by
  rw [deserializeStruct, any_buffer]
  cases j with
  | array xs => exact Fields.visitSeq_map fs Json.buffer xs
  | object ms => exact (Fields.visitMap_eq hfs _).trans (Fields.lookups_mapValues fs Json.buffer ms)
  | number n => cases n <;> rfl
  | _ => rfl

/-! ## Internally tagged enums -/

namespace Variant

/-- What a variant makes of the members of an object, its tag apart. -/
def onMembers (v : Variant α) (ms : Members Json) : Option α :=
  v.visit (.map (Map.mapValues Json.buffer ms))

/-- What a variant makes of the elements of an array that follow its tag. -/
def onElements (v : Variant α) (xs : List Json) : Option α := v.visit (.seq (xs.map Json.buffer))

@[simp] theorem onMembers_unit (name : String) (a : α) (ms : Members Json) :
    (unit name a).onMembers ms = some a := rfl

theorem onElements_unit (name : String) (a : α) (xs : List Json) :
    (unit name a).onElements xs = if xs = [] then some a else none := by
  cases xs <;> rfl

/-- A struct variant reads the members through the buffer. -/
theorem onMembers_struct {fs : Fields Content τ} (hfs : fs.names.Nodup) (name : String)
    (make : τ → α) (ms : Members Json) :
    (struct name fs make).onMembers ms = ((fs.comap Json.buffer).lookups ms).map make := by
  have := deserializeStruct_buffer hfs (.object ms)
  rw [Json.buffer_object] at this
  exact congrArg (Option.map make) this

/-- A struct variant reads the elements through the buffer. -/
theorem onElements_struct {fs : Fields Content τ} (hfs : fs.names.Nodup) (name : String)
    (make : τ → α) (xs : List Json) :
    (struct name fs make).onElements xs = ((fs.comap Json.buffer).visitSeq xs).map make := by
  have := deserializeStruct_buffer hfs (.array xs)
  rw [Json.buffer_array] at this
  exact congrArg (Option.map make) this

end Variant

/-- An internally tagged enum, read from a document. -/
def taggedOn (r : Route) (tag : String) (variants : List (Variant α)) : Json → Option α
  | .object ms => (Fields.member tag (r.readTag (variants.map Variant.name)) none none ms).bind
      fun i => variants[i]?.bind fun v => v.onMembers (ms.filter fun m => m.1 ≠ tag)
  | .array (t :: xs) => (r.readTag (variants.map Variant.name) t).bind
      fun i => variants[i]?.bind fun v => v.onElements xs
  | _ => none

/-- The derived decoder of a tagged enum, in closed form: `taggedOn`. -/
theorem internallyTagged_eq (tag : String) (variants : List (Variant α)) (j : Json) :
    internallyTagged tag variants j = taggedOn .direct tag variants j := by
  cases j with
  | array xs => cases xs <;> rfl
  | object ms =>
    change (tagMembers tag (readTag (variants.map Variant.name)) ms none []).bind _ = _
    rw [tagMembers_eq, Option.bind_map]
    rfl
  | number n => cases n <;> rfl
  | _ => rfl

/-- The derived decoder of a tagged enum on a buffer, in closed form. -/
theorem internallyTagged_buffer (tag : String) (variants : List (Variant α)) (j : Json) :
    internallyTagged tag variants j.buffer = taggedOn .buffered tag variants j := by
  rw [internallyTagged, any_buffer]
  cases j with
  | array xs =>
    cases xs with
    | nil => rfl
    | cons t xs =>
      change (readTag _ t.buffer).bind
        (fun i => visitVariant variants i (.seq ((xs.map Json.buffer).map id))) = _
      rw [List.map_id]
      rfl
  | object ms =>
    change (tagMembers tag (readTag (variants.map Variant.name)) (Map.mapValues Json.buffer ms)
      none []).bind _ = _
    rw [tagMembers_eq, Option.bind_map, Fields.member_mapValues,
      Fields.filter_mapValues fun k => decide (k ≠ tag), Map.mapValues_mapValues]
    rfl
  | number n => cases n <;> rfl
  | _ => rfl

/-! ## Fields of a document -/

/-- What the field `name` with index `i` is read from: the member of that name
    of an object, or the element with that index of an array. -/
def Json.field? (name : String) (i : ℕ) : Json → Option Json
  | .object ms => ms.lookup name
  | .array xs => xs[i]?
  | _ => none

/-- The document is an object, or an array of at most `n` elements. -/
def Json.Fits (n : ℕ) : Json → Prop
  | .object _ => True
  | .array xs => xs.length ≤ n
  | _ => False

instance Json.decidableFits (n : ℕ) : (d : Json) → Decidable (d.Fits n)
  | .object _ => .isTrue trivial
  | .array xs => inferInstanceAs (Decidable (xs.length ≤ n))
  | .null | .bool _ | .number _ | .string _ => .isFalse id

/-- Reading a field of a document, which is `missing` when there is none. -/
def Json.readField (name : String) (i : ℕ) (read : Json → Option α) (missing : Option α)
    (j : Json) : Option α := (j.field? name i).elim missing read

namespace Fields

/-- No field has been read yet. -/
def fresh {δ τ : Type} : Fields δ τ → Bool
  | .nil => true
  | .cons _ _ _ slot rest => slot.isNone && rest.fresh

/-- The number of fields. -/
def length {δ τ : Type} : Fields δ τ → ℕ
  | .nil => 0
  | .cons _ _ _ _ rest => rest.length + 1

/-- Reading the fields of a document, from index `i` on. -/
def readFrom {τ : Type} (j : Json) : ℕ → Fields Json τ → Option τ
  | _, .nil => some ()
  | i, .cons name read missing _ rest =>
    (j.readField name i read missing).bind fun a => (rest.readFrom j (i + 1)).map fun t => (a, t)

theorem fresh_comap {δ ε τ : Type} (f : δ → ε) (fs : Fields ε τ) :
    (fs.comap f).fresh = fs.fresh := by
  induction fs with
  | nil => rfl
  | cons name read missing slot rest ih => rw [comap, fresh, fresh, ih]

theorem length_comap {δ ε τ : Type} (f : δ → ε) (fs : Fields ε τ) :
    (fs.comap f).length = fs.length := by
  induction fs with
  | nil => rfl
  | cons name read missing slot rest ih => rw [comap, length, length, ih]

/-- Among members with distinct names, a field is what its name is bound to. -/
theorem member_eq_readField {ms : Members Json} (hms : (Map.keys ms).Nodup) (name : String) (i : ℕ)
    (read : Json → Option α) (missing : Option α) :
    member name read missing none ms = (Json.object ms).readField name i read missing := by
  rw [member, Map.filter_eq_lookup hms, Json.readField, Json.field?]
  cases ms.lookup name <;> rfl

/-- With distinct names, the fields are looked up one by one. -/
theorem lookups_eq_readFrom {fs : Fields Json τ} (hfs : fs.fresh) {ms : Members Json}
    (hms : (Map.keys ms).Nodup) (i : ℕ) : fs.lookups ms = fs.readFrom (.object ms) i := by
  induction fs generalizing i with
  | nil => rfl
  | cons name read missing slot rest ih =>
    rw [fresh, Bool.and_eq_true, Option.isNone_iff_eq_none] at hfs
    rw [lookups, readFrom, hfs.1, member_eq_readField hms name i, ih hfs.2]

/-- Past the end of an array, every field is missing. -/
theorem visitSeq_nil_eq_readFrom (fs : Fields Json τ) {xs : List Json} {i : ℕ}
    (hi : xs.length ≤ i) : fs.visitSeq [] = fs.readFrom (.array xs) i := by
  induction fs generalizing i with
  | nil => rfl
  | cons name read missing slot rest ih =>
    rw [visitSeq, readFrom, Json.readField, Json.field?, List.getElem?_eq_none hi, Option.elim_none,
      ih (Nat.le_succ_of_le hi)]

/-- Taking the elements `ys` in order is reading them where they follow `xs`. -/
theorem visitSeq_eq_readFrom (fs : Fields Json τ) (xs ys : List Json)
    (h : ys.length ≤ fs.length) : fs.visitSeq ys = fs.readFrom (.array (xs ++ ys)) xs.length := by
  induction fs generalizing xs ys with
  | nil => rw [List.eq_nil_of_length_eq_zero (Nat.le_zero.1 h)]; rfl
  | cons name read missing slot rest ih =>
    cases ys with
    | nil => exact visitSeq_nil_eq_readFrom _ (by simp)
    | cons y ys =>
      have := ih (xs ++ [y]) ys (Nat.le_of_succ_le_succ h)
      rw [List.append_assoc, List.singleton_append, List.length_append] at this
      rw [visitSeq, readFrom, Json.readField, Json.field?, this]
      simp

/-- Elements that remain are rejected. -/
theorem visitSeq_eq_none (fs : Fields Json τ) {ys : List Json} (h : fs.length < ys.length) :
    fs.visitSeq ys = none := by
  induction fs generalizing ys with
  | nil =>
    cases ys with
    | nil => exact absurd h (Nat.lt_irrefl 0)
    | cons y ys => rfl
  | cons name read missing slot rest ih =>
    cases ys with
    | nil => exact absurd h (Nat.not_lt_zero _)
    | cons y ys => simp [visitSeq, ih (Nat.lt_of_succ_lt_succ h)]

end Fields

/-- A field of a document without repeated names has none either. -/
theorem Json.Distinct.field? {j d : Json} (h : j.Distinct) {name : String} {i : ℕ}
    (hd : j.field? name i = some d) : d.Distinct := by
  cases h with
  | array h => exact h d (List.mem_of_getElem? hd)
  | object _ h => exact h (name, d) (Map.mem_of_lookup hd)
  | _ => cases hd

/-- Objects that are documents of a value have distinct names. -/
def Json.DistinctNames : Json → Prop
  | .object ms => (Map.keys ms).Nodup
  | _ => True

theorem Json.Distinct.names {j : Json} (h : j.Distinct) : j.DistinctNames := by
  cases h with
  | object hks _ => exact hks
  | _ => trivial

/-- A struct is read from a document that fits its fields, field by field. -/
theorem structOn_eq_some {fs : Fields Json τ} (hfs : fs.fresh) {j : Json} (hj : j.DistinctNames)
    {t : τ} : structOn fs j = some t ↔ j.Fits fs.length ∧ fs.readFrom j 0 = some t := by
  cases j with
  | object ms => rw [structOn, Fields.lookups_eq_readFrom hfs hj 0]; simp [Json.Fits]
  | array xs =>
    rw [structOn, Json.Fits]
    by_cases h : xs.length ≤ fs.length
    · rw [Fields.visitSeq_eq_readFrom fs [] xs h]
      simp [h]
    · simp [h, Fields.visitSeq_eq_none fs (not_le.1 h)]
  | _ => simp [structOn, Json.Fits]

@[simp] theorem Fields.readFrom_nil {j : Json} {i : ℕ} {t : Unit} :
    (nil : Fields Json Unit).readFrom j i = some t ↔ True := by
  simp [readFrom]

@[simp] theorem Fields.readFrom_cons {name : String} {read : Json → Option α}
    {missing slot : Option α} {rest : Fields Json τ} {j : Json} {i : ℕ} {a : α} {t : τ} :
    (cons name read missing slot rest).readFrom j i = some (a, t) ↔
      j.readField name i read missing = some a ∧ rest.readFrom j (i + 1) = some t := by
  simp [readFrom, Option.bind_eq_some_iff]

/-- The variant the tag of a document selects. -/
def Route.tagOf (r : Route) (tag : String) (names : List String) (j : Json) : Option ℕ :=
  (j.field? tag 0).bind (r.readTag names)

/-- What a variant makes of a document, past its tag. -/
def Variant.on (v : Variant α) (tag : String) : Json → Option α
  | .object ms => v.onMembers (ms.filter fun m => m.1 ≠ tag)
  | .array (_ :: xs) => v.onElements xs
  | _ => none

/-- An internally tagged enum is read from a document as the variant its tag
    selects. -/
theorem taggedOn_eq_some {r : Route} {tag : String} {variants : List (Variant α)} {j : Json}
    (hj : j.DistinctNames) {a : α} :
    taggedOn r tag variants j = some a ↔
      ∃ i v, r.tagOf tag (variants.map Variant.name) j = some i ∧ variants[i]? = some v ∧
        v.on tag j = some a := by
  cases j with
  | object ms =>
    rw [taggedOn, Fields.member_eq_readField hj tag 0, Json.readField, Route.tagOf]
    cases (Json.object ms).field? tag 0 <;> simp [Option.bind_eq_some_iff, Variant.on]
  | array xs =>
    cases xs <;> simp [taggedOn, Route.tagOf, Json.field?, Option.bind_eq_some_iff, Variant.on]
  | _ => simp [taggedOn, Route.tagOf, Json.field?]

/-- One variant after the other. -/
theorem exists_getElem?_cons {P : ℕ → Prop} {Q : Variant α → Prop} {v : Variant α}
    {variants : List (Variant α)} :
    (∃ i w, P i ∧ (v :: variants)[i]? = some w ∧ Q w) ↔
      (P 0 ∧ Q v) ∨ ∃ i w, P (i + 1) ∧ variants[i]? = some w ∧ Q w := by
  constructor
  · rintro ⟨i, w, hP, hw, hQ⟩
    cases i with
    | zero =>
      cases hw
      exact .inl ⟨hP, hQ⟩
    | succ i => exact .inr ⟨i, w, hP, hw, hQ⟩
  · rintro (⟨hP, hQ⟩ | ⟨i, w, hP, hw, hQ⟩)
    exacts [⟨0, v, hP, rfl, hQ⟩, ⟨i + 1, w, hP, hw, hQ⟩]

/-- The fields of a variant that no one has read yet, all named differently,
    and not like the tag. -/
def Fields.wellFormed {δ τ : Type} (tag : String) (fs : Fields δ τ) : Bool :=
  decide (tag :: fs.names).Nodup && fs.fresh

/-- A variant with fields reads them from a document that fits its tag and them. -/
theorem tagOf_and_struct {r : Route} {tag : String} {names : List String} {j : Json}
    (hj : j.DistinctNames) {i : ℕ} {name : String} {fs : Fields Content τ}
    (hwf : fs.wellFormed tag = true) {make : τ → α} {a : α} :
    (r.tagOf tag names j = some i ∧ (Variant.struct name fs make).on tag j = some a) ↔
      r.tagOf tag names j = some i ∧ j.Fits (fs.length + 1) ∧
        ∃ t, (fs.comap Json.buffer).readFrom j 1 = some t ∧ make t = a := by
  rw [Fields.wellFormed, Bool.and_eq_true, decide_eq_true_eq, List.nodup_cons] at hwf
  obtain ⟨⟨htag, hfs⟩, hfresh⟩ := hwf
  refine and_congr_right fun hi => ?_
  have hfresh' : (fs.comap Json.buffer).fresh := (Fields.fresh_comap _ _).trans hfresh
  cases j with
  | object ms =>
    rw [Variant.on, Variant.onMembers_struct hfs, Fields.lookups_filter (by simpa using htag),
      Fields.lookups_eq_readFrom hfresh' hj 1]
    simp [Json.Fits]
  | array xs =>
    cases xs with
    | nil => cases hi
    | cons x xs =>
      rw [Variant.on, Variant.onElements_struct hfs, Json.Fits, List.length_cons,
        Nat.succ_le_succ_iff]
      -- The fields follow the tag; elements that remain are rejected.
      by_cases h : xs.length ≤ fs.length
      · rw [Fields.visitSeq_eq_readFrom _ [x] xs (by simpa [Fields.length_comap] using h)]
        simp [h]
      · rw [Fields.visitSeq_eq_none _ (by simpa [Fields.length_comap] using h)]
        simp [h]
  | _ => cases hi

/-- A variant without fields ignores the members of an object, but not the
    elements of an array. -/
theorem tagOf_and_unit {r : Route} {tag : String} {names : List String} {j : Json} {i : ℕ}
    {name : String} {a b : α} :
    (r.tagOf tag names j = some i ∧ (Variant.unit name a).on tag j = some b) ↔
      r.tagOf tag names j = some i ∧ j.Fits 1 ∧ a = b := by
  refine and_congr_right fun hi => ?_
  cases j with
  | object ms => simp [Variant.on, Json.Fits]
  | array xs =>
    cases xs with
    | nil => cases hi
    | cons x xs => cases xs <;> simp [Variant.on, Variant.onElements_unit, Json.Fits]
  | _ => cases hi

/-- The variant selected by a tag that occurs once. -/
def Route.selects (r : Route) (tag : String) (names : List String) : Json → Option ℕ
  | .object ms => Fields.member tag (r.readTag names) none none ms
  | .array (t :: _) => r.readTag names t
  | _ => none

/-- A tagged enum is read by the variant that its tag selects, if any. -/
theorem taggedOn_eq_selects {r : Route} {tag : String} {variants : List (Variant α)} {d : Json} :
    taggedOn r tag variants d = (r.selects tag (variants.map Variant.name) d).bind
      fun i => variants[i]?.bind fun v => v.on tag d := by
  cases d with
  | array xs => cases xs <;> rfl
  | _ => rfl

/-- Two enums whose variants have the same names, and make the same of the
    document, are read from it as the same. -/
theorem taggedOn_congr {r : Route} {tag : String} {vs ws : List (Variant α)} {j : Json}
    (h : List.Forall₂ (fun v w => v.name = w.name ∧ v.on tag j = w.on tag j) vs ws) :
    taggedOn r tag vs j = taggedOn r tag ws j := by
  rw [taggedOn_eq_selects, taggedOn_eq_selects, map_eq_of_forall₂ h fun v _ w _ hvw => hvw.1]
  refine Option.bind_congr fun i _ => ?_
  -- The same index selects variants that correspond.
  clear * - h
  induction h generalizing i with
  | nil => rfl
  | cons hvw _ ih =>
    cases i with
    | zero => exact hvw.2
    | succ i => exact ih i

/-! ## Reading fields and tags -/

/-- A field is read from the document, or missing and filled in. -/
theorem Json.readField_eq_some {name : String} {i : ℕ} {read : Json → Option α}
    {missing : Option α} {j : Json} {a : α} :
    j.readField name i read missing = some a ↔
      (∃ d, j.field? name i = some d ∧ read d = some a) ∨
        (j.field? name i = none ∧ missing = some a) := by
  rw [readField]
  cases j.field? name i <;> simp

/-- A required field is there. -/
theorem Json.readField_required {name : String} {i : ℕ} {read : Json → Option α} {j : Json}
    {a : α} : j.readField name i read none = some a ↔
      ∃ d, j.field? name i = some d ∧ read d = some a := by
  simp [readField_eq_some]

/-- A field that is read is read with another default as the same, unless it is
    absent. -/
theorem Json.readField_default {name : String} {i : ℕ} {read : Json → Option α} {default : α}
    {j : Json} {a : α} (default' : α) (h : j.readField name i read (some default) = some a) :
    j.readField name i read (some default') =
      some (if j.field? name i = none then default' else a) := by
  rcases readField_eq_some.1 h with ⟨d, hd, hread⟩ | ⟨hnone, -⟩
  · rw [if_neg (by simp [hd])]
    exact readField_eq_some.2 (.inl ⟨d, hd, hread⟩)
  · rw [if_pos hnone]
    exact readField_eq_some.2 (.inr ⟨hnone, rfl⟩)

theorem idxOf?_eq_some {names : List String} (hnames : names.Nodup) {s : String} {i : ℕ} :
    names.idxOf? s = some i ↔ names[i]? = some s := by
  induction names generalizing i with
  | nil => simp
  | cons name names ih =>
    rw [List.nodup_cons] at hnames
    rw [List.idxOf?_cons]
    by_cases hs : name = s
    · subst hs
      cases i with
      | zero => simp
      | succ i =>
        simp only [beq_self_eq_true, if_true, List.getElem?_cons_succ]
        exact iff_of_false (by simp) fun h => hnames.1 (List.mem_of_getElem? h)
    · cases i <;> simp [hs, ih hnames.2]

/-- A tag selects the variant it names, or, out of the buffer, the variant it is
    the index of. -/
theorem Route.readTag_eq_some {r : Route} {names : List String} (hnames : names.Nodup) {t : Json}
    {i : ℕ} : r.readTag names t = some i ↔ ∃ name, names[i]? = some name ∧
      (t = .string name ∨ r = .buffered ∧ ∃ n : UInt64, t = .number (.posInt n) ∧ n.toNat = i) := by
  have hindex : ∀ n : UInt64, selectVariant names (.index n) = some i ↔
      (∃ name, names[i]? = some name) ∧ n.toNat = i := by
    intro n
    rw [selectVariant, Option.ite_none_right_eq_some, Option.some_inj]
    constructor
    · rintro ⟨hn, hi⟩
      exact ⟨⟨_, List.getElem?_eq_getElem (hi ▸ hn)⟩, hi⟩
    · rintro ⟨⟨name, h⟩, hi⟩
      exact ⟨hi ▸ (List.getElem?_eq_some_iff.1 h).1, hi⟩
  rw [readTag, Option.bind_eq_some_iff]
  cases t with
  | string s => simp [selectVariant, idxOf?_eq_some hnames]
  | number n =>
    cases r with
    | direct => simp [identifier, Serde.identifier]
    | buffered => cases n <;> simp [identifier, Number.buffer, Serde.identifier, hindex]
  | _ => cases r <;> simp [identifier, Serde.identifier]

/-- A tag names its variant, or, in a buffer, gives its index. -/
theorem Route.tagOf_eq_some {r : Route} {tag : String} {names : List String}
    (hnames : names.Nodup) {j : Json} {i : ℕ} :
    r.tagOf tag names j = some i ↔ ∃ name, names[i]? = some name ∧
      (j.field? tag 0 = some (.string name) ∨
        r = .buffered ∧ ∃ n : UInt64,
          j.field? tag 0 = some (.number (.posInt n)) ∧ n.toNat = i) := by
  rw [tagOf, Option.bind_eq_some_iff]
  simp only [readTag_eq_some hnames]
  aesop

/-- A unit variant carries null, or, in a buffer, an empty object. -/
theorem Route.unit_eq_some {r : Route} {j : Json} :
    r.unit j = some () ↔ j = .null ∨ r = .buffered ∧ j = .object [] := by
  cases r with
  | direct => cases j <;> simp [unit, Deserializer.unit]
  | buffered =>
    cases j with
    | number n => cases n <;> simp [unit, Deserializer.unit, Number.buffer]
    | object ms => cases ms <;> simp [unit, Deserializer.unit]
    | _ => simp [unit, Deserializer.unit]

/-- A variant of an externally tagged enum is read from its name, or from an
    object whose only member has its name and is the unit. -/
theorem read_readUnitVariant_eq_some {r : Route} {variants : Members α} {j : Json} {a : α} :
    r.read (readUnitVariant variants) (readUnitVariant variants) j = some a ↔
      ∃ name, variants.lookup name = some a ∧
        (j = .string name ∨ ∃ d, j = .object [(name, d)] ∧ r.unit d = some ()) := by
  cases r with
  | direct =>
    rw [Route.read]
    cases j with
    | number n => cases n <;> simp [readUnitVariant, any, Number.visit]
    | object ms =>
      -- Only an object with a single member can be a variant.
      rcases ms with _ | ⟨⟨name, d⟩, _ | ⟨m, ms⟩⟩
      · simp [readUnitVariant, any]
      · simp [readUnitVariant, any, Option.bind_eq_some_iff, Route.unit, Unique.exists_iff]
      · simp [readUnitVariant, any]
    | _ => simp [readUnitVariant, any]
  | buffered =>
    rw [Route.read, readUnitVariant, any_buffer]
    cases j with
    | number n => cases n <;> simp [any, Number.visit, Visit.mapParts]
    | object ms =>
      rcases ms with _ | ⟨⟨name, d⟩, _ | ⟨m, ms⟩⟩
      · simp [any, Visit.mapParts]
      · simp [any, Visit.mapParts, Option.bind_eq_some_iff, Route.unit, Unique.exists_iff]
      · simp [any, Visit.mapParts]
    | _ => simp [any, Visit.mapParts]

/-! ## Values and texts -/

/-- `serde_json::to_value`. -/
def toValue (serialize : α → Json) (a : α) : Value := (serialize a).toValue

/-- `serde_json::from_value`. -/
def fromValue (deserialize : Json → Option α) (v : Value) : Option α := deserialize v.tree

/-- How deep the documents may be that `serde_json` reads from a text. -/
def recursionLimit : ℕ := 127

/-- `serde_json::from_str`, given the document of the text, with the limit on the whole
    document.

    For internally tagged enums, which buffer the members they do not know, and for all
    that is written by an encoder, this is what `from_str` does. A plain struct skips
    unknown members without counting their levels, so `from_str` also takes documents
    that are too deep only there. No number is printed or parsed (see `TextFormat`). -/
def fromDocument (deserialize : Json → Option α) (j : Json) : Option α :=
  if j.depth ≤ recursionLimit then deserialize j else none

/-- A tag given as a string means the same on both routes. -/
theorem Route.tagOf_of_string (r : Route) {tag name : String} {j : Json}
    (h : j.field? tag 0 = some (.string name)) (names : List String) :
    r.tagOf tag names j = names.idxOf? name := by
  rw [tagOf, h, Option.bind_some, readTag, identifier_string, Option.bind_some, selectVariant]

/-- What is found in the document written for a variant. -/
@[simp] theorem Route.tagOf_tagged (r : Route) (tag name : String) (names : List String)
    (ms : Members Json) : r.tagOf tag names (tagged tag name ms) = names.idxOf? name := by
  simp [tagOf, tagged, Json.field?, readTag, selectVariant]

@[simp] theorem fits_tagged (tag name : String) (ms : Members Json) (n : ℕ) :
    (tagged tag name ms).Fits n := trivial

@[simp] theorem field?_tagged {tag k : String} (h : k ≠ tag) (name : String) (ms : Members Json)
    (i : ℕ) : (tagged tag name ms).field? k i = ms.lookup k := by
  rw [tagged, Json.field?, List.lookup_cons, beq_false_of_ne h]

@[simp] theorem field?_object (k : String) (i : ℕ) (ms : Members Json) :
    (Json.object ms).field? k i = ms.lookup k := rfl

@[simp] theorem fits_object (ms : Members Json) (n : ℕ) : (Json.object ms).Fits n := trivial

/-! ## Tags that are names -/

/-- The name that the tag of a document is, if it has one tag. -/
def Json.tagName (tag : String) : Json → Option String
  | .object ms => Fields.member tag readString none none ms
  | .array (t :: _) => readString t
  | _ => none

/-- Straight from the document, a tag is a name. -/
theorem Route.readTag_direct (names : List String) (t : Json) :
    direct.readTag names t = (readString t).bind names.idxOf? := by
  cases t with
  | number n => cases n <;> rfl
  | _ => rfl

/-- Straight from the document, a variant is selected by its name. -/
theorem Route.selects_direct (tag : String) (names : List String) (d : Json) :
    direct.selects tag names d = (d.tagName tag).bind names.idxOf? := by
  cases d with
  | object ms =>
    rw [selects, Json.tagName, Fields.member, Fields.member]
    generalize ms.filter (fun m => decide (m.1 = tag)) = l
    rcases l with _ | ⟨m, _ | ⟨m', l⟩⟩
    · rfl
    · exact readTag_direct names m.2
    · rfl
  | array xs =>
    cases xs with
    | nil => rfl
    | cons t xs => exact readTag_direct names t
  | _ => rfl

/-- Read directly, an enum is read as the variant its tag names. -/
theorem taggedOn_direct_eq_some {tag : String} {variants : List (Variant α)}
    (hvariants : (variants.map Variant.name).Nodup) {d : Json} {a : α} :
    taggedOn .direct tag variants d = some a ↔
      ∃ v ∈ variants, d.tagName tag = some v.name ∧ v.on tag d = some a := by
  rw [taggedOn_eq_selects, Route.selects_direct, Option.bind_assoc]
  simp only [Option.bind_eq_some_iff, idxOf?_eq_some hvariants, List.getElem?_map,
    Option.map_eq_some_iff]
  constructor
  · rintro ⟨name, hname, i, ⟨v, hv, rfl⟩, w, hw, ha⟩
    cases hv.symm.trans hw
    exact ⟨v, List.mem_of_getElem? hv, hname, ha⟩
  · rintro ⟨v, hv, hname, ha⟩
    obtain ⟨i, hi⟩ := List.mem_iff_getElem?.1 hv
    exact ⟨v.name, hname, i, ⟨v, hi, rfl⟩, v, hi, ha⟩

/-- Variants with the same fields read them alike, whatever they make of them. -/
theorem Variant.on_struct_comp {β : Type} (name name' : String) (fs : Fields Content τ)
    (make : τ → α) (f : α → β) (tag : String) (d : Json) :
    (struct name fs (f ∘ make)).on tag d = ((struct name' fs make).on tag d).map f := by
  cases d with
  | object ms => exact (Option.map_map f make _).symm
  | array xs =>
    cases xs with
    | nil => rfl
    | cons x xs => exact (Option.map_map f make _).symm
  | _ => rfl

/-- A variant reads the same fields, whatever is made of them and whatever its name. -/
theorem Variant.on_structBy_comp {β : Type} (name name' : String) (onMap onSeq : Fields Content τ)
    (make : τ → α) (f : α → β) (tag : String) (d : Json) :
    (structBy name onMap onSeq (f ∘ make)).on tag d =
      ((structBy name' onMap onSeq make).on tag d).map f := by
  cases d with
  | object ms => exact (Option.map_map f make _).symm
  | array xs =>
    cases xs with
    | nil => rfl
    | cons x xs => exact (Option.map_map f make _).symm
  | _ => rfl

theorem Variant.name_unit (name : String) (a : α) : (unit name a).name = name := rfl

theorem Variant.name_struct (name : String) (fs : Fields Content τ) (make : τ → α) :
    (struct name fs make).name = name := rfl

theorem Variant.name_structBy (name : String) (onMap onSeq : Fields Content τ) (make : τ → α) :
    (structBy name onMap onSeq make).name = name := rfl

end Serde
