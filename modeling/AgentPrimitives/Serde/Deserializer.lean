import AgentPrimitives.Serde.Content

/-!
# Deserializers

What the decoders of a type can ask of the thing they read (`Deserializer`):
to call the visitor method of what it finds (`deserialize_any`), to be read as
an identifier or as the unit, to be buffered, and to be read as a value. There
are two: the JSON document itself, and content buffered from one. They answer
alike (`any_buffer`, `value_buffer`) except in two places: buffered content is
also an identifier when it is an unsigned integer, the index of a variant, and
also the unit when it is an empty map.

The readers of the primitive types are written once, for every deserializer. A
reader returns `none` when it rejects; which error it rejects with is not
modelled.
-/

namespace Serde

/-- The visitor method `deserialize_any` calls, with what it is given. -/
inductive Visit (δ : Type)
  | unit
  | bool (b : Bool)
  | u64 (n : UInt64)
  | i64 (i : Int64)
  | f64 (bits : UInt64)
  | string (s : String)
  | seq (ds : List δ)
  | map (ms : Members δ)

/-- What an identifier is visited as: a name, or an index in the list of names. -/
inductive Ident
  | name (s : String)
  | index (n : UInt64)

/-- A source that decoders read from. -/
class Deserializer (δ : Type) where
  /-- `deserialize_any`. -/
  any : δ → Visit δ
  /-- `deserialize_identifier`. -/
  identifier : δ → Option Ident
  /-- `deserialize_unit`. -/
  unit : δ → Option Unit
  /-- `Content::deserialize`. -/
  content : δ → Content
  /-- `serde_json::Value::deserialize`. -/
  value : δ → Value

export Deserializer (any identifier content value)

/-- The number visited, by its kind. -/
def Number.visit : Number → Visit Json
  | .posInt n => .u64 n
  | .negInt i _ => .i64 i
  | .float bits _ => .f64 bits

/-- `serde_json::Value`, or the reader of a text, as a deserializer. -/
instance : Deserializer Json where
  any
    | .null => .unit
    | .bool b => .bool b
    | .number n => n.visit
    | .string s => .string s
    | .array xs => .seq xs
    | .object ms => .map ms
  identifier
    | .string s => some (.name s)
    | _ => none
  unit
    | .null => some ()
    | _ => none
  content := Json.buffer
  value := Json.toValue

/-- `serde::__private::de::ContentDeserializer`. -/
instance : Deserializer Content where
  any
    | .unit => .unit
    | .bool b => .bool b
    | .u64 n => .u64 n
    | .i64 i => .i64 i
    | .f64 bits => .f64 bits
    | .string s => .string s
    | .seq cs => .seq cs
    | .map ms => .map ms
  identifier
    | .string s => some (.name s)
    | .u64 n => some (.index n)
    | _ => none
  unit
    | .unit => some ()
    | .map [] => some ()
    | _ => none
  content c := c
  value := Content.toValue

/-- The same visit, with parts of another deserializer. -/
def Visit.mapParts {δ ε : Type} (f : δ → ε) : Visit δ → Visit ε
  | .unit => .unit
  | .bool b => .bool b
  | .u64 n => .u64 n
  | .i64 i => .i64 i
  | .f64 bits => .f64 bits
  | .string s => .string s
  | .seq ds => .seq (ds.map f)
  | .map ms => .map (Map.mapValues f ms)

/-- A buffer presents itself as the document it was made from. -/
theorem any_buffer (j : Json) : any j.buffer = (any j).mapParts Json.buffer := by
  cases j with
  | null => rfl
  | bool b => rfl
  | number n => cases n <;> rfl
  | string s => rfl
  | array xs => rw [Json.buffer_array]; rfl
  | object ms => rw [Json.buffer_object]; rfl

@[simp] theorem value_buffer (j : Json) : value j.buffer = value j := Content.toValue_buffer j

/-! ## Readers -/

/-- Documented round trip of a type that is written as a string. -/
class StringCodec (α : Type) where
  format : α → String
  parse : String → Option α
  parse_format : ∀ a, parse (format a) = some a

/-- The strings of a canonical form, written as they are. -/
structure Canonical (form : String → Bool) where
  text : String
  canonical : form text = true

instance (form : String → Bool) : StringCodec (Canonical form) where
  format a := a.text
  parse s := if h : form s = true then some ⟨s, h⟩ else none
  parse_format a := dif_pos a.canonical

section Readers

variable {δ α : Type} [Deserializer δ]

/-- `String::deserialize`. -/
def readString (d : δ) : Option String :=
  match any d with
  | .string s => some s
  | _ => none

/-- `bool::deserialize`. -/
def readBool (d : δ) : Option Bool :=
  match any d with
  | .bool b => some b
  | _ => none

/-- Deserialising a type that is written as a string. -/
def readParsed [StringCodec α] (d : δ) : Option α := (readString d).bind StringCodec.parse

/-- `Value::deserialize`. -/
def readValue (d : δ) : Option Value := some (value d)

/-- `Option::deserialize`: what is null is absent, whatever the type inside. -/
def readOption (read : δ → Option α) (d : δ) : Option (Option α) :=
  match any d with
  | .unit => some none
  | _ => (read d).map some

/-- `Vec::deserialize`. -/
def readVec (read : δ → Option α) (d : δ) : Option (List α) :=
  match any d with
  | .seq ds => ds.mapM read
  | _ => none

/-- An externally tagged enum of unit variants: the name of a variant, or an
    object whose only member has that name, and the unit as its value. -/
def readUnitVariant (variants : Members α) (d : δ) : Option α :=
  match any d with
  | .string s => variants.lookup s
  | .map [(k, d)] => (variants.lookup k).bind fun a => (Deserializer.unit d).map fun () => a
  | _ => none

end Readers

section Buffer

variable {α : Type} (j : Json)

@[simp] theorem readString_buffer : readString j.buffer = readString j := by
  rw [readString, readString, any_buffer]
  cases any j <;> rfl

@[simp] theorem readBool_buffer : readBool j.buffer = readBool j := by
  rw [readBool, readBool, any_buffer]
  cases any j <;> rfl

@[simp] theorem readParsed_buffer [StringCodec α] :
    readParsed (α := α) j.buffer = readParsed j := by
  rw [readParsed, readString_buffer, readParsed]

@[simp] theorem readValue_buffer : readValue j.buffer = readValue j := by
  rw [readValue, value_buffer, readValue]

/-- An optional value is read from the buffer as from the document. -/
theorem readOption_buffer (read : Content → Option α) :
    readOption read j.buffer = readOption (fun j : Json => read j.buffer) j := by
  rw [readOption, readOption, any_buffer]
  cases any j <;> rfl

/-- A sequence is read from the buffer as from the document. -/
theorem readVec_buffer (read : Content → Option α) :
    readVec read j.buffer = readVec (fun j : Json => read j.buffer) j := by
  rw [readVec, readVec, any_buffer]
  cases any j with
  | seq ds => exact List.mapM_map
  | _ => rfl

end Buffer

/-! ## Related lists -/

section Related

variable {α : Type}

/-- Lists that are related element by element are mapped to the same list, if
    related elements are. -/
theorem map_eq_of_forall₂ {α β γ : Type*} {R : α → β → Prop} {f : α → γ} {g : β → γ} {xs : List α}
    {ys : List β} (h : List.Forall₂ R xs ys) (hfg : ∀ x ∈ xs, ∀ y ∈ ys, R x y → f x = g y) :
    xs.map f = ys.map g := by
  induction h with
  | nil => rfl
  | cons hxy _ ih =>
    simp only [List.forall_mem_cons] at hfg
    rw [List.map_cons, List.map_cons, hfg.1.1 hxy, ih fun x hx => (hfg.2 x hx).2]

/-- Related lists have related elements at every index. -/
theorem exists_getElem?_of_forall₂ {β γ : Type*} {R : β → γ → Prop} {xs : List β} {ys : List γ}
    (h : List.Forall₂ R xs ys) {i : ℕ} {x : β} (hx : xs[i]? = some x) :
    ∃ y, ys[i]? = some y ∧ R x y := by
  induction h generalizing i with
  | nil => simp at hx
  | cons hxy _ ih =>
    cases i with
    | zero =>
      cases hx
      exact ⟨_, rfl, hxy⟩
    | succ i => exact ih hx

theorem exists_mem_of_forall₂ {β γ : Type*} {R : β → γ → Prop} {xs : List β} {ys : List γ}
    (h : List.Forall₂ R xs ys) {y : γ} (hy : y ∈ ys) : ∃ x ∈ xs, R x y := by
  induction h with
  | nil => exact absurd hy List.not_mem_nil
  | @cons x _ xs _ hxy _ ih =>
    rcases List.mem_cons.1 hy with rfl | hy
    · exact ⟨x, List.mem_cons_self, hxy⟩
    · obtain ⟨x', hx', hxy'⟩ := ih hy
      exact ⟨x', List.mem_cons_of_mem x hx', hxy'⟩

/-- Items that have a value each have a list of values. -/
theorem exists_forall₂ {β γ : Type*} {R : β → γ → Prop} {xs : List β} (h : ∀ x ∈ xs, ∃ y, R x y) :
    ∃ ys, List.Forall₂ R xs ys := by
  induction xs with
  | nil => exact ⟨[], .nil⟩
  | cons x xs ih =>
    rw [List.forall_mem_cons] at h
    obtain ⟨y, hy⟩ := h.1
    obtain ⟨ys, hys⟩ := ih h.2
    exact ⟨y :: ys, .cons hy hys⟩

/-- Related elements that are decoded alike make lists that are. -/
theorem mapM_eq_of_forall₂ {β γ : Type} {R : β → γ → Prop} {f : β → Option α} {g : γ → Option α}
    {xs : List β} {ys : List γ} (h : List.Forall₂ R xs ys)
    (hfg : ∀ x ∈ xs, ∀ y, R x y → f x = g y) : xs.mapM f = ys.mapM g := by
  induction h with
  | nil => rfl
  | cons hxy _ ih =>
    rw [List.forall_mem_cons] at hfg
    rw [List.mapM_cons, List.mapM_cons, hfg.1 _ hxy, ih hfg.2]

theorem mapM_congr {β : Type} {f g : β → Option α} {xs : List β} (h : ∀ x ∈ xs, f x = g x) :
    xs.mapM f = xs.mapM g :=
  mapM_eq_of_forall₂ (List.forall₂_same.2 fun x _ => (rfl : x = x)) fun x hx _ hxy => hxy ▸ h x hx

end Related

/-! ## What a document is read as -/

section Document

variable {α β : Type} {j : Json}

/-- Decoding a list is decoding its elements. -/
theorem mapM_eq_some {f : α → Option β} {xs : List α} {ys : List β} :
    xs.mapM f = some ys ↔ List.Forall₂ (fun x y => f x = some y) xs ys := by
  induction xs generalizing ys with
  | nil => simp [eq_comm]
  | cons x xs ih =>
    cases ys <;> simp [Option.bind_eq_some_iff, ih]

/-- Only a string is read as a string. -/
theorem readString_eq_some {s : String} : readString j = some s ↔ j = .string s := by
  cases j with
  | number n => cases n <;> simp [readString, any, Number.visit]
  | _ => simp [readString, any]

/-- Only a boolean is read as a boolean. -/
theorem readBool_eq_some {b : Bool} : readBool j = some b ↔ j = .bool b := by
  cases j with
  | number n => cases n <;> simp [readBool, any, Number.visit]
  | _ => simp [readBool, any]

/-- Only a string that parses is read as an id or a time. -/
theorem readParsed_eq_some [StringCodec α] {a : α} :
    readParsed j = some a ↔ ∃ s, j = .string s ∧ StringCodec.parse s = some a := by
  simp [readParsed, Option.bind_eq_some_iff, readString_eq_some]

theorem readValue_eq_some {v : Value} : readValue j = some v ↔ j.toValue = v := by
  simp [readValue, value]

/-- Any document but null is read as a present value. -/
theorem readOption_of_ne_null (hj : j ≠ .null) (read : Json → Option α) :
    readOption read j = (read j).map some := by
  cases j with
  | null => exact absurd rfl hj
  | number n => cases n <;> rfl
  | _ => rfl

/-- Null, and only null, is read as an absent value. -/
theorem readOption_eq_some {read : Json → Option α} {a : Option α} :
    readOption read j = some a ↔
      (j = .null ∧ a = none) ∨ (j ≠ .null ∧ ∃ x, read j = some x ∧ a = some x) := by
  cases j with
  | number n => cases n <;> simp [readOption, any, Number.visit, eq_comm]
  | _ => simp [readOption, any, eq_comm]

/-- Only an array is read as a sequence, item by item. -/
theorem readVec_eq_some {read : Json → Option α} {ys : List α} :
    readVec read j = some ys ↔
      ∃ xs, j = .array xs ∧ List.Forall₂ (fun x y => read x = some y) xs ys := by
  cases j with
  | number n => cases n <;> simp [readVec, any, Number.visit]
  | _ => simp [readVec, any, mapM_eq_some]

end Document

end Serde
