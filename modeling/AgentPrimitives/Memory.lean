import AgentPrimitives.Serde.Document

/-!
# Memory schemas

The memory contract of `memory.rs`: which keys a harness declares to read and
write, and for how long their values live.
-/

namespace AgentPrimitives

open Serde

/-- How long the value of a key lives. -/
inductive MemoryKind
  | perSession
  | perUser
  | global
  deriving DecidableEq

/-- One declared memory slot. -/
structure MemoryKey where
  name : String
  kind : MemoryKind
  description : String
  deriving DecidableEq

/-- The memory contract a harness declares. -/
structure MemorySchema where
  keys : List MemoryKey
  deriving DecidableEq

namespace MemoryKind

/-- Encoding of a kind, in snake case. -/
def serialize : MemoryKind → Json
  | .perSession => .string "per_session"
  | .perUser => .string "per_user"
  | .global => .string "global"

/-- The variants of `MemoryKind`, by name. -/
def variants : Members MemoryKind :=
  [("per_session", .perSession), ("per_user", .perUser), ("global", .global)]

/-- Decoding of a kind, from its name. -/
def deserialize {δ : Type} [Deserializer δ] (d : δ) : Option MemoryKind :=
  readUnitVariant variants d

end MemoryKind

namespace MemoryKey

/-- Encoding of a slot. -/
def serialize (k : MemoryKey) : Json :=
  .object [("name", .string k.name), ("kind", k.kind.serialize),
    ("description", .string k.description)]

/-- The fields of `MemoryKey`, none with a default. -/
def fields {δ : Type} [Deserializer δ] : Fields δ (String × MemoryKind × String × Unit) :=
  .required "name" readString
    (.required "kind" MemoryKind.deserialize (.required "description" readString .nil))

/-- Decoding of a slot. -/
def deserialize {δ : Type} [Deserializer δ] (d : δ) : Option MemoryKey :=
  (deserializeStruct fields d).map fun (name, kind, description, ()) => ⟨name, kind, description⟩

end MemoryKey

namespace MemorySchema

/-- `MemorySchema::default`. -/
def default : MemorySchema where
  keys := []

/-- Encoding of a contract. -/
def serialize (s : MemorySchema) : Json :=
  .object [("keys", .array (s.keys.map MemoryKey.serialize))]

/-- The field of `MemorySchema`, which is required, though it may be empty. -/
def fields {δ : Type} [Deserializer δ] : Fields δ (List MemoryKey × Unit) :=
  .required "keys" (readVec MemoryKey.deserialize) .nil

/-- Decoding of a contract. -/
def deserialize {δ : Type} [Deserializer δ] (d : δ) : Option MemorySchema :=
  (deserializeStruct fields d).map fun (keys, ()) => ⟨keys⟩

end MemorySchema

end AgentPrimitives
