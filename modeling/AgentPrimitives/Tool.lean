import AgentPrimitives.Message

/-!
# Tools

The wire types of `tool.rs`: the call of a tool the model asks for, and the
reply to it. Both also occur as content blocks (`ContentBlock.toolUse`,
`ContentBlock.toolResult`), with their own copy of the fields and of the rule
that leaves `is_error` out.

The declaration of a tool is what the model is told about it (`ToolSchema`), and
what policies are (`ToolAnnotations`).
-/

namespace AgentPrimitives

open Serde

/-- A request to invoke a named tool. -/
structure ToolCall where
  id : String
  name : String
  input : Value

/-- The reply to a tool call. -/
structure ToolResult where
  toolUseId : String
  content : List ContentBlock
  isError : Bool

/-- The declaration of a tool the model sees. -/
structure ToolSchema where
  name : String
  description : String
  inputSchema : Value

/-- What a tool declares about itself to policies. -/
structure ToolAnnotations where
  readOnly : Bool
  destructive : Bool
  networkAccess : Bool
  idempotent : Bool
  deriving DecidableEq

namespace ToolCall

/-- Encoding of a call: all three fields are written. -/
def serialize (c : ToolCall) : Json :=
  .object [("id", .string c.id), ("name", .string c.name), ("input", c.input.tree)]

/-- The fields of `ToolCall`, none with a default. The input may be any value. -/
def fields {δ : Type} [Deserializer δ] : Fields δ (String × String × Value × Unit) :=
  .required "id" readString (.required "name" readString (.required "input" readValue .nil))

/-- Decoding of a call, from an object or by position. -/
def deserialize {δ : Type} [Deserializer δ] (d : δ) : Option ToolCall :=
  (deserializeStruct fields d).map fun (id, name, input, ()) => ⟨id, name, input⟩

end ToolCall

namespace ToolResult

/-- `is_false` of `tool.rs`. -/
def isFalse (b : Bool) : Bool := !b

/-- A successful result with a single text. -/
def text (toolUseId text : String) : ToolResult where
  toolUseId := toolUseId
  content := [.text text]
  isError := false

/-- An error result with a diagnostic message. -/
def error (toolUseId message : String) : ToolResult where
  toolUseId := toolUseId
  content := [.text message]
  isError := true

/-- Encoding of a reply: `is_error` is left out unless it is set. -/
def serialize (r : ToolResult) : Json :=
  .object ([("tool_use_id", .string r.toolUseId),
    ("content", .array (r.content.map ContentBlock.serialize))] ++
      memberUnless (isFalse r.isError) "is_error" (.bool r.isError))

/-- The fields of `ToolResult`, given how a block is decoded; `is_error` is false by
    default. -/
def fields {δ : Type} [Deserializer δ] (block : δ → Option ContentBlock) :
    Fields δ (String × List ContentBlock × Bool × Unit) :=
  .required "tool_use_id" readString
    (.required "content" (readVec block) (.default "is_error" readBool false .nil))

/-- Decoding of a reply. Nothing demands that it has a block. -/
def deserialize {δ : Type} [Deserializer δ] (d : δ) : Option ToolResult :=
  (deserializeStruct (fields ContentBlock.deserialize) d).map
    fun (toolUseId, content, isError, ()) => ⟨toolUseId, content, isError⟩

end ToolResult

namespace ToolSchema

/-- `ToolSchema::new`. -/
def new (name description : String) (inputSchema : Value) : ToolSchema where
  name := name
  description := description
  inputSchema := inputSchema

/-- Encoding of a declaration, the schema of its input as it is. -/
def serialize (s : ToolSchema) : Json :=
  .object [("name", .string s.name), ("description", .string s.description),
    ("input_schema", s.inputSchema.tree)]

/-- The fields of `ToolSchema`, none with a default. -/
def fields {δ : Type} [Deserializer δ] : Fields δ (String × String × Value × Unit) :=
  .required "name" readString
    (.required "description" readString (.required "input_schema" readValue .nil))

/-- Decoding of a declaration. The schema of the input may be any value. -/
def deserialize {δ : Type} [Deserializer δ] (d : δ) : Option ToolSchema :=
  (deserializeStruct fields d).map
    fun (name, description, inputSchema, ()) => ⟨name, description, inputSchema⟩

end ToolSchema

namespace ToolAnnotations

/-- `ToolAnnotations::default`: nothing is claimed. -/
def default : ToolAnnotations where
  readOnly := false
  destructive := false
  networkAccess := false
  idempotent := false

/-- Encoding of annotations: all flags are written. -/
def serialize (a : ToolAnnotations) : Json :=
  .object [("read_only", .bool a.readOnly), ("destructive", .bool a.destructive),
    ("network_access", .bool a.networkAccess), ("idempotent", .bool a.idempotent)]

/-- The fields of `ToolAnnotations`: a flag that is missing is false. -/
def fields {δ : Type} [Deserializer δ] : Fields δ (Bool × Bool × Bool × Bool × Unit) :=
  .default "read_only" readBool false (.default "destructive" readBool false
    (.default "network_access" readBool false (.default "idempotent" readBool false .nil)))

/-- Decoding of annotations. -/
def deserialize {δ : Type} [Deserializer δ] (d : δ) : Option ToolAnnotations :=
  (deserializeStruct fields d).map fun (readOnly, destructive, networkAccess, idempotent, ()) =>
    ⟨readOnly, destructive, networkAccess, idempotent⟩

end ToolAnnotations

end AgentPrimitives
