import AgentPrimitives.Serde.Document

/-!
# Messages

The conversation messages of `message.rs`: the shape of a turn as the agent
loop, the providers, the tools and the hooks exchange it, with the encoders and
decoders serde derives for it.

Encoders give the document that is written, with its members in the order of
the declaration. What the decoders take from their environment, a fresh UUID
and the time, is read from an `Env`.

A content block may hold blocks, in a `tool_result`. Its decoder recurs through
buffered content, to a bounded depth (`ContentBlock.deserializeUpTo`); the depth
of the content suffices, and the decoder satisfies its recursive equation
(`ContentBlock.read_eq`).
-/

namespace AgentPrimitives

open Serde

/-- What decoding may take from outside the document. -/
structure Env (Uuid DateTime : Type) where
  /-- `Uuid::new_v4()`. -/
  newV4 : Uuid
  /-- `Utc::now()`. -/
  now : DateTime

/-- A stable identifier of a message. -/
structure MessageId (Uuid : Type) where
  uuid : Uuid

/-- Strings of a given length with separators at given positions, and otherwise
    characters satisfying `p`. -/
def hasForm (length : ℕ) (separators : List (ℕ × Char)) (p : Char → Bool) (s : String) : Bool :=
  s.toList.length = length &&
    s.toList.zipIdx.all fun (c, i) => (separators.lookup i).elim (p c) fun c' => c = c'

/-- The form in which a UUID is written. -/
def isUuid : String → Bool :=
  hasForm 36 [(8, '-'), (13, '-'), (18, '-'), (23, '-')]
    fun c => c.isDigit || ('a' ≤ c && c ≤ 'f')

/-- The form in which a time is written, to the second. -/
def isTimestamp : String → Bool :=
  hasForm 20 [(4, '-'), (7, '-'), (10, 'T'), (13, ':'), (16, ':'), (19, 'Z')] Char.isDigit

/-- Who authored a message. -/
inductive Role
  | system
  | user
  | assistant
  | tool
  deriving DecidableEq

/-- Source of an image payload. -/
inductive ImageSource
  | base64 (mediaType data : String)
  | url (url : String)
  deriving DecidableEq

/-- Source of a document payload. -/
inductive DocumentSource
  | base64 (mediaType data : String)
  | url (url : String)
  deriving DecidableEq

/-- One slice of multimodal content inside a message. -/
inductive ContentBlock
  | text (text : String)
  | image (source : ImageSource)
  | document (source : DocumentSource)
  | toolUse (id name : String) (input : Value)
  | toolResult (toolUseId : String) (content : List ContentBlock) (isError : Bool)
  | json (value : Value)

/-- One turn in a conversation. -/
structure Message (Uuid DateTime : Type) where
  id : MessageId Uuid
  role : Role
  content : List ContentBlock
  createdAt : DateTime

/-! ## Encoding -/

/-- How either source is written with inline data. -/
def serializeBase64 (mediaType data : String) : Json :=
  tagged "type" "base64" [("media_type", .string mediaType), ("data", .string data)]

/-- How either source is written with a URL. -/
def serializeUrl (url : String) : Json := tagged "type" "url" [("url", .string url)]

/-- Encoding of the source of an image. -/
def ImageSource.serialize : ImageSource → Json
  | .base64 mediaType data => serializeBase64 mediaType data
  | .url u => serializeUrl u

/-- Encoding of the source of a document, the same as that of an image. -/
def DocumentSource.serialize : DocumentSource → Json
  | .base64 mediaType data => serializeBase64 mediaType data
  | .url u => serializeUrl u

namespace ContentBlock

/-- `is_false` of `message.rs`. -/
def isFalse (b : Bool) : Bool := !b

mutual

/-- Encoding of a block: its tag, then its fields; `is_error` is left out unless it is
    set. -/
def serialize : ContentBlock → Json
  | .text s => tagged "type" "text" [("text", .string s)]
  | .image source => tagged "type" "image" [("source", source.serialize)]
  | .document source => tagged "type" "document" [("source", source.serialize)]
  | .toolUse id name input =>
    tagged "type" "tool_use" [("id", .string id), ("name", .string name), ("input", input.tree)]
  | .toolResult toolUseId content isError =>
    tagged "type" "tool_result"
      ([("tool_use_id", .string toolUseId), ("content", .array (serializeList content))] ++
        memberUnless (isFalse isError) "is_error" (.bool isError))
  | .json value => tagged "type" "json" [("value", value.tree)]

/-- Encoding of the blocks inside a tool result. -/
def serializeList : List ContentBlock → List Json
  | [] => []
  | b :: bs => serialize b :: serializeList bs

end

/-- The blocks of a list are encoded one by one. -/
theorem serializeList_eq (bs : List ContentBlock) : serializeList bs = bs.map serialize := by
  induction bs with
  | nil => rfl
  | cons b bs ih => rw [serializeList, ih, List.map_cons]

/-- Induction over blocks, through the content of tool results. -/
@[induction_eliminator]
theorem ind {P : ContentBlock → Prop} (text : ∀ text, P (.text text))
    (image : ∀ source, P (.image source)) (document : ∀ source, P (.document source))
    (toolUse : ∀ id name input, P (.toolUse id name input))
    (toolResult : ∀ toolUseId content isError, (∀ b ∈ content, P b) →
      P (.toolResult toolUseId content isError))
    (json : ∀ value, P (.json value)) (b : ContentBlock) : P b := by
  refine @ContentBlock.rec P (fun bs => ∀ b ∈ bs, P b) text image document
    toolUse toolResult json ?_ ?_ b
  · exact fun b hb => absurd hb List.not_mem_nil
  · exact fun b bs hb hbs => List.forall_mem_cons.2 ⟨hb, hbs⟩

end ContentBlock

namespace Role

/-- The variants of `Role`, in lower case. -/
def variants : Members Role :=
  [("system", .system), ("user", .user), ("assistant", .assistant), ("tool", .tool)]

/-- Encoding of a role, in lower case. -/
def serialize : Role → Json
  | .system => .string "system"
  | .user => .string "user"
  | .assistant => .string "assistant"
  | .tool => .string "tool"

/-- Decoding of a role, from its name, or from an object of its name and the unit. -/
def deserialize {δ : Type} [Deserializer δ] (d : δ) : Option Role := readUnitVariant variants d

end Role

section Message

variable {Uuid DateTime : Type} [StringCodec Uuid] [StringCodec DateTime]

namespace MessageId

/-- `MessageId::new`: a fresh random identifier. -/
def new (env : Env Uuid DateTime) : MessageId Uuid := ⟨env.newV4⟩

/-- `MessageId::default`. -/
def default (env : Env Uuid DateTime) : MessageId Uuid := new env

/-- The identifier is transparent: it is encoded as its UUID. -/
def serialize (id : MessageId Uuid) : Json := .string (StringCodec.format id.uuid)

/-- Decoding of an identifier, from the text of its UUID. -/
def deserialize {δ : Type} [Deserializer δ] (d : δ) : Option (MessageId Uuid) :=
  (readParsed d).map .mk

end MessageId

/-- Encoding of a timestamp. -/
def serializeTime (t : DateTime) : Json := .string (StringCodec.format t)

/-- Encoding of a message. -/
def Message.serialize (m : Message Uuid DateTime) : Json :=
  .object [("id", m.id.serialize), ("role", m.role.serialize),
    ("content", .array (m.content.map ContentBlock.serialize)),
    ("created_at", serializeTime m.createdAt)]

end Message

/-! ## Decoding -/

/-- The variants either source has, made by its own constructors. -/
def sourceVariants {α : Type} (base64 : String → String → α) (url : String → α) :
    List (Variant α) :=
  [.struct "base64" (.required "media_type" readString (.required "data" readString .nil))
      fun (mediaType, data, ()) => base64 mediaType data,
    .struct "url" (.required "url" readString .nil) fun (u, ()) => url u]

namespace ImageSource

/-- The variants of `ImageSource`. -/
def variants : List (Variant ImageSource) := sourceVariants .base64 .url

/-- Decoding of the source of an image, by its `type`. -/
def deserialize {δ : Type} [Deserializer δ] (d : δ) : Option ImageSource :=
  internallyTagged "type" variants d

end ImageSource

namespace DocumentSource

/-- The variants of `DocumentSource`. -/
def variants : List (Variant DocumentSource) := sourceVariants .base64 .url

/-- Decoding of the source of a document, by its `type`. -/
def deserialize {δ : Type} [Deserializer δ] (d : δ) : Option DocumentSource :=
  internallyTagged "type" variants d

end DocumentSource

namespace ContentBlock

/-- The variants of `ContentBlock`, given how the blocks inside are decoded. -/
def variants (block : Content → Option ContentBlock) : List (Variant ContentBlock) :=
  [.struct "text" (.required "text" readString .nil) fun (s, ()) => .text s,
    .struct "image" (.required "source" ImageSource.deserialize .nil)
      fun (source, ()) => .image source,
    .struct "document" (.required "source" DocumentSource.deserialize .nil)
      fun (source, ()) => .document source,
    .struct "tool_use"
      (.required "id" readString (.required "name" readString (.required "input" readValue .nil)))
      fun (id, name, input, ()) => .toolUse id name input,
    .struct "tool_result"
      (.required "tool_use_id" readString
        (.required "content" (readVec block) (.default "is_error" readBool false .nil)))
      fun (toolUseId, content, isError, ()) => .toolResult toolUseId content isError,
    .struct "json" (.required "value" readValue .nil) fun (value, ()) => .json value]

/-- Decoding buffered content of a bounded depth. -/
def deserializeUpTo : ℕ → Content → Option ContentBlock
  | 0, _ => none
  | n + 1, c => internallyTagged "type" (variants (deserializeUpTo n)) c

/-- Decoding of a block, by its `type`; its depth bounds that of the blocks inside. -/
def deserialize {δ : Type} [Deserializer δ] (d : δ) : Option ContentBlock :=
  internallyTagged "type" (variants (deserializeUpTo (content d).depth)) d

end ContentBlock

/-- The fields of `Message`. -/
def Message.fields {Uuid DateTime δ : Type} [StringCodec Uuid] [StringCodec DateTime]
    [Deserializer δ] (env : Env Uuid DateTime) (block : δ → Option ContentBlock) :
    Fields δ (MessageId Uuid × Role × List ContentBlock × DateTime × Unit) :=
  .default "id" MessageId.deserialize (MessageId.default env)
    (.required "role" Role.deserialize
      (.required "content" (readVec block) (.default "created_at" readParsed env.now .nil)))

/-- Decoding of a message: an identifier or a time that is missing is taken from the
    environment. -/
def Message.deserialize {Uuid DateTime δ : Type} [StringCodec Uuid] [StringCodec DateTime]
    [Deserializer δ] (env : Env Uuid DateTime) (d : δ) : Option (Message Uuid DateTime) :=
  (deserializeStruct (fields env ContentBlock.deserialize) d).map
    fun (id, role, content, createdAt, ()) => ⟨id, role, content, createdAt⟩

/-! ## Building messages -/

namespace Message

variable {Uuid DateTime : Type} (env : Env Uuid DateTime)

/-- `Message::text`: a message with a single text. -/
def text (role : Role) (text : String) : Message Uuid DateTime where
  id := .new env
  role := role
  content := [.text text]
  createdAt := env.now

/-- `Message::tool_calls`: a message of the assistant with the given calls. -/
def toolCalls (calls : List (String × String × Value)) : Message Uuid DateTime where
  id := .new env
  role := .assistant
  content := calls.map fun (id, name, input) => .toolUse id name input
  createdAt := env.now

/-- `Message::tool_results`: a message of the tool role that replies to calls. -/
def toolResults (results : List (String × String)) : Message Uuid DateTime where
  id := .new env
  role := .tool
  content := results.map fun (toolUseId, text) => .toolResult toolUseId [.text text] false
  createdAt := env.now

end Message

end AgentPrimitives
