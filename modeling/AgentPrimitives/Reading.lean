import AgentPrimitives.Event

/-!
# What the decoders accept

For every type `T` of the wire, `T.read` decodes a document by either route,
and `T.Reads` says, field by field, of which documents a value of `T` is read
(`T.read_eq_some`). The tag of an enum is the first element of an array; the
fields follow in the order of their declaration.
-/

namespace AgentPrimitives

open Serde

variable {r : Route} {j : Json}

/-! ## Sources -/

/-- The names of the variants of a source. -/
def sourceNames : List String := ["base64", "url"]

/-- The document of a source with inline data. -/
def ReadsBase64 (r : Route) (j : Json) (mediaType data : String) : Prop :=
  r.tagOf "type" sourceNames j = some 0 ∧ j.Fits 3 ∧
    j.field? "media_type" 1 = some (.string mediaType) ∧ j.field? "data" 2 = some (.string data)

/-- The document of a source with a URL. -/
def ReadsUrl (r : Route) (j : Json) (u : String) : Prop :=
  r.tagOf "type" sourceNames j = some 1 ∧ j.Fits 2 ∧ j.field? "url" 1 = some (.string u)

/-- Both kinds of sources are read by the same variants: inline data or a URL. -/
theorem taggedOn_sourceVariants {α : Type} {base64 : String → String → α} {url : String → α}
    (hj : j.DistinctNames) {a : α} :
    taggedOn r "type" (sourceVariants base64 url) j = some a ↔
      (∃ mediaType data, ReadsBase64 r j mediaType data ∧ base64 mediaType data = a) ∨
        ∃ u, ReadsUrl r j u ∧ url u = a := by
  rw [taggedOn_eq_some hj, sourceVariants]
  simp only [exists_getElem?_cons]
  repeat rw [tagOf_and_struct hj (by rfl)]
  simp [Fields.comap, Fields.length, Json.readField_required, readString_eq_some, ReadsBase64,
    ReadsUrl, sourceNames, Variant.struct, and_assoc]

namespace ImageSource

/-- Decoding of the source of an image, by either route. -/
def read (r : Route) (j : Json) : Option ImageSource := r.read deserialize deserialize j

/-- Of which documents the source of an image is read. -/
def Reads (r : Route) (j : Json) : ImageSource → Prop
  | .base64 mediaType data => ReadsBase64 r j mediaType data
  | .url u => ReadsUrl r j u

/-- The decoder of image sources, in closed form. -/
theorem read_eq (r : Route) (j : Json) : read r j = taggedOn r "type" variants j := by
  cases r with
  | direct => exact internallyTagged_eq "type" variants j
  | buffered => exact internallyTagged_buffer "type" variants j

/-- What an image source is decoded from. -/
theorem read_eq_some (hj : j.DistinctNames) {s : ImageSource} :
    read r j = some s ↔ s.Reads r j := by
  rw [read_eq, variants, taggedOn_sourceVariants hj]
  cases s <;> simp [Reads]

end ImageSource

namespace DocumentSource

/-- Decoding of the source of a document, by either route. -/
def read (r : Route) (j : Json) : Option DocumentSource := r.read deserialize deserialize j

/-- Of which documents the source of a document is read. -/
def Reads (r : Route) (j : Json) : DocumentSource → Prop
  | .base64 mediaType data => ReadsBase64 r j mediaType data
  | .url u => ReadsUrl r j u

/-- The decoder of document sources, in closed form. -/
theorem read_eq (r : Route) (j : Json) : read r j = taggedOn r "type" variants j := by
  cases r with
  | direct => exact internallyTagged_eq "type" variants j
  | buffered => exact internallyTagged_buffer "type" variants j

/-- What a document source is decoded from. -/
theorem read_eq_some (hj : j.DistinctNames) {s : DocumentSource} :
    read r j = some s ↔ s.Reads r j := by
  rw [read_eq, variants, taggedOn_sourceVariants hj]
  cases s <;> simp [Reads]

end DocumentSource

/-! ## Content blocks -/

namespace ContentBlock

/-- Decoding of a block, by either route. -/
def read (r : Route) (j : Json) : Option ContentBlock := r.read deserialize deserialize j

/-- The names of the variants of a block. -/
def names : List String := ["text", "image", "document", "tool_use", "tool_result", "json"]

/-- Decoders that read the blocks inside a document alike read it alike. -/
theorem taggedOn_variants_congr {f g : Content → Option ContentBlock}
    (hfg : ∀ x : Json, x.depth < j.depth → f x.buffer = g x.buffer) :
    taggedOn r "type" (variants f) j = taggedOn r "type" (variants g) j := by
  have hvec : ∀ d : Json, d.depth < j.depth → readVec f d.buffer = readVec g d.buffer := by
    intro d hd
    rw [readVec_buffer, readVec_buffer]
    cases d with
    | array xs => exact mapM_congr fun x hx => hfg x ((Json.depth_lt_array hx).trans hd)
    | number k => cases k <;> rfl
    | _ => rfl
  -- Only a tool result holds blocks.
  refine taggedOn_congr (.cons ⟨rfl, rfl⟩ (.cons ⟨rfl, rfl⟩ (.cons ⟨rfl, rfl⟩ (.cons ⟨rfl, rfl⟩
    (.cons ⟨rfl, ?_⟩ (.cons ⟨rfl, rfl⟩ .nil))))))
  cases j with
  | object ms =>
    rw [Variant.on, Variant.on, Variant.onMembers_struct (by simp [Fields.names]),
      Variant.onMembers_struct (by simp [Fields.names])]
    simp only [Fields.comap, Fields.lookups]
    rw [Fields.member_congr "content" (fun d => readVec g d.buffer) none none fun m hm =>
      hvec m.2 (Json.depth_lt_object (List.mem_of_mem_filter hm))]
  | array xs =>
    rcases xs with _ | ⟨t, _ | ⟨toolUseId, _ | ⟨x, xs⟩⟩⟩
    · rfl
    · rfl
    · rfl
    · rw [Variant.on, Variant.on, Variant.onElements_struct (by simp [Fields.names]),
        Variant.onElements_struct (by simp [Fields.names])]
      simp only [Fields.comap, Fields.visitSeq]
      rw [hvec x (Json.depth_lt_array (by simp))]
  | _ => rfl

/-- The depth of a document is fuel enough: more of it gives the same block. -/
theorem deserializeUpTo_congr {m n : ℕ} {j : Json} (hm : j.depth < m) (hn : j.depth < n) :
    deserializeUpTo m j.buffer = deserializeUpTo n j.buffer := by
  induction m generalizing n j with
  | zero => exact absurd hm (Nat.not_lt_zero _)
  | succ m ih =>
    cases n with
    | zero => exact absurd hn (Nat.not_lt_zero _)
    | succ n =>
      rw [deserializeUpTo, deserializeUpTo, internallyTagged_buffer, internallyTagged_buffer]
      exact taggedOn_variants_congr fun x hx =>
        ih (hx.trans_le (Nat.le_of_lt_succ hm)) (hx.trans_le (Nat.le_of_lt_succ hn))

/-- The depth of a document suffices to decode it. -/
theorem deserialize_buffer {n : ℕ} (hn : j.depth < n) :
    deserialize j.buffer = deserializeUpTo n j.buffer := by
  have hj : j.depth ≤ j.buffer.depth := Content.depth_buffer_le.1 le_rfl
  exact deserializeUpTo_congr (Nat.lt_succ_of_le hj) hn

/-- The decoder of blocks decodes the blocks inside a tool result. -/
theorem read_eq (r : Route) (j : Json) :
    read r j = taggedOn r "type" (variants deserialize) j := by
  cases r with
  | direct =>
    -- The fuel is the depth of the whole document, that of a block inside is less.
    rw [read, Route.read, deserialize, internallyTagged_eq]
    refine taggedOn_variants_congr fun x hx => (deserialize_buffer (hx.trans_le ?_)).symm
    exact Content.depth_buffer_le.1 le_rfl
  | buffered =>
    rw [read, Route.read, deserialize, internallyTagged_buffer]
    refine taggedOn_variants_congr fun x hx => (deserialize_buffer (hx.trans_le ?_)).symm
    exact Content.depth_buffer_le.1 le_rfl

/-- The document of a block, past its tag. -/
def Reads (r : Route) (j : Json) : ContentBlock → Prop
  | .text s => r.tagOf "type" names j = some 0 ∧ j.Fits 2 ∧ j.field? "text" 1 = some (.string s)
  | .image source => r.tagOf "type" names j = some 1 ∧ j.Fits 2 ∧
      ∃ d, j.field? "source" 1 = some d ∧ ImageSource.read .buffered d = some source
  | .document source => r.tagOf "type" names j = some 2 ∧ j.Fits 2 ∧
      ∃ d, j.field? "source" 1 = some d ∧ DocumentSource.read .buffered d = some source
  | .toolUse id name input => r.tagOf "type" names j = some 3 ∧ j.Fits 4 ∧
      j.field? "id" 1 = some (.string id) ∧ j.field? "name" 2 = some (.string name) ∧
      ∃ d, j.field? "input" 3 = some d ∧ d.toValue = input
  | .toolResult toolUseId content isError => r.tagOf "type" names j = some 4 ∧ j.Fits 4 ∧
      j.field? "tool_use_id" 1 = some (.string toolUseId) ∧
      (∃ xs, j.field? "content" 2 = some (.array xs) ∧
        List.Forall₂ (fun x b => read .buffered x = some b) xs content) ∧
      j.readField "is_error" 3 readBool (some false) = some isError
  | .json value => r.tagOf "type" names j = some 5 ∧ j.Fits 2 ∧
      ∃ d, j.field? "value" 1 = some d ∧ d.toValue = value

/-- What a block is decoded from. -/
theorem read_eq_some (hj : j.DistinctNames) {b : ContentBlock} :
    read r j = some b ↔ b.Reads r j := by
  rw [read_eq, taggedOn_eq_some hj, variants]
  simp only [exists_getElem?_cons]
  repeat rw [tagOf_and_struct hj (by rfl)]
  cases b <;> simp [Reads, names, read, ImageSource.read, DocumentSource.read, Route.read,
    Variant.struct, Fields.comap, Fields.length, Json.readField_required, readString_eq_some,
    readValue_eq_some, readVec_buffer, readVec_eq_some, and_assoc, -Bool.exists_bool]

end ContentBlock

/-! ## Tool calls and results -/

namespace ToolCall

/-- Decoding of a call, by either route. -/
def read (r : Route) (j : Json) : Option ToolCall := r.read deserialize deserialize j

/-- The document of a tool call. -/
@[mk_iff]
structure Reads (j : Json) (c : ToolCall) : Prop where
  fits : j.Fits 3
  id : j.field? "id" 0 = some (.string c.id)
  name : j.field? "name" 1 = some (.string c.name)
  input : ∃ d, j.field? "input" 2 = some d ∧ d.toValue = c.input

/-- The decoder of calls, in closed form: none of the fields depends on the route. -/
theorem read_eq (r : Route) (j : Json) :
    read r j = (structOn fields j).map fun (id, name, input, ()) => ⟨id, name, input⟩ := by
  cases r with
  | direct =>
    rw [read, Route.read, deserialize, deserializeStruct_eq (by simp [fields, Fields.names])]
  | buffered =>
    rw [read, Route.read, deserialize, deserializeStruct_buffer (by simp [fields, Fields.names])]
    simp only [fields, Fields.comap, readString_buffer, readValue_buffer]

/-- What a call is decoded from. -/
theorem read_eq_some (hj : j.DistinctNames) {c : ToolCall} : read r j = some c ↔ Reads j c := by
  rw [read_eq, Option.map_eq_some_iff, reads_iff]
  simp only [structOn_eq_some (show fields.fresh = true by rfl) hj]
  obtain ⟨id, name, input⟩ := c
  simp [fields, Fields.length, Json.readField_required, readString_eq_some, readValue_eq_some,
    and_assoc]

end ToolCall

namespace ToolResult

/-- Decoding of a reply, by either route. -/
def read (r : Route) (j : Json) : Option ToolResult := r.read deserialize deserialize j

/-- The document of a tool result. -/
@[mk_iff]
structure Reads (r : Route) (j : Json) (x : ToolResult) : Prop where
  fits : j.Fits 3
  toolUseId : j.field? "tool_use_id" 0 = some (.string x.toolUseId)
  content : ∃ xs, j.field? "content" 1 = some (.array xs) ∧
    List.Forall₂ (fun x b => ContentBlock.read r x = some b) xs x.content
  isError : j.readField "is_error" 2 readBool (some false) = some x.isError

/-- The decoder of replies, in closed form: the blocks are on the route of the reply. -/
theorem read_eq (r : Route) (j : Json) : read r j = (structOn (fields (ContentBlock.read r)) j).map
    fun (toolUseId, content, isError, ()) => ⟨toolUseId, content, isError⟩ := by
  cases r with
  | direct =>
    rw [read, Route.read, deserialize, deserializeStruct_eq (by simp [fields, Fields.names])]
    rfl
  | buffered =>
    rw [read, Route.read, deserialize, deserializeStruct_buffer (by simp [fields, Fields.names])]
    simp only [fields, Fields.comap, readString_buffer, readBool_buffer, readVec_buffer]
    rfl

/-- What a reply is decoded from. -/
theorem read_eq_some (hj : j.DistinctNames) {x : ToolResult} :
    read r j = some x ↔ Reads r j x := by
  rw [read_eq, Option.map_eq_some_iff, reads_iff]
  simp only [structOn_eq_some (show (fields (ContentBlock.read r)).fresh = true by rfl) hj]
  obtain ⟨toolUseId, content, isError⟩ := x
  simp [fields, Fields.length, Json.readField_required, readString_eq_some, readVec_eq_some,
    and_assoc, -Bool.exists_bool]

end ToolResult

/-! ## Messages -/

namespace Role

/-- Decoding of a role, by either route. -/
def read (r : Route) (j : Json) : Option Role := r.read deserialize deserialize j

/-- The document of a role: its name, or an object with its name and the unit. -/
def Reads (r : Route) (j : Json) (role : Role) : Prop :=
  ∃ name, variants.lookup name = some role ∧
    (j = .string name ∨ ∃ d, j = .object [(name, d)] ∧ r.unit d = some ())

/-- What a role is decoded from: its name, or an object with it as the only member,
    around a unit. -/
theorem read_eq_some {role : Role} : read r j = some role ↔ role.Reads r j :=
  read_readUnitVariant_eq_some

end Role

section Message

variable {Uuid DateTime : Type} [StringCodec Uuid] [StringCodec DateTime]

@[simp] theorem MessageId.deserialize_buffer (j : Json) :
    (deserialize j.buffer : Option (MessageId Uuid)) = deserialize j := by
  rw [deserialize, readParsed_buffer, deserialize]

namespace Message

/-- Decoding of a message, by either route. -/
def read (env : Env Uuid DateTime) (r : Route) (j : Json) : Option (Message Uuid DateTime) :=
  r.read (deserialize env) (deserialize env) j

/-- The fields of a message, with the role and the blocks read by the route. -/
def fieldsOn (env : Env Uuid DateTime) (r : Route) :
    Fields Json (MessageId Uuid × Role × List ContentBlock × DateTime × Unit) :=
  .default "id" MessageId.deserialize (MessageId.default env)
    (.required "role" (Role.read r)
      (.required "content" (readVec (ContentBlock.read r))
        (.default "created_at" readParsed env.now .nil)))

/-- The document of a message. -/
@[mk_iff]
structure Reads (env : Env Uuid DateTime) (r : Route) (j : Json) (m : Message Uuid DateTime) :
    Prop where
  fits : j.Fits 4
  id : j.readField "id" 0 MessageId.deserialize (some (.default env)) = some m.id
  role : ∃ d, j.field? "role" 1 = some d ∧ Role.read r d = some m.role
  content : ∃ xs, j.field? "content" 2 = some (.array xs) ∧
    List.Forall₂ (fun x b => ContentBlock.read r x = some b) xs m.content
  createdAt : j.readField "created_at" 3 readParsed (some env.now) = some m.createdAt

/-- The decoder of messages, in closed form: the defaults are drawn from the
    environment. -/
theorem read_eq (env : Env Uuid DateTime) (r : Route) (j : Json) :
    read env r j = (structOn (fieldsOn env r) j).map
      fun (id, role, content, createdAt, ()) => ⟨id, role, content, createdAt⟩ := by
  cases r with
  | direct =>
    rw [read, Route.read, deserialize, deserializeStruct_eq (by simp [fields, Fields.names])]
    rfl
  | buffered =>
    rw [read, Route.read, deserialize, deserializeStruct_buffer (by simp [fields, Fields.names])]
    simp only [fields, fieldsOn, Fields.comap, MessageId.deserialize_buffer, readVec_buffer,
      readParsed_buffer]
    rfl

/-- What a message is decoded from: an id and a time that are absent are those of the
    environment. -/
theorem read_eq_some {env : Env Uuid DateTime} (hj : j.DistinctNames) {m : Message Uuid DateTime} :
    read env r j = some m ↔ m.Reads env r j := by
  rw [read_eq, Option.map_eq_some_iff, reads_iff]
  simp only [structOn_eq_some (show (fieldsOn env r).fresh = true by rfl) hj]
  obtain ⟨id, role, content, createdAt⟩ := m
  simp [fieldsOn, Fields.length, Json.readField_required, readVec_eq_some, and_assoc]

end Message

end Message

/-! ## Stop reasons and verdicts of hooks -/

namespace StopReason

/-- Decoding of a stop reason, by either route. -/
def read (r : Route) (j : Json) : Option StopReason := r.read deserialize deserialize j

/-- The names of the variants of a stop reason. -/
def names : List String :=
  ["completed", "user_cancelled", "aborted_by_hook", "budget_exhausted", "error"]

/-- The document of a stop reason. -/
def Reads (r : Route) (j : Json) : StopReason → Prop
  | .completed => r.tagOf "kind" names j = some 0 ∧ j.Fits 1
  | .userCancelled => r.tagOf "kind" names j = some 1 ∧ j.Fits 1
  | .abortedByHook reason => r.tagOf "kind" names j = some 2 ∧ j.Fits 2 ∧
      j.field? "reason" 1 = some (.string reason)
  | .budgetExhausted => r.tagOf "kind" names j = some 3 ∧ j.Fits 1
  | .error message => r.tagOf "kind" names j = some 4 ∧ j.Fits 2 ∧
      j.field? "message" 1 = some (.string message)

/-- The decoder of stop reasons, in closed form. -/
theorem read_eq (r : Route) (j : Json) : read r j = taggedOn r "kind" variants j := by
  cases r with
  | direct => exact internallyTagged_eq "kind" variants j
  | buffered => exact internallyTagged_buffer "kind" variants j

/-- What a stop reason is decoded from. -/
theorem read_eq_some (hj : j.DistinctNames) {s : StopReason} :
    read r j = some s ↔ s.Reads r j := by
  rw [read_eq, taggedOn_eq_some hj, variants]
  simp only [exists_getElem?_cons, tagOf_and_unit]
  repeat rw [tagOf_and_struct hj (by rfl)]
  cases s <;> simp [Reads, names, Variant.struct, Variant.unit, Fields.comap, Fields.length,
    Json.readField_required, readString_eq_some]

end StopReason

namespace HookResult

/-- Decoding of a verdict, by either route. -/
def read (r : Route) (j : Json) : Option HookResult := r.read deserialize deserialize j

/-- The names of the variants of a verdict. -/
def names : List String := ["continue", "skip", "abort"]

/-- The document of a verdict. -/
def Reads (r : Route) (j : Json) : HookResult → Prop
  | .continue updatedInput => r.tagOf "kind" names j = some 0 ∧ j.Fits 2 ∧
      j.readField "updated_input" 1 (readOption readValue) (some none) = some updatedInput
  | .skip reason => r.tagOf "kind" names j = some 1 ∧ j.Fits 2 ∧
      j.field? "reason" 1 = some (.string reason)
  | .abort reason => r.tagOf "kind" names j = some 2 ∧ j.Fits 2 ∧
      j.field? "reason" 1 = some (.string reason)

/-- The decoder of the verdicts of hooks, in closed form. -/
theorem read_eq (r : Route) (j : Json) : read r j = taggedOn r "kind" variants j := by
  cases r with
  | direct => exact internallyTagged_eq "kind" variants j
  | buffered => exact internallyTagged_buffer "kind" variants j

/-- What the verdict of a hook is decoded from. -/
theorem read_eq_some (hj : j.DistinctNames) {h : HookResult} :
    read r j = some h ↔ h.Reads r j := by
  rw [read_eq, taggedOn_eq_some hj, variants]
  simp only [exists_getElem?_cons]
  repeat rw [tagOf_and_struct hj (by rfl)]
  cases h <;> simp [Reads, names, Variant.struct, Fields.comap, Fields.length,
    Json.readField_required, readString_eq_some, readOption_buffer]

end HookResult

/-! ## Events -/

section Event

variable {Uuid DateTime : Type} [StringCodec Uuid] [StringCodec DateTime]

namespace SubagentResult

/-- Decoding of the result of a subagent, by either route. -/
def read (env : Env Uuid DateTime) (r : Route) (j : Json) : Option (SubagentResult Uuid DateTime) :=
  r.read (deserialize env) (deserialize env) j

/-- The fields of the result of a subagent, read by the route. -/
def fieldsOn (env : Env Uuid DateTime) (r : Route) :
    Fields Json (String × StopReason × Option (Message Uuid DateTime) × Unit) :=
  .required "session_id" readString
    (.required "stop_reason" (StopReason.read r)
      (.default "final_message" (readOption (Message.read env r)) none .nil))

/-- The document of the result of a subagent. -/
@[mk_iff]
structure Reads (env : Env Uuid DateTime) (r : Route) (j : Json)
    (x : SubagentResult Uuid DateTime) : Prop where
  fits : j.Fits 3
  sessionId : j.field? "session_id" 0 = some (.string x.sessionId)
  stopReason : ∃ d, j.field? "stop_reason" 1 = some d ∧ StopReason.read r d = some x.stopReason
  finalMessage : j.readField "final_message" 2 (readOption (Message.read env r)) (some none) =
    some x.finalMessage

/-- The decoder of the results of subagents, in closed form: the message is on their
    route. -/
theorem read_eq (env : Env Uuid DateTime) (r : Route) (j : Json) :
    read env r j = (structOn (fieldsOn env r) j).map
      fun (sessionId, stopReason, finalMessage, ()) => ⟨sessionId, stopReason, finalMessage⟩ := by
  cases r with
  | direct =>
    rw [read, Route.read, deserialize, deserializeStruct_eq (by simp [fields, Fields.names])]
    rfl
  | buffered =>
    rw [read, Route.read, deserialize, deserializeStruct_buffer (by simp [fields, Fields.names])]
    simp only [fields, fieldsOn, Fields.comap, readString_buffer, readOption_buffer]
    rfl

/-- What the result of a subagent is decoded from. -/
theorem read_eq_some {env : Env Uuid DateTime} (hj : j.DistinctNames)
    {x : SubagentResult Uuid DateTime} : read env r j = some x ↔ x.Reads env r j := by
  rw [read_eq, Option.map_eq_some_iff, reads_iff]
  simp only [structOn_eq_some (show (fieldsOn env r).fresh = true by rfl) hj]
  obtain ⟨sessionId, stopReason, finalMessage⟩ := x
  simp [fieldsOn, Fields.length, Json.readField_required, readString_eq_some, and_assoc]

end SubagentResult

namespace AgentEvent

/-- Decoding of an event, by either route. -/
def read (env : Env Uuid DateTime) (r : Route) (j : Json) : Option (AgentEvent Uuid DateTime) :=
  r.read (deserialize env) (deserialize env) j

/-- The names of the variants of an event. -/
def names : List String :=
  ["agent_start", "agent_stop", "message_start", "message_delta", "message_end", "tool_call_start",
    "tool_call_end", "subagent_result", "ask_user", "error"]

/-- The document of an event. -/
def Reads (env : Env Uuid DateTime) (r : Route) (j : Json) : AgentEvent Uuid DateTime → Prop
  | .agentStart sessionId => r.tagOf "event" names j = some 0 ∧ j.Fits 2 ∧
      j.field? "session_id" 1 = some (.string sessionId)
  | .agentStop sessionId reason => r.tagOf "event" names j = some 1 ∧ j.Fits 3 ∧
      j.field? "session_id" 1 = some (.string sessionId) ∧
      ∃ d, j.field? "reason" 2 = some d ∧ StopReason.read .buffered d = some reason
  | .messageStart sessionId messageId role => r.tagOf "event" names j = some 2 ∧ j.Fits 4 ∧
      j.field? "session_id" 1 = some (.string sessionId) ∧
      (∃ d, j.field? "message_id" 2 = some d ∧ MessageId.deserialize d = some messageId) ∧
      ∃ d, j.field? "role" 3 = some d ∧ Role.read .buffered d = some role
  | .messageDelta sessionId messageId text => r.tagOf "event" names j = some 3 ∧ j.Fits 4 ∧
      j.field? "session_id" 1 = some (.string sessionId) ∧
      (∃ d, j.field? "message_id" 2 = some d ∧ MessageId.deserialize d = some messageId) ∧
      j.field? "text" 3 = some (.string text)
  | .messageEnd sessionId message => r.tagOf "event" names j = some 4 ∧ j.Fits 3 ∧
      j.field? "session_id" 1 = some (.string sessionId) ∧
      ∃ d, j.field? "message" 2 = some d ∧ Message.read env .buffered d = some message
  | .toolCallStart sessionId toolCall => r.tagOf "event" names j = some 5 ∧ j.Fits 3 ∧
      j.field? "session_id" 1 = some (.string sessionId) ∧
      ∃ d, j.field? "tool_call" 2 = some d ∧ ToolCall.read .buffered d = some toolCall
  | .toolCallEnd sessionId toolResult => r.tagOf "event" names j = some 6 ∧ j.Fits 3 ∧
      j.field? "session_id" 1 = some (.string sessionId) ∧
      ∃ d, j.field? "tool_result" 2 = some d ∧ ToolResult.read .buffered d = some toolResult
  | .subagentResult sessionId result => r.tagOf "event" names j = some 7 ∧ j.Fits 3 ∧
      j.field? "session_id" 1 = some (.string sessionId) ∧
      ∃ d, j.field? "result" 2 = some d ∧ SubagentResult.read env .buffered d = some result
  | .askUser sessionId toolUseId prompt => r.tagOf "event" names j = some 8 ∧ j.Fits 4 ∧
      j.field? "session_id" 1 = some (.string sessionId) ∧
      j.field? "tool_use_id" 2 = some (.string toolUseId) ∧
      j.field? "prompt" 3 = some (.string prompt)
  | .error sessionId message => r.tagOf "event" names j = some 9 ∧ j.Fits 3 ∧
      j.field? "session_id" 1 = some (.string sessionId) ∧
      j.field? "message" 2 = some (.string message)

/-- The decoder of events, in closed form. -/
theorem read_eq (env : Env Uuid DateTime) (r : Route) (j : Json) :
    read env r j = taggedOn r "event" (variants env) j := by
  cases r with
  | direct => exact internallyTagged_eq "event" (variants env) j
  | buffered => exact internallyTagged_buffer "event" (variants env) j

/-- What an event is decoded from. -/
theorem read_eq_some {env : Env Uuid DateTime} (hj : j.DistinctNames)
    {e : AgentEvent Uuid DateTime} : read env r j = some e ↔ e.Reads env r j := by
  rw [read_eq, taggedOn_eq_some hj, variants]
  simp only [exists_getElem?_cons]
  repeat rw [tagOf_and_struct hj (by rfl)]
  cases e <;> simp [Reads, names, Variant.struct, Fields.comap, Fields.length,
    Json.readField_required, readString_eq_some, and_assoc, Role.read, StopReason.read,
    Message.read, ToolCall.read, ToolResult.read, SubagentResult.read, Route.read]

end AgentEvent

end Event

end AgentPrimitives
