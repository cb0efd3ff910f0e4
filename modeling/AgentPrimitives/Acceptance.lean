import AgentPrimitives.Reading
import AgentPrimitives.Serde.Conform

/-!
# What is accepted from a peer

The schema of the wire (`schema`) says what the decoders demand of a document of
every kind: which fields it needs, and of what form they are. Its tags and fields
are the layout of the wire (`layout`), whatever the forms of identifiers and times.

The decoders conform to the schema (`AgentEvent.conforms_read` and the like). So they
are lawful, follow the layout, and demand nothing else (`isSome_deserialize`): a peer
can check what it sends without decoding it. In particular, whether a document is
accepted only depends on what is demanded of each object and array in it by itself
(`AgentEvent.isSome_fromDocument`).
-/

namespace AgentPrimitives

open Serde

/-! ## The schema -/

/-- What documents are read as. -/
inductive Kind
  | event
  | subagentResult
  | message
  | toolCall
  | toolResult
  | stopReason
  | block
  | imageSource
  | documentSource
  | payload

/-- A role, by its name. -/
def roleCheck : Check Kind := .name ["system", "user", "assistant", "tool"]

/-- The schema of either source. -/
def sourceSchema : Schema Kind :=
  .tagged "type"
    [("base64", [.required "media_type" .string, .required "data" .string]),
      ("url", [.required "url" .string])]

/-- The field that every event has. -/
def sessionId : FieldCheck Kind := .required "session_id" .string

/-- The schema of the documents of every kind, given the forms of identifiers and
    times. -/
def schemaOf (uuid dateTime : Scalar) : Kind → Schema Kind
  | .event => .tagged "event"
    [("agent_start", [sessionId]),
      ("agent_stop", [sessionId, .required "reason" (.one .stopReason)]),
      ("message_start",
        [sessionId, .required "message_id" (.scalar uuid), .required "role" roleCheck]),
      ("message_delta",
        [sessionId, .required "message_id" (.scalar uuid), .required "text" .string]),
      ("message_end", [sessionId, .required "message" (.one .message)]),
      ("tool_call_start", [sessionId, .required "tool_call" (.one .toolCall)]),
      ("tool_call_end", [sessionId, .required "tool_result" (.one .toolResult)]),
      ("subagent_result", [sessionId, .required "result" (.one .subagentResult)]),
      ("ask_user", [sessionId, .required "tool_use_id" .string, .required "prompt" .string]),
      ("error", [sessionId, .required "message" .string])]
  | .subagentResult => .struct
    [sessionId, .required "stop_reason" (.one .stopReason),
      .default "final_message" (.optional .message)]
  | .message => .struct
    [.default "id" (.scalar uuid), .required "role" roleCheck,
      .required "content" (.many .block), .default "created_at" (.scalar dateTime)]
  | .toolCall => .struct
    [.required "id" .string, .required "name" .string, .required "input" (.one .payload)]
  | .toolResult => .struct
    [.required "tool_use_id" .string, .required "content" (.many .block),
      .default "is_error" .bool]
  | .stopReason => .tagged "kind"
    [("completed", []), ("user_cancelled", []),
      ("aborted_by_hook", [.required "reason" .string]), ("budget_exhausted", []),
      ("error", [.required "message" .string])]
  | .block => .tagged "type"
    [("text", [.required "text" .string]),
      ("image", [.required "source" (.one .imageSource)]),
      ("document", [.required "source" (.one .documentSource)]),
      ("tool_use",
        [.required "id" .string, .required "name" .string, .required "input" (.one .payload)]),
      ("tool_result",
        [.required "tool_use_id" .string, .required "content" (.many .block),
          .default "is_error" .bool]),
      ("json", [.required "value" (.one .payload)])]
  | .imageSource => sourceSchema
  | .documentSource => sourceSchema
  | .payload => .value

/-- The schema of the wire. -/
def schema (Uuid DateTime : Type) [StringCodec Uuid] [StringCodec DateTime] : Kind → Schema Kind :=
  schemaOf (.parsed Uuid) (.parsed DateTime)

/-- The layout of the wire. -/
def layout : Kind → Layout Kind := layoutOf (schemaOf .string .string)

/-- The layout does not depend on the forms of identifiers and times. -/
theorem layoutOf_schemaOf (uuid dateTime : Scalar) :
    layoutOf (schemaOf uuid dateTime) = layout := by
  funext k
  cases k <;> rfl

/-- The schema has the layout of the wire. -/
theorem layoutOf_schema {Uuid DateTime : Type} [StringCodec Uuid] [StringCodec DateTime] :
    layoutOf (schema Uuid DateTime) = layout := layoutOf_schemaOf _ _

section

variable {uuid dateTime : Scalar}

/-! ## Blocks -/

/-- Any JSON is a payload. -/
theorem conforms_payload (r : Route) (j : Json) :
    (⟨r, .payload, j⟩ : Node Kind).Conforms (schemaOf uuid dateTime) readValue := .value rfl

theorem conforms_payload_buffer (r : Route) (j : Json) :
    (⟨r, .payload, j⟩ : Node Kind).Conforms (schemaOf uuid dateTime)
      fun d => readValue d.buffer := by
  simp only [readValue_buffer]
  exact conforms_payload r j

/-- Both kinds of sources have the same schema, and the same decoder but for what is
    made of it. -/
theorem conforms_sourceVariants {α : Type} {base64 : String → String → α} {url : String → α}
    (r : Route) {k : Kind} (hk : schemaOf uuid dateTime k = sourceSchema) (j : Json) :
    (⟨r, k, j⟩ : Node Kind).Conforms (schemaOf uuid dateTime)
      (taggedOn r "type" (sourceVariants base64 url)) :=
  .taggedOn hk
    (.cons (.struct (by decide)
        (.required (fun _ _ => .string_buffer) (.required (fun _ _ => .string_buffer) .nil)))
      (.cons (.struct (by decide) (.required (fun _ _ => .string_buffer) .nil)) .nil))

theorem ImageSource.conforms_read (r : Route) (j : Json) :
    (⟨r, .imageSource, j⟩ : Node Kind).Conforms (schemaOf uuid dateTime) (read r) := by
  rw [funext (read_eq r)]
  exact conforms_sourceVariants r rfl j

theorem DocumentSource.conforms_read (r : Route) (j : Json) :
    (⟨r, .documentSource, j⟩ : Node Kind).Conforms (schemaOf uuid dateTime) (read r) := by
  rw [funext (read_eq r)]
  exact conforms_sourceVariants r rfl j

/-- Blocks conform to their schema if the blocks inside do. -/
theorem ContentBlock.conforms_variants (r : Route) (j : Json)
    (h : ∀ x : Json, x.depth < j.depth →
      (⟨.buffered, .block, x⟩ : Node Kind).Conforms (schemaOf uuid dateTime) (read .buffered)) :
    (⟨r, .block, j⟩ : Node Kind).Conforms (schemaOf uuid dateTime)
      (taggedOn r "type" (variants deserialize)) := by
  refine .taggedOn rfl (.cons (.struct (by decide) ?text) (.cons (.struct (by decide) ?image)
    (.cons (.struct (by decide) ?document) (.cons (.struct (by decide) ?toolUse)
      (.cons (.struct (by decide) ?toolResult) (.cons (.struct (by decide) ?json) .nil))))))
  case text => exact .required (fun _ _ => .string_buffer) .nil
  case image => exact .required (fun x _ => .one (ImageSource.conforms_read .buffered x)) .nil
  case document => exact .required (fun x _ => .one (DocumentSource.conforms_read .buffered x)) .nil
  case toolUse =>
    exact .required (fun _ _ => .string_buffer) (.required (fun _ _ => .string_buffer)
      (.required (fun x _ => .one (conforms_payload_buffer .buffered x)) .nil))
  case toolResult =>
    -- The blocks inside are read by the same decoder, from less deep documents.
    exact .required (fun _ _ => .string_buffer) (.required (fun x hx => .many_buffer
      fun y hy => h y (hy.trans (Json.depth_lt_of_mem_candidates hx)))
        (.default (fun _ _ => .bool_buffer) .nil))
  case json => exact .required (fun x _ => .one (conforms_payload_buffer .buffered x)) .nil

/-- Blocks conform, those inside a block being less deep than it. -/
theorem ContentBlock.conforms_read (r : Route) (j : Json) :
    (⟨r, .block, j⟩ : Node Kind).Conforms (schemaOf uuid dateTime) (read r) := by
  induction h : j.depth using Nat.strong_induction_on generalizing r j with
  | _ n ih =>
    subst h
    rw [funext (read_eq r)]
    exact conforms_variants r j fun x hx => ih x.depth hx .buffered x rfl

/-! ## Structs and events -/

theorem StopReason.conforms_read (r : Route) (j : Json) :
    (⟨r, .stopReason, j⟩ : Node Kind).Conforms (schemaOf uuid dateTime) (read r) := by
  rw [funext (read_eq r)]
  exact .taggedOn rfl (.cons .unit (.cons .unit
    (.cons (.struct (by decide) (.required (fun _ _ => .string_buffer) .nil)) (.cons .unit
      (.cons (.struct (by decide) (.required (fun _ _ => .string_buffer) .nil)) .nil)))))

theorem ToolCall.conforms_read (r : Route) (j : Json) :
    (⟨r, .toolCall, j⟩ : Node Kind).Conforms (schemaOf uuid dateTime) (read r) := by
  rw [funext (read_eq r)]
  exact .map (.structOn rfl (.required (fun _ _ => .string) (.required (fun _ _ => .string)
    (.required (fun x _ => .one (conforms_payload r x)) .nil)))) _

/-- The blocks of a reply are on its route, unlike those of a block. -/
theorem ToolResult.conforms_read (r : Route) (j : Json) :
    (⟨r, .toolResult, j⟩ : Node Kind).Conforms (schemaOf uuid dateTime) (read r) := by
  rw [funext (read_eq r)]
  exact .map (.structOn rfl (.required (fun _ _ => .string)
    (.required (fun _ _ => .many fun y _ => ContentBlock.conforms_read r y)
      (.default (fun _ _ => .bool) .nil)))) _

/-- A role is checked as one of its names. -/
theorem conforms_role {S : Kind → Schema Kind} {r : Route} {x : Json} :
    roleCheck.Conforms S r x (Role.read r) := .name Role.variants

end

section

variable {Uuid DateTime : Type} [StringCodec Uuid] [StringCodec DateTime]

/-- An id is checked by parsing it, as it is decoded. -/
theorem conforms_messageId {S : Kind → Schema Kind} {r : Route} {x : Json} :
    (Check.parsed Uuid : Check Kind).Conforms S r x
      (MessageId.deserialize : Json → Option (MessageId Uuid)) :=
  .map .parsed MessageId.mk

theorem conforms_messageId_buffer {S : Kind → Schema Kind} {r : Route} {x : Json} :
    (Check.parsed Uuid : Check Kind).Conforms S r x
      fun d : Json => (MessageId.deserialize d.buffer : Option (MessageId Uuid)) :=
  conforms_messageId.congr (funext fun d => (MessageId.deserialize_buffer d).symm)

/-- What fills in for an id or a time that is absent is left to the environment: that
    they may be absent is all the schema says. -/
theorem Message.conforms_read (env : Env Uuid DateTime) (r : Route) (j : Json) :
    (⟨r, .message, j⟩ : Node Kind).Conforms (schema Uuid DateTime) (read env r) := by
  rw [funext (read_eq env r)]
  exact .map (.structOn rfl (.default (fun _ _ => conforms_messageId)
    (.required (fun _ _ => conforms_role)
      (.required (fun _ _ => .many fun y _ => ContentBlock.conforms_read r y)
        (.default (fun _ _ => .parsed) .nil))))) _

/-- The final message may be null or absent. -/
theorem SubagentResult.conforms_read (env : Env Uuid DateTime) (r : Route) (j : Json) :
    (⟨r, .subagentResult, j⟩ : Node Kind).Conforms (schema Uuid DateTime) (read env r) := by
  rw [funext (read_eq env r)]
  exact .map (.structOn rfl (.required (fun _ _ => .string)
    (.required (fun x _ => .one (StopReason.conforms_read r x))
      (.default (fun x _ => .optional (Message.conforms_read env r x)) .nil)))) _

/-- What an event carries is always read from the buffer. -/
theorem AgentEvent.conforms_read (env : Env Uuid DateTime) (r : Route) (j : Json) :
    (⟨r, .event, j⟩ : Node Kind).Conforms (schema Uuid DateTime) (read env r) := by
  rw [funext (read_eq env r)]
  refine .taggedOn rfl (.cons (.struct ?_ ?agentStart) (.cons (.struct ?_ ?agentStop)
    (.cons (.struct ?_ ?messageStart) (.cons (.struct ?_ ?messageDelta)
      (.cons (.struct ?_ ?messageEnd) (.cons (.struct ?_ ?toolCallStart)
        (.cons (.struct ?_ ?toolCallEnd) (.cons (.struct ?_ ?subagentResult)
          (.cons (.struct ?_ ?askUser) (.cons (.struct ?_ ?error) .nil))))))))))
  case agentStart => exact .required (fun _ _ => .string_buffer) .nil
  case agentStop =>
    exact .required (fun _ _ => .string_buffer)
      (.required (fun x _ => .one (StopReason.conforms_read .buffered x)) .nil)
  case messageStart =>
    exact .required (fun _ _ => .string_buffer) (.required (fun _ _ => conforms_messageId_buffer)
      (.required (fun x _ => @conforms_role _ .buffered x) .nil))
  case messageDelta =>
    exact .required (fun _ _ => .string_buffer) (.required (fun _ _ => conforms_messageId_buffer)
      (.required (fun _ _ => .string_buffer) .nil))
  case messageEnd =>
    exact .required (fun _ _ => .string_buffer)
      (.required (fun x _ => .one (Message.conforms_read env .buffered x)) .nil)
  case toolCallStart =>
    exact .required (fun _ _ => .string_buffer)
      (.required (fun x _ => .one (ToolCall.conforms_read .buffered x)) .nil)
  case toolCallEnd =>
    exact .required (fun _ _ => .string_buffer)
      (.required (fun x _ => .one (ToolResult.conforms_read .buffered x)) .nil)
  case subagentResult =>
    exact .required (fun _ _ => .string_buffer)
      (.required (fun x _ => .one (SubagentResult.conforms_read env .buffered x)) .nil)
  case askUser =>
    exact .required (fun _ _ => .string_buffer) (.required (fun _ _ => .string_buffer)
      (.required (fun _ _ => .string_buffer) .nil))
  case error =>
    exact .required (fun _ _ => .string_buffer) (.required (fun _ _ => .string_buffer) .nil)
  all_goals simp [Fields.names]

/-! ## What is accepted -/

/-- Documents of the wire are decoded exactly if the schema accepts them. -/
theorem isSome_deserialize (env : Env Uuid DateTime) (d : Json) :
    let accepts (k : Kind) := Node.accepts (schema Uuid DateTime) ⟨.direct, k, d⟩
    (AgentEvent.deserialize env d).isSome = accepts .event ∧
      (SubagentResult.deserialize env d).isSome = accepts .subagentResult ∧
      (Message.deserialize env d).isSome = accepts .message ∧
      (ToolCall.deserialize d).isSome = accepts .toolCall ∧
      (ToolResult.deserialize d).isSome = accepts .toolResult ∧
      (StopReason.deserialize d).isSome = accepts .stopReason ∧
      (ContentBlock.deserialize d).isSome = accepts .block :=
  ⟨(AgentEvent.conforms_read env .direct d).isSome_read,
    (SubagentResult.conforms_read env .direct d).isSome_read,
    (Message.conforms_read env .direct d).isSome_read,
    (ToolCall.conforms_read .direct d).isSome_read,
    (ToolResult.conforms_read .direct d).isSome_read,
    (StopReason.conforms_read .direct d).isSome_read,
    (ContentBlock.conforms_read .direct d).isSome_read⟩

/-- A line is decoded exactly if it is not too deep, and everything that is read in
    reading it is by itself as its schema demands. -/
theorem AgentEvent.isSome_fromDocument (env : Env Uuid DateTime) (d : Json) :
    (fromDocument (deserialize env) d).isSome = true ↔ d.depth ≤ recursionLimit ∧
      ∀ n, Node.ReadAs layout ⟨.direct, .event, d⟩ n →
        (schema Uuid DateTime n.kind).admits n.route n.doc = true := by
  have h := isSome_fromDocument_of_conforms (conforms_read env .direct d)
  rwa [layoutOf_schema] at h

end

end AgentPrimitives
