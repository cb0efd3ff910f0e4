import AgentPrimitives.Order

/-!
# Members that do not matter

As the decoders conform to the schema of the wire, what they read from a document
they read from all documents that a simulation relates to it. So

* unknown members do not matter, at whatever depth they are, and however often
  (`deserialize_prune`): a peer may add members of its own;
* what is read from a document is read from its value (`fromValue_of_deserialize`),
  though not the other way round, as a value has forgotten what was repeated.
-/

namespace AgentPrimitives

open Serde

/-! ## Unknown members -/

variable {Uuid DateTime : Type} [StringCodec Uuid] [StringCodec DateTime]

/-- The wire types have distinct fields, none of them called as the tag. -/
theorem distinctFields_layout (k : Kind) : (layout k).DistinctFields := by
  cases k <;> simp [layout, layoutOf, schemaOf, sourceSchema, sessionId, Schema.layout,
    Layout.DistinctFields, Map.mapValues, FieldCheck.entry]

/-- What conforms to the schema of the wire reads a document as without its unknown
    members. -/
theorem read_prune_of_conforms {α : Type} {k : Kind} {read : Json → Option α}
    (h : ∀ d, (⟨.direct, k, d⟩ : Node Kind).Conforms (schema Uuid DateTime) read) (d : Json) :
    read (prune layout .direct k d) = read d := by
  have hlayout : layoutOf (schema Uuid DateTime) = layout := layoutOf_schema
  rw [← hlayout]
  exact Node.Conforms.read_prune (hlayout ▸ distinctFields_layout) h d

/-- Unknown members make no difference: no document of the wire is decoded
    differently without them. -/
theorem deserialize_prune (env : Env Uuid DateTime) (d : Json) :
    AgentEvent.deserialize env (prune layout .direct .event d) = AgentEvent.deserialize env d ∧
    SubagentResult.deserialize env (prune layout .direct .subagentResult d) =
      SubagentResult.deserialize env d ∧
    Message.deserialize env (prune layout .direct .message d) = Message.deserialize env d ∧
    ToolCall.deserialize (prune layout .direct .toolCall d) = ToolCall.deserialize d ∧
    ToolResult.deserialize (prune layout .direct .toolResult d) = ToolResult.deserialize d ∧
    StopReason.deserialize (prune layout .direct .stopReason d) = StopReason.deserialize d ∧
    ContentBlock.deserialize (prune layout .direct .block d) = ContentBlock.deserialize d :=
  have h {α : Type} {k : Kind} {read : Json → Option α}
      (h : ∀ d, (⟨.direct, k, d⟩ : Node Kind).Conforms (schema Uuid DateTime) read) :
      read (prune layout .direct k d) = read d := read_prune_of_conforms h d
  ⟨h (AgentEvent.conforms_read env .direct), h (SubagentResult.conforms_read env .direct),
    h (Message.conforms_read env .direct), h (ToolCall.conforms_read .direct),
    h (ToolResult.conforms_read .direct), h (StopReason.conforms_read .direct),
    h (ContentBlock.conforms_read .direct)⟩

/-- A line without its unknown members is no deeper, has none left at any depth,
    and is decoded as the line was, unless that was too deep. -/
theorem AgentEvent.fromDocument_prune (env : Env Uuid DateTime) (d : Json) :
    (prune layout .direct .event d).depth ≤ d.depth ∧
    (∀ n, Node.ReadAs layout ⟨.direct, .event, prune layout .direct .event d⟩ n →
      n.Known layout) ∧
    fromDocument (deserialize env) d = if d.depth ≤ recursionLimit
      then fromDocument (deserialize env) (prune layout .direct .event d) else none := by
  have hdepth : (prune layout .direct .event d).depth ≤ d.depth := depth_pruneAs_le _ d
  refine ⟨hdepth, fun n hn => ?_, ?_⟩
  · exact Node.known_of_readAs_prune distinctFields_layout (n := ⟨.direct, .event, d⟩) hn
  · rw [fromDocument, fromDocument]
    by_cases hd : d.depth ≤ recursionLimit
    · rw [if_pos hd, if_pos hd, if_pos (hdepth.trans hd), (deserialize_prune env d).1]
    · rw [if_neg hd, if_neg hd]

/-! ## Repeated members -/

/-- What is decoded from a document is decoded from its value. -/
theorem fromValue_of_deserialize (env : Env Uuid DateTime) (d : Json) :
    (∀ e, AgentEvent.deserialize env d = some e →
      fromValue (AgentEvent.deserialize env) d.toValue = some e) ∧
    (∀ x, SubagentResult.deserialize env d = some x →
      fromValue (SubagentResult.deserialize env) d.toValue = some x) ∧
    (∀ m, Message.deserialize env d = some m →
      fromValue (Message.deserialize env) d.toValue = some m) ∧
    (∀ c, ToolCall.deserialize d = some c → fromValue ToolCall.deserialize d.toValue = some c) ∧
    (∀ x, ToolResult.deserialize d = some x →
      fromValue ToolResult.deserialize d.toValue = some x) ∧
    (∀ s, StopReason.deserialize d = some s →
      fromValue StopReason.deserialize d.toValue = some s) ∧
    ∀ b, ContentBlock.deserialize d = some b →
      fromValue ContentBlock.deserialize d.toValue = some b :=
  have h {α : Type} {k : Kind} {read : Json → Option α}
      (h : (⟨.direct, k, d⟩ : Node Kind).Conforms (schema Uuid DateTime) read) :
      ∀ a, read d = some a → fromValue read d.toValue = some a :=
    fun _ => fromValue_of_conforms h
  ⟨h (AgentEvent.conforms_read env .direct d), h (SubagentResult.conforms_read env .direct d),
    h (Message.conforms_read env .direct d), h (ToolCall.conforms_read .direct d),
    h (ToolResult.conforms_read .direct d), h (StopReason.conforms_read .direct d),
    h (ContentBlock.conforms_read .direct d)⟩

/-- An event with a repeated field is rejected. As a value it is read, with the last
    of them. -/
example :
    let d := Json.object [("session_id", .string "a"), ("event", .string "agent_start"),
      ("session_id", .string "b")]
    AgentEvent.deserialize epoch d = none ∧
      fromValue (AgentEvent.deserialize epoch) d.toValue = some (.agentStart "b") :=
  ⟨rfl, rfl⟩

end AgentPrimitives
