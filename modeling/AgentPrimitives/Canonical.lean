import AgentPrimitives.Verdict
import AgentPrimitives.Serde.Canon

/-!
# Canonical events and messages

To decode a document and to encode what was decoded, as whoever passes events on
does, is to make the document canonical (`map_deserialize`): the fields in the order
of their declaration, those that are missing with their defaults (`rules`), and
nothing else. This can be done by the schema alone. The canonical form of a document
is decoded to the same event in every environment, so what is missing is made up once
(`AgentEvent.recode_bind`), and two documents are decoded to the same event exactly if
they have the same canonical form (`AgentEvent.deserialize_eq_iff`).

The same holds of the documents of policies (`PolicyKind.recode_eq`).
-/

namespace AgentPrimitives

open Serde

/-! ## What is written of missing fields -/

/-- The flag of a tool result is left out unless it is set. -/
def isErrorRule : Rule where
  missing := some (.bool false)
  skip
    | .bool b => ToolResult.isFalse b
    | _ => false

section

variable {Uuid DateTime : Type} [StringCodec Uuid] [StringCodec DateTime]

/-- A message that has no identifier or no time gets them when it is decoded. -/
def rules (env : Env Uuid DateTime) : Kind → String → Rule
  | .message, "id" => ⟨some (MessageId.default env).serialize, fun _ => false⟩
  | .message, "created_at" => ⟨some (serializeTime env.now), fun _ => false⟩
  | .toolResult, "is_error" => isErrorRule
  | .block, "is_error" => isErrorRule
  | _, _ => .plain

variable (env : Env Uuid DateTime) (r : Route) (j : Json)

/-! ## Blocks -/

/-- A payload is written as the tree of its `Value`, sorted and without repeated names. -/
theorem writes_payload :
    (⟨r, .payload, j⟩ : Node Kind).Writes (schema Uuid DateTime) (rules env) readValue Value.tree :=
  .value rfl

theorem writes_payload_buffer : (⟨r, .payload, j⟩ : Node Kind).Writes (schema Uuid DateTime)
    (rules env) (fun d => readValue d.buffer) Value.tree :=
  (writes_payload env r j).congr (funext fun d => (readValue_buffer d).symm)

theorem writes_sourceVariants {α : Type} {base64 : String → String → α} {url : String → α}
    {k : Kind} (hk : schema Uuid DateTime k = sourceSchema)
    (hrules : rules env k = fun _ => .plain) {write : α → Json}
    (hbase64 : ∀ mediaType data, write (base64 mediaType data) = serializeBase64 mediaType data)
    (hurl : ∀ u, write (url u) = serializeUrl u) :
    (⟨r, k, j⟩ : Node Kind).Writes (schema Uuid DateTime) (rules env)
      (taggedOn r "type" (sourceVariants base64 url)) write := by
  refine .taggedOn hk ?_
  rw [hrules]
  refine .cons ?base64 (.cons ?url .nil)
  case base64 =>
    exact .struct (by decide) (.required (fun _ _ => .string_buffer)
      (.required (fun _ _ => .string_buffer) .nil)) fun t => hbase64 t.1 t.2.1
  case url =>
    exact .struct (by decide) (.required (fun _ _ => .string_buffer) .nil) fun t => hurl t.1

theorem ImageSource.writes_read : (⟨r, .imageSource, j⟩ : Node Kind).Writes (schema Uuid DateTime)
    (rules env) (read r) serialize := by
  rw [funext (read_eq r)]
  exact writes_sourceVariants env r j rfl rfl (fun _ _ => rfl) fun _ => rfl

theorem DocumentSource.writes_read :
    (⟨r, .documentSource, j⟩ : Node Kind).Writes (schema Uuid DateTime) (rules env) (read r)
      serialize := by
  rw [funext (read_eq r)]
  exact writes_sourceVariants env r j rfl rfl (fun _ _ => rfl) fun _ => rfl

/-- Blocks are written canonically if the blocks inside are. -/
theorem ContentBlock.writes_variants
    (h : ∀ x : Json, x.depth < j.depth → (⟨.buffered, .block, x⟩ : Node Kind).Writes
      (schema Uuid DateTime) (rules env) (read .buffered) serialize) :
    (⟨r, .block, j⟩ : Node Kind).Writes (schema Uuid DateTime) (rules env)
      (taggedOn r "type" (variants deserialize)) serialize := by
  refine .taggedOn rfl (.cons ?text (.cons ?image (.cons ?document (.cons ?toolUse
    (.cons ?toolResult (.cons ?json .nil))))))
  case text =>
    exact .struct (by decide) (.required (fun _ _ => .string_buffer) .nil) fun _ => rfl
  case image =>
    exact .struct (by decide)
      (.required (fun x _ => .one (ImageSource.writes_read env .buffered x)) .nil) fun _ => rfl
  case document =>
    exact .struct (by decide)
      (.required (fun x _ => .one (DocumentSource.writes_read env .buffered x)) .nil) fun _ => rfl
  case toolUse =>
    exact .struct (by decide) (.required (fun _ _ => .string_buffer)
      (.required (fun _ _ => .string_buffer)
        (.required (fun x _ => .one (writes_payload_buffer env .buffered x)) .nil))) fun _ => rfl
  case toolResult =>
    refine .struct (by decide) (.required (fun _ _ => .string_buffer) (.required (fun x hx =>
      .many_buffer fun y hy => h y (hy.trans (Json.depth_lt_of_mem_candidates hx)))
        (.default (fun _ _ => .bool_buffer) rfl .nil))) fun t => ?_
    -- The flag is left out by both or by neither.
    obtain ⟨toolUseId, content, isError, -⟩ := t
    rw [serialize, serializeList_eq]
    cases isError <;> rfl
  case json =>
    exact .struct (by decide)
      (.required (fun x _ => .one (writes_payload_buffer env .buffered x)) .nil) fun _ => rfl

/-- A block is written canonically: its flag is left out when false, and its blocks are
    canonical. -/
theorem ContentBlock.writes_read : (⟨r, .block, j⟩ : Node Kind).Writes (schema Uuid DateTime)
    (rules env) (read r) serialize := by
  induction h : j.depth using Nat.strong_induction_on generalizing r j with
  | _ n ih =>
    subst h
    rw [funext (read_eq r)]
    exact writes_variants env r j fun x hx => ih x.depth hx .buffered x rfl

/-! ## Structs and events -/

theorem StopReason.writes_read : (⟨r, .stopReason, j⟩ : Node Kind).Writes (schema Uuid DateTime)
    (rules env) (read r) serialize := by
  rw [funext (read_eq r)]
  refine .taggedOn rfl (.cons (.unit rfl) (.cons (.unit rfl) (.cons ?abortedByHook
    (.cons (.unit rfl) (.cons ?error .nil)))))
  case abortedByHook =>
    exact .struct (by decide) (.required (fun _ _ => .string_buffer) .nil) fun _ => rfl
  case error =>
    exact .struct (by decide) (.required (fun _ _ => .string_buffer) .nil) fun _ => rfl

theorem ToolCall.writes_read : (⟨r, .toolCall, j⟩ : Node Kind).Writes (schema Uuid DateTime)
    (rules env) (read r) serialize := by
  rw [funext (read_eq r)]
  exact .map (.structOn rfl (.required (fun _ _ => .string) (.required (fun _ _ => .string)
    (.required (fun x _ => .one (writes_payload env r x)) .nil)))) fun _ => rfl

/-- A reply is written canonically: its flag is left out when false. -/
theorem ToolResult.writes_read : (⟨r, .toolResult, j⟩ : Node Kind).Writes (schema Uuid DateTime)
    (rules env) (read r) serialize := by
  rw [funext (read_eq r)]
  refine .map (.structOn rfl (.required (fun _ _ => .string)
    (.required (fun _ _ => .many fun y _ => ContentBlock.writes_read env r y)
      (.default (fun _ _ => .bool) rfl .nil)))) fun t => ?_
  obtain ⟨toolUseId, content, isError, -⟩ := t
  cases isError <;> rfl

/-- An id is written as it is formatted, however it was spelled. -/
theorem writes_messageId {S : Kind → Schema Kind} {x : Json} :
    (Check.parsed Uuid : Check Kind).Writes S (rules env) r x
      (MessageId.deserialize : Json → Option (MessageId Uuid)) fun id => some id.serialize :=
  .map .parsed fun _ => rfl

theorem writes_messageId_buffer {S : Kind → Schema Kind} {x : Json} :
    (Check.parsed Uuid : Check Kind).Writes S (rules env) r x
      (fun d : Json => (MessageId.deserialize d.buffer : Option (MessageId Uuid)))
      fun id => some id.serialize :=
  (writes_messageId env r).congr (funext fun d => (MessageId.deserialize_buffer d).symm)

theorem writes_role {S : Kind → Schema Kind} {x : Json} :
    roleCheck.Writes S (rules env) r x (Role.read r) fun role => some role.serialize :=
  .name Role.variants (by simp [Role.variants, Role.serialize])

/-- A message is written canonically: an id or a time that was absent is that of the
    environment. -/
theorem Message.writes_read : (⟨r, .message, j⟩ : Node Kind).Writes (schema Uuid DateTime)
    (rules env) (read env r) serialize := by
  rw [funext (read_eq env r)]
  have hfields : (fieldsOn env r).Writes (schema Uuid DateTime) (rules env) (rules env .message)
      r j 0 _ _ :=
    .default (fun _ _ => writes_messageId env r) rfl (.required (fun _ _ => writes_role env r)
      (.required (fun _ _ => .many fun y _ => ContentBlock.writes_read env r y)
        (.default (fun _ _ => .parsed) rfl .nil)))
  exact .map (.structOn rfl hfields) fun _ => rfl

/-- The result of a subagent is written canonically: an absent message is left out. -/
theorem SubagentResult.writes_read : (⟨r, .subagentResult, j⟩ : Node Kind).Writes
    (schema Uuid DateTime) (rules env) (read env r) serialize := by
  rw [funext (read_eq env r)]
  refine .map (.structOn rfl (.required (fun _ _ => .string)
    (.required (fun x _ => .one (StopReason.writes_read env r x))
      (.default (fun x _ => .optional (Message.writes_read env r x)) rfl .nil)))) fun t => ?_
  obtain ⟨sessionId, stopReason, finalMessage, -⟩ := t
  cases finalMessage <;> rfl

/-- An event is written canonically, whatever it carries. -/
theorem AgentEvent.writes_read : (⟨r, .event, j⟩ : Node Kind).Writes (schema Uuid DateTime)
    (rules env) (read env r) serialize := by
  rw [funext (read_eq env r)]
  refine .taggedOn rfl (.cons ?agentStart (.cons ?agentStop (.cons ?messageStart
    (.cons ?messageDelta (.cons ?messageEnd (.cons ?toolCallStart (.cons ?toolCallEnd
      (.cons ?subagentResult (.cons ?askUser (.cons ?error .nil))))))))))
  case agentStart =>
    exact .struct (by simp [Fields.names]) (.required (fun _ _ => .string_buffer) .nil) fun _ => rfl
  case agentStop =>
    exact .struct (by simp [Fields.names]) (.required (fun _ _ => .string_buffer)
      (.required (fun x _ => .one (StopReason.writes_read env .buffered x)) .nil)) fun _ => rfl
  case messageStart =>
    exact .struct (by simp [Fields.names]) (.required (fun _ _ => .string_buffer)
      (.required (fun _ _ => writes_messageId_buffer env .buffered)
        (.required (fun x _ => @writes_role _ _ _ _ env .buffered _ x) .nil))) fun _ => rfl
  case messageDelta =>
    exact .struct (by simp [Fields.names]) (.required (fun _ _ => .string_buffer)
      (.required (fun _ _ => writes_messageId_buffer env .buffered)
        (.required (fun _ _ => .string_buffer) .nil))) fun _ => rfl
  case messageEnd =>
    exact .struct (by simp [Fields.names]) (.required (fun _ _ => .string_buffer)
      (.required (fun x _ => .one (Message.writes_read env .buffered x)) .nil)) fun _ => rfl
  case toolCallStart =>
    exact .struct (by simp [Fields.names]) (.required (fun _ _ => .string_buffer)
      (.required (fun x _ => .one (ToolCall.writes_read env .buffered x)) .nil)) fun _ => rfl
  case toolCallEnd =>
    exact .struct (by simp [Fields.names]) (.required (fun _ _ => .string_buffer)
      (.required (fun x _ => .one (ToolResult.writes_read env .buffered x)) .nil)) fun _ => rfl
  case subagentResult =>
    exact .struct (by simp [Fields.names]) (.required (fun _ _ => .string_buffer)
      (.required (fun x _ => .one (SubagentResult.writes_read env .buffered x)) .nil)) fun _ => rfl
  case askUser =>
    exact .struct (by simp [Fields.names]) (.required (fun _ _ => .string_buffer)
      (.required (fun _ _ => .string_buffer) (.required (fun _ _ => .string_buffer) .nil)))
      fun _ => rfl
  case error =>
    exact .struct (by simp [Fields.names]) (.required (fun _ _ => .string_buffer)
      (.required (fun _ _ => .string_buffer) .nil)) fun _ => rfl

/-! ## Canonical documents -/

/-- To decode a document of the wire and to encode what was decoded is to make it
    canonical. -/
theorem map_deserialize (d : Json) :
    let recode (k : Kind) := Node.recode (schema Uuid DateTime) (rules env) ⟨.direct, k, d⟩
    (AgentEvent.deserialize env d).map AgentEvent.serialize = recode .event ∧
      (SubagentResult.deserialize env d).map SubagentResult.serialize = recode .subagentResult ∧
      (Message.deserialize env d).map Message.serialize = recode .message ∧
      (ToolCall.deserialize d).map ToolCall.serialize = recode .toolCall ∧
      (ToolResult.deserialize d).map ToolResult.serialize = recode .toolResult ∧
      (StopReason.deserialize d).map StopReason.serialize = recode .stopReason ∧
      (ContentBlock.deserialize d).map ContentBlock.serialize = recode .block :=
  ⟨(AgentEvent.conforms_read env .direct d).map_read (AgentEvent.writes_read env .direct d),
    (SubagentResult.conforms_read env .direct d).map_read
      (SubagentResult.writes_read env .direct d),
    (Message.conforms_read env .direct d).map_read (Message.writes_read env .direct d),
    (ToolCall.conforms_read .direct d).map_read (ToolCall.writes_read env .direct d),
    (ToolResult.conforms_read .direct d).map_read (ToolResult.writes_read env .direct d),
    (StopReason.conforms_read .direct d).map_read (StopReason.writes_read env .direct d),
    (ContentBlock.conforms_read .direct d).map_read (ContentBlock.writes_read env .direct d)⟩

/-- The canonical form of an event is decoded to the event, in whatever environment, and
    stays as it is. -/
theorem AgentEvent.recode_bind (env' : Env Uuid DateTime) (d : Json) :
    let recode (env : Env Uuid DateTime) (d : Json) :=
      Node.recode (schema Uuid DateTime) (rules env) ⟨.direct, .event, d⟩
    (recode env d).bind (deserialize env') = deserialize env d ∧
      (recode env d).bind (recode env') = recode env d := by
  intro recode
  have hmap (env : Env Uuid DateTime) (d : Json) :
      recode env d = (deserialize env d).map serialize := (map_deserialize env d).1.symm
  have hread : (recode env d).bind (deserialize env') = deserialize env d :=
    Node.recode_bind_read (fun d => (map_deserialize env d).1)
      (fun _ e _ => read_serialize env' .direct e) d
  refine ⟨hread, ?_⟩
  calc (recode env d).bind (recode env')
      = (recode env d).bind fun x => (deserialize env' x).map serialize :=
        Option.bind_congr fun x _ => hmap env' x
    _ = ((recode env d).bind (deserialize env')).map serialize := Option.map_bind.symm
    _ = recode env d := by rw [hread, hmap]

/-- Documents are decoded to the same event exactly if they have the same canonical
    form, or both are rejected. -/
theorem AgentEvent.deserialize_eq_iff (d d' : Json) :
    deserialize env d = deserialize env d' ↔
      Node.recode (schema Uuid DateTime) (rules env) ⟨.direct, .event, d⟩ =
        Node.recode (schema Uuid DateTime) (rules env) ⟨.direct, .event, d'⟩ :=
  Node.read_eq_iff (fun d => (map_deserialize env d).1)
    (fun _ e _ => read_serialize env .direct e) d d'

end

/-- A result that is written by position, with the index of a variant for its name. -/
example : Node.recode (schema (Canonical isUuid) (Canonical isTimestamp)) (rules epoch)
    ⟨.buffered, .toolResult,
      .array [.string "c", .array [.array [.number (.posInt 0), .string "hi"]]]⟩ =
    some (.object [("tool_use_id", .string "c"),
      ("content", .array [.object [("type", .string "text"), ("text", .string "hi")]])]) := rfl

/-! ## Canonical documents of policies -/

/-- What is written of the fields of policies that may be missing. -/
def policyRules : PolicyKind → String → Rule
  | .permission, "prompt" => ⟨some .null, fun _ => false⟩
  | .toolAnnotations, _ => ⟨some (.bool false), fun _ => false⟩
  | _, _ => .plain

/-- The verdict of a hook is written canonically: a rewrite that is null is left out. -/
theorem HookResult.writes_deserialize (j : Json) : (⟨.direct, .hookResult, j⟩ :
    Node PolicyKind).Writes policySchema policyRules deserialize serialize := by
  rw [funext deserialize_eq]
  refine .taggedOn rfl (.cons ?cont (.cons ?skip (.cons ?abort .nil)))
  case cont =>
    have hvalue (x : Json) : (⟨.buffered, .payload, x⟩ : Node PolicyKind).Writes policySchema
        policyRules (fun d => readValue d.buffer) Value.tree :=
      Node.Writes.congr (.value rfl) (funext fun d => (readValue_buffer d).symm)
    refine .struct (by decide) (.default (fun x _ => .optional_buffer (hvalue x)) rfl .nil)
      fun t => ?_
    obtain ⟨updatedInput, -⟩ := t
    cases updatedInput <;> rfl
  case skip => exact .struct (by decide) (.required (fun _ _ => .string_buffer) .nil) fun _ => rfl
  case abort => exact .struct (by decide) (.required (fun _ _ => .string_buffer) .nil) fun _ => rfl

theorem ToolFailure.writes_deserialize (j : Json) : (⟨.direct, .toolFailure, j⟩ :
    Node PolicyKind).Writes policySchema policyRules deserialize serialize := by
  rw [funext deserialize_eq]
  refine .taggedOn rfl (.cons ?error (.cons (.unit rfl) (.cons (.unit rfl) .nil)))
  exact .struct (by decide) (.required (fun _ _ => .string_buffer) .nil) fun _ => rfl

/-- A permission is written canonically: a prompt that is missing is null. -/
theorem Permission.writes_deserialize (j : Json) : (⟨.direct, .permission, j⟩ :
    Node PolicyKind).Writes policySchema policyRules deserialize serialize := by
  rw [funext deserialize_eq]
  refine .taggedOn rfl (.cons (.unit rfl) (.cons ?deny (.cons ?askUser .nil)))
  case deny => exact .struct (by decide) (.required (fun _ _ => .string_buffer) .nil) fun _ => rfl
  case askUser =>
    have hask (maybe : Option (Option String)) (h : ∀ a, maybe = some a → a = none) :
        Fields.Writes policySchema policyRules (policyRules .permission) .buffered j 1
          (.cons "prompt" (fun d : Json => readOption readString d.buffer) maybe none .nil)
          [⟨"prompt", .optionalString, true, false⟩] _ :=
      .cons (f := ⟨"prompt", .optionalString, true, false⟩) (fun _ _ => .optionalString_buffer)
        (fun a ha => h a ha ▸ rfl) .nil
    exact .structBy (by decide) (by decide)
      (fun _ _ => hask _ fun _ ha => (Option.some_inj.1 ha).symm)
      (fun _ _ => hask _ fun _ ha => absurd ha.symm (Option.some_ne_none _)) fun _ => rfl

theorem PermissionMode.writes_deserialize (j : Json) : (⟨.direct, .permissionMode, j⟩ :
    Node PolicyKind).Writes policySchema policyRules deserialize serialize := by
  have hschema : policySchema .permissionMode = .scalar (.name (Map.keys variants)) := rfl
  exact .scalar hschema
    (@Scalar.Writes.name _ .direct j variants _ (by simp [variants, serialize]))

theorem ReviewDecision.writes_deserialize (j : Json) : (⟨.direct, .reviewDecision, j⟩ :
    Node PolicyKind).Writes policySchema policyRules deserialize serialize := by
  rw [funext deserialize_eq]
  refine .taggedOn rfl (.cons (.unit rfl) (.cons ?deny .nil))
  exact .struct (by decide) (.required (fun _ _ => .string_buffer) .nil) fun _ => rfl

theorem ToolSchema.writes_deserialize (j : Json) : (⟨.direct, .toolSchema, j⟩ :
    Node PolicyKind).Writes policySchema policyRules deserialize serialize := by
  rw [funext deserialize_eq]
  exact .map (.structOn rfl (.required (fun _ _ => .string) (.required (fun _ _ => .string)
    (.required (fun x _ => .one (.value rfl)) .nil)))) fun _ => rfl

/-- Annotations are written with all their flags. -/
theorem ToolAnnotations.writes_deserialize (j : Json) : (⟨.direct, .toolAnnotations, j⟩ :
    Node PolicyKind).Writes policySchema policyRules deserialize serialize := by
  rw [funext deserialize_eq]
  exact .map (.structOn rfl (.default (fun _ _ => .bool) rfl (.default (fun _ _ => .bool) rfl
    (.default (fun _ _ => .bool) rfl (.default (fun _ _ => .bool) rfl .nil))))) fun _ => rfl

theorem MemoryKind.writes_deserialize (j : Json) : (⟨.direct, .memoryKind, j⟩ :
    Node PolicyKind).Writes policySchema policyRules deserialize serialize := by
  have hschema : policySchema .memoryKind = .scalar (.name (Map.keys variants)) := rfl
  exact .scalar hschema
    (@Scalar.Writes.name _ .direct j variants _ (by simp [variants, serialize]))

theorem MemoryKey.writes_deserialize (j : Json) : (⟨.direct, .memoryKey, j⟩ :
    Node PolicyKind).Writes policySchema policyRules deserialize serialize := by
  rw [funext deserialize_eq]
  exact .map (.structOn rfl (.required (fun _ _ => .string)
    (.required (fun x _ => .one (MemoryKind.writes_deserialize x))
      (.required (fun _ _ => .string) .nil)))) fun _ => rfl

theorem MemorySchema.writes_deserialize (j : Json) : (⟨.direct, .memorySchema, j⟩ :
    Node PolicyKind).Writes policySchema policyRules deserialize serialize := by
  rw [funext deserialize_eq]
  exact .map (.structOn rfl
    (.required (fun _ _ => .many fun y _ => MemoryKey.writes_deserialize y) .nil)) fun _ => rfl

/-- A null is not read as a rewrite, so what is read is not the rewrite to null. -/
theorem HookResult.ne_rewrite_null {d : Json} {h : HookResult} (hd : deserialize d = some h) :
    h ≠ rewrite .null := by
  rintro rfl
  have hfield : ∀ x : Json, readOption readValue x.buffer ≠ some (some Value.null) := by
    intro x hx
    rw [readOption_buffer, readOption_eq_some] at hx
    obtain ⟨-, hnone⟩ | ⟨hnull, v, hv, hsome⟩ := hx
    · cases hnone
    · -- Only null is the value null.
      cases hsome
      rw [readValue_buffer] at hv
      have hx : x.normalize = .null := congrArg Value.tree (Option.some_inj.1 hv)
      cases x <;> simp at hx hnull
  have hinput : Verdict.inputOn d = some (some .null) :=
    ((Verdict.readFrom_iff_body (.hook (rewrite .null))).1 hd).2
  obtain ⟨input, hpick, rfl⟩ := Variant.exists_pick_of_on (by decide) hinput
  generalize d.candidates "updated_input" 1 = l at hpick
  rcases l with _ | ⟨x, _ | ⟨x', l⟩⟩
  · cases hpick
  · exact hfield x hpick
  · cases hpick

namespace PolicyKind

/-- No rewrite to null is ever decoded. -/
theorem kept_of_deserialize {k : PolicyKind} {d : Json} {a : k.Decoded}
    (ha : k.deserialize d = some a) : k.Kept a := by
  cases k with
  | hookResult => exact HookResult.ne_rewrite_null ha
  | _ => trivial

/-- What is decoded is encoded as the canonical form of the document. -/
theorem map_serialize_deserialize (k : PolicyKind) (d : Json) :
    (k.deserialize d).map k.serialize = Node.recode policySchema policyRules ⟨.direct, k, d⟩ := by
  refine (k.conforms_deserialize d).map_read ?_
  cases k with
  | hookResult => exact HookResult.writes_deserialize d
  | toolFailure => exact ToolFailure.writes_deserialize d
  | permission => exact Permission.writes_deserialize d
  | permissionMode => exact PermissionMode.writes_deserialize d
  | reviewDecision => exact ReviewDecision.writes_deserialize d
  | toolSchema => exact ToolSchema.writes_deserialize d
  | toolAnnotations => exact ToolAnnotations.writes_deserialize d
  | memoryKind => exact MemoryKind.writes_deserialize d
  | memoryKey => exact MemoryKey.writes_deserialize d
  | memorySchema => exact MemorySchema.writes_deserialize d
  | payload => exact .value rfl

/-- To decode a document and to encode what was decoded is to make it canonical. That is
    decoded to the same, and documents are decoded to the same exactly if they have the
    same canonical form, or both are rejected. -/
theorem recode_eq (k : PolicyKind) (d d' : Json) :
    let recode (d : Json) := Node.recode policySchema policyRules ⟨.direct, k, d⟩
    (k.deserialize d).map k.serialize = recode d ∧
      (recode d).bind k.deserialize = k.deserialize d ∧
      (k.deserialize d = k.deserialize d' ↔ recode d = recode d') := by
  -- What was decoded is kept, even by a hook.
  have hread : ∀ d a, k.deserialize d = some a → k.deserialize (k.serialize a) = some a :=
    fun _ a ha => (k.deserialize_serialize_iff a).2 (kept_of_deserialize ha)
  exact ⟨k.map_serialize_deserialize d,
    Node.recode_bind_read k.map_serialize_deserialize hread d,
    Node.read_eq_iff k.map_serialize_deserialize hread d d'⟩

end PolicyKind

end AgentPrimitives
