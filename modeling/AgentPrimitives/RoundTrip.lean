import AgentPrimitives.Order

/-!
# Round trips

What is written is read back: every encoder writes a document without repeated
names, which the decoder reads as what was written (`T.read_serialize`), by
either route. As the order of members does not matter, the value it is makes no
difference (`AgentEvent.fromValue_toValue`).

The verdicts of hooks are the exception: a rewrite to `null` is read as no
rewrite (`HookResult.fromValue_toValue_iff`).
-/

namespace AgentPrimitives

open Serde Serde.Json

/-! ## Written documents have no repeated names -/

/-- A tagged object repeats no name when the tag is new, and nothing in it does. -/
theorem distinct_tagged {tag name : String} {ms : Members Json} :
    (tagged tag name ms).Distinct ↔ (tag :: Map.keys ms).Nodup ∧ ∀ m ∈ ms, m.2.Distinct := by
  refine names_object.trans (and_congr_right fun _ => ?_)
  rw [List.forall_mem_cons]
  exact and_iff_right (.string name)

theorem distinct_string (s : String) : (Json.string s).Distinct := .string s

/-- A `Value` repeats no name: it has already kept the last. -/
theorem distinct_tree (v : Value) : v.tree.Distinct := v.sorted.distinct

theorem ImageSource.distinct_serialize (s : ImageSource) : s.serialize.Distinct := by
  cases s <;> simp [serialize, serializeBase64, serializeUrl, distinct_tagged, distinct_string]

theorem DocumentSource.distinct_serialize (s : DocumentSource) : s.serialize.Distinct := by
  cases s <;> simp [serialize, serializeBase64, serializeUrl, distinct_tagged, distinct_string]

/-- A block is encoded without repeated names, and so are the blocks of a reply. -/
theorem ContentBlock.distinct_serialize (b : ContentBlock) : b.serialize.Distinct := by
  induction b with
  | text s => simp [serialize, distinct_tagged, distinct_string]
  | image source => simp [serialize, distinct_tagged, source.distinct_serialize]
  | document source => simp [serialize, distinct_tagged, source.distinct_serialize]
  | toolUse id name input => simp [serialize, distinct_tagged, distinct_string, distinct_tree]
  | toolResult toolUseId content isError ih =>
    have hcontent : (Json.array (content.map serialize)).Distinct :=
      .array (List.forall_mem_map.2 ih)
    cases isError <;> simp [serialize, serializeList_eq, isFalse, memberUnless, distinct_tagged,
      distinct_string, hcontent, Names.bool]
  | json value => simp [serialize, distinct_tagged, distinct_tree]

theorem ToolCall.distinct_serialize (c : ToolCall) : c.serialize.Distinct := by
  simp [serialize, names_object, distinct_string, distinct_tree]

theorem ToolResult.distinct_serialize (x : ToolResult) : x.serialize.Distinct := by
  have hcontent : (Json.array (x.content.map ContentBlock.serialize)).Distinct :=
    .array (List.forall_mem_map.2 fun b _ => b.distinct_serialize)
  cases hx : x.isError <;>
    simp [serialize, hx, isFalse, memberUnless, names_object, distinct_string, hcontent, Names.bool]

theorem StopReason.distinct_serialize (s : StopReason) : s.serialize.Distinct := by
  cases s <;> simp [serialize, distinct_tagged, distinct_string]

section

variable {Uuid DateTime : Type} [StringCodec Uuid] [StringCodec DateTime]

/-- A message is encoded without repeated names. -/
theorem Message.distinct_serialize (m : Message Uuid DateTime) : m.serialize.Distinct := by
  have hcontent : (Json.array (m.content.map ContentBlock.serialize)).Distinct :=
    .array (List.forall_mem_map.2 fun b _ => b.distinct_serialize)
  have hrole : m.role.serialize.Distinct := by cases m.role <;> exact distinct_string _
  simp [serialize, MessageId.serialize, serializeTime, names_object, distinct_string, hcontent,
    hrole]

theorem SubagentResult.distinct_serialize (x : SubagentResult Uuid DateTime) :
    x.serialize.Distinct := by
  cases hx : x.finalMessage with
  | none => simp [serialize, hx, names_object, distinct_string, x.stopReason.distinct_serialize]
  | some m =>
    simp [serialize, hx, names_object, distinct_string, x.stopReason.distinct_serialize,
      m.distinct_serialize]

/-- An event is encoded without repeated names. -/
theorem AgentEvent.distinct_serialize (e : AgentEvent Uuid DateTime) : e.serialize.Distinct := by
  have hrole : ∀ role : Role, role.serialize.Distinct := fun role => by
    cases role <;> exact distinct_string _
  cases e <;> simp [serialize, distinct_tagged, distinct_string, MessageId.serialize, hrole,
    StopReason.distinct_serialize, Message.distinct_serialize, ToolCall.distinct_serialize,
    ToolResult.distinct_serialize, SubagentResult.distinct_serialize]

end

/-! ## Reading what is written -/

theorem ImageSource.read_serialize (r : Route) (s : ImageSource) : read r s.serialize = some s := by
  rw [read_eq_some s.distinct_serialize.names]
  cases s <;> simp [Reads, ReadsBase64, ReadsUrl, serialize, serializeBase64, serializeUrl,
    sourceNames, List.idxOf?_cons, Map.lookup_cons]

theorem DocumentSource.read_serialize (r : Route) (s : DocumentSource) :
    read r s.serialize = some s := by
  rw [read_eq_some s.distinct_serialize.names]
  cases s <;> simp [Reads, ReadsBase64, ReadsUrl, serialize, serializeBase64, serializeUrl,
    sourceNames, List.idxOf?_cons, Map.lookup_cons]

/-- The flag of a tool result is read back, written or left out. -/
theorem readField_isError {j : Json} {i : ℕ} {isError : Bool}
    (h : j.field? "is_error" i = if isError then some (.bool true) else none) :
    j.readField "is_error" i readBool (some false) = some isError := by
  rw [readField, h]
  cases isError <;> rfl

/-- Blocks that are each decoded from their encoding are decoded from the list of them. -/
theorem ContentBlock.forall₂_read_serialize {r : Route} {bs : List ContentBlock}
    (h : ∀ b ∈ bs, read r b.serialize = some b) :
    List.Forall₂ (fun x b => read r x = some b) (bs.map serialize) bs :=
  List.forall₂_map_left_iff.2 (List.forall₂_same.2 h)

/-- A block is decoded from its encoding, on either route: it is written with its name
    as the tag. -/
theorem ContentBlock.read_serialize (r : Route) (b : ContentBlock) :
    read r b.serialize = some b := by
  induction b generalizing r with
  | text s =>
    rw [read_eq_some (distinct_serialize _).names]
    simp [Reads, serialize, names, List.idxOf?_cons]
  | image source =>
    rw [read_eq_some (distinct_serialize _).names]
    simp [Reads, serialize, names, List.idxOf?_cons, source.read_serialize]
  | document source =>
    rw [read_eq_some (distinct_serialize _).names]
    simp [Reads, serialize, names, List.idxOf?_cons, source.read_serialize]
  | toolUse id name input =>
    rw [read_eq_some (distinct_serialize _).names]
    simp [Reads, serialize, names, List.idxOf?_cons, Map.lookup_cons]
  | toolResult toolUseId content isError ih =>
    -- The blocks inside are read back out of the buffer, whatever the route.
    rw [read_eq_some (distinct_serialize _).names]
    refine ⟨?_, trivial, ?_, ⟨_, ?_, forall₂_read_serialize fun b hb => ih b hb .buffered⟩,
      readField_isError ?_⟩
    all_goals simp [serialize, serializeList_eq, names, List.idxOf?_cons, Map.lookup_cons]
    cases isError <;> simp [memberUnless, isFalse, Map.lookup_cons]
  | json value =>
    rw [read_eq_some (distinct_serialize _).names]
    simp [Reads, serialize, names, List.idxOf?_cons, Map.lookup_cons]

/-- A call is decoded from its encoding. -/
theorem ToolCall.read_serialize (r : Route) (c : ToolCall) : read r c.serialize = some c := by
  rw [read_eq_some c.distinct_serialize.names, reads_iff]
  simp [serialize, Map.lookup_cons]

/-- A reply is decoded from its encoding, on either route. -/
theorem ToolResult.read_serialize (r : Route) (x : ToolResult) : read r x.serialize = some x := by
  rw [read_eq_some x.distinct_serialize.names]
  refine ⟨trivial, ?_, ⟨_, ?_, ContentBlock.forall₂_read_serialize fun b _ => b.read_serialize r⟩,
    readField_isError ?_⟩
  all_goals simp [serialize, Map.lookup_cons]
  cases x.isError <;> simp [memberUnless, isFalse, Map.lookup_cons]

theorem StopReason.read_serialize (r : Route) (s : StopReason) : read r s.serialize = some s := by
  rw [read_eq_some s.distinct_serialize.names]
  cases s <;> simp [Reads, serialize, names, List.idxOf?_cons, Map.lookup_cons]

theorem Role.read_serialize (r : Route) (role : Role) : read r role.serialize = some role := by
  rw [read_eq_some]
  cases role
  exacts [⟨"system", rfl, .inl rfl⟩, ⟨"user", rfl, .inl rfl⟩, ⟨"assistant", rfl, .inl rfl⟩,
    ⟨"tool", rfl, .inl rfl⟩]

section

variable {Uuid DateTime : Type} [StringCodec Uuid] [StringCodec DateTime]

/-- An id is decoded from its encoding. -/
theorem MessageId.deserialize_serialize (id : MessageId Uuid) :
    deserialize id.serialize = some id := by
  rw [deserialize, serialize, readParsed_eq_some.2 ⟨_, rfl, StringCodec.parse_format id.uuid⟩]
  rfl

/-- A time is decoded from its encoding. -/
theorem readParsed_serializeTime (t : DateTime) : readParsed (serializeTime t) = some t :=
  readParsed_eq_some.2 ⟨_, rfl, StringCodec.parse_format t⟩

/-- The defaults of a message are not used to read it back. -/
theorem Message.read_serialize (env : Env Uuid DateTime) (r : Route) (m : Message Uuid DateTime) :
    read env r m.serialize = some m := by
  rw [read_eq_some m.distinct_serialize.names]
  refine ⟨trivial, ?_, ⟨_, ?_, m.role.read_serialize r⟩,
    ⟨_, ?_, ContentBlock.forall₂_read_serialize fun b _ => b.read_serialize r⟩, ?_⟩
  all_goals simp [serialize, readField, Map.lookup_cons, MessageId.deserialize_serialize,
    readParsed_serializeTime]

theorem SubagentResult.read_serialize (env : Env Uuid DateTime) (r : Route)
    (x : SubagentResult Uuid DateTime) : read env r x.serialize = some x := by
  rw [read_eq_some x.distinct_serialize.names]
  refine ⟨trivial, ?_, ⟨_, ?_, x.stopReason.read_serialize r⟩, ?_⟩
  · simp [serialize]
  · simp [serialize, Map.lookup_cons]
  · -- A message that is there is not null, so it is not taken for absent.
    cases hx : x.finalMessage with
    | none => simp [serialize, hx, readField, Map.lookup_cons]
    | some m =>
      have hm : m.serialize ≠ .null := by simp [Message.serialize]
      simp [serialize, hx, readField, Map.lookup_cons, readOption_of_ne_null hm, m.read_serialize]

/-- An event is decoded from its encoding, in any environment: the id and the time of a
    message are always written. -/
theorem AgentEvent.read_serialize (env : Env Uuid DateTime) (r : Route)
    (e : AgentEvent Uuid DateTime) : read env r e.serialize = some e := by
  rw [read_eq_some e.distinct_serialize.names]
  cases e <;> simp [Reads, serialize, names, List.idxOf?_cons, Map.lookup_cons,
    MessageId.deserialize_serialize, Role.read_serialize, StopReason.read_serialize,
    Message.read_serialize, ToolCall.read_serialize, ToolResult.read_serialize,
    SubagentResult.read_serialize]

/-- An event survives being made a value, whatever the environment it is decoded
    in. -/
theorem AgentEvent.fromValue_toValue (env : Env Uuid DateTime) (e : AgentEvent Uuid DateTime) :
    fromValue (deserialize env) (toValue serialize e) = some e :=
  (fromValue_toValue_of_conforms (conforms_read env .direct _) e.distinct_serialize).trans
    (read_serialize env .direct e)

end

/-! ## Verdicts of hooks -/

namespace HookResult

/-- A verdict is written with its members in order. -/
theorem sorted_serialize (h : HookResult) : h.serialize.Sorted := by
  have members (name key : String) {j : Json} (hj : j.Sorted) :
      ∀ m ∈ [("kind", Json.string name), (key, j)], m.2.Sorted :=
    List.forall_mem_cons.2 ⟨.string name, List.forall_mem_singleton.2 hj⟩
  have reason : ["kind", "reason"].Pairwise (· < ·) := by decide
  have updatedInput : ["kind", "updated_input"].Pairwise (· < ·) := by decide
  cases h with
  | «continue» input =>
    cases input with
    | none => exact .object (List.pairwise_singleton _ _) (List.forall_mem_singleton.2 (.string _))
    | some v => exact .object updatedInput (members _ _ v.sorted)
  | skip s => exact .object reason (members _ _ (.string s))
  | abort s => exact .object reason (members _ _ (.string s))

/-- A verdict is read back from what it is written as, unless it is the rewrite
    to `null`. -/
theorem deserialize_serialize_iff (h : HookResult) :
    deserialize h.serialize = some h ↔ h ≠ rewrite .null := by
  refine (@read_eq_some .direct _ h.sorted_serialize.distinct.names h).trans ?_
  cases h with
  | «continue» input =>
    cases input with
    | none => simp [Reads, serialize, names, readField, rewrite, List.idxOf?_cons]
    | some v =>
      -- A null that is present is decoded as absent.
      by_cases hv : v.tree = .null
      · have hnull : v = .null := Value.ext hv
        subst hnull
        simp [Reads, serialize, names, readField, rewrite, readOption_eq_some, Value.null]
      · have hne : v ≠ .null := fun h => hv (h ▸ rfl)
        simp [Reads, serialize, names, readField, rewrite, readOption_of_ne_null hv, hne,
          List.idxOf?_cons, readValue, value]
  | skip reason => simp [Reads, serialize, names, rewrite, List.idxOf?_cons]
  | abort reason => simp [Reads, serialize, names, rewrite, List.idxOf?_cons]

/-- The members of a verdict are in order: it is the same value as document. -/
theorem toValue_tree (h : HookResult) : (toValue serialize h).tree = h.serialize :=
  normalize_of_sorted h.sorted_serialize

/-- A verdict is read back from the value it is written as if and only if it is not the
    rewrite to `null`. So it is by the decoder alone from the document that is written,
    apart from the depth and the numbers of texts. -/
theorem fromValue_toValue_iff (h : HookResult) :
    (fromValue deserialize (toValue serialize h) = some h ↔ h ≠ rewrite .null) ∧
      (deserialize h.serialize = some h ↔ h ≠ rewrite .null) := by
  rw [fromValue, toValue_tree]
  exact ⟨h.deserialize_serialize_iff, h.deserialize_serialize_iff⟩

/-- A rewrite to `null` is taken for no rewrite. -/
theorem fromValue_toValue_rewrite_null :
    fromValue deserialize (toValue serialize (rewrite .null)) = some cont ∧
      ¬∀ h : HookResult, fromValue deserialize (toValue serialize h) = some h := by
  have h : fromValue deserialize (toValue serialize (rewrite .null)) = some cont := by
    rw [fromValue, toValue_tree]
    rfl
  refine ⟨h, fun hall => ?_⟩
  have := h.symm.trans (hall (rewrite .null))
  simp [cont, default, rewrite] at this

end HookResult

end AgentPrimitives
