import AgentPrimitives.RoundTrip

/-!
# Turns of tool use

A turn of tool use is a message of the assistant with its calls, and a message
with the replies to them. Both survive the wire, and every block in them is
written as a call, or as a reply, of its own: in order, none lost and none
twice, and no call is read as a reply or the other way round
(`Message.toolCalls_read`, `Message.toolResults_read`).
-/

namespace AgentPrimitives

open Serde

/-- A message is decoded from its encoding, in any environment. -/
theorem Message.fromValue_toValue_self {Uuid DateTime : Type} [StringCodec Uuid]
    [StringCodec DateTime] (env : Env Uuid DateTime) (m : Message Uuid DateTime) :
    fromValue (deserialize env) (toValue serialize m) = some m :=
  (fromValue_toValue_of_conforms (conforms_read env .direct _) m.distinct_serialize).trans
    (m.read_serialize env .direct)

/-! ## Blocks read as calls and as replies -/

/-- A block is decoded as a call from its `Value` as from its encoding. -/
theorem ToolCall.fromValue_toValue_block (b : ContentBlock) :
    fromValue deserialize (toValue ContentBlock.serialize b) = deserialize b.serialize :=
  fromValue_toValue_of_conforms (S := schemaOf .string .string) (conforms_read .direct _)
    b.distinct_serialize

/-- A block is decoded as a reply from its `Value` as from its encoding. -/
theorem ToolResult.fromValue_toValue_block (b : ContentBlock) :
    fromValue deserialize (toValue ContentBlock.serialize b) = deserialize b.serialize :=
  fromValue_toValue_of_conforms (S := schemaOf .string .string) (conforms_read .direct _)
    b.distinct_serialize

/-- The tag of a block is no field of a call. -/
theorem ToolCall.deserialize_toolUse (id name : String) (input : Value) :
    deserialize (ContentBlock.toolUse id name input).serialize = some ⟨id, name, input⟩ := by
  change read .direct (ContentBlock.toolUse id name input).serialize = _
  rw [read_eq_some (ContentBlock.distinct_serialize _).names, reads_iff]
  simp [ContentBlock.serialize, Map.lookup_cons]

/-- A reply lacks the identifier and the name of a call. -/
theorem ToolCall.deserialize_toolResult (toolUseId : String) (content : List ContentBlock)
    (isError : Bool) :
    deserialize (ContentBlock.toolResult toolUseId content isError).serialize = none := by
  change read .direct _ = _
  refine Option.eq_none_iff_forall_ne_some.2 fun c hc => ?_
  have h := ((read_eq_some (ContentBlock.distinct_serialize _).names).1 hc).name
  cases isError <;>
    simp [ContentBlock.serialize, ContentBlock.isFalse, memberUnless, Map.lookup_cons] at h

/-- A reply written as a block is decoded as the reply. -/
theorem ToolResult.deserialize_toolResult (toolUseId : String) (content : List ContentBlock)
    (isError : Bool) : deserialize (ContentBlock.toolResult toolUseId content isError).serialize =
      some ⟨toolUseId, content, isError⟩ := by
  change read .direct _ = _
  rw [read_eq_some (ContentBlock.distinct_serialize _).names]
  refine ⟨trivial, ?_, ⟨_, ?_, ContentBlock.forall₂_read_serialize
    fun b _ => b.read_serialize .direct⟩, readField_isError ?_⟩
  all_goals simp [ContentBlock.serialize, ContentBlock.serializeList_eq, Map.lookup_cons]
  cases isError <;> simp [memberUnless, ContentBlock.isFalse, Map.lookup_cons]

/-- A call lacks the content of a reply. -/
theorem ToolResult.deserialize_toolUse (id name : String) (input : Value) :
    deserialize (ContentBlock.toolUse id name input).serialize = none := by
  change read .direct (ContentBlock.toolUse id name input).serialize = _
  refine Option.eq_none_iff_forall_ne_some.2 fun x hx => ?_
  have h := ((read_eq_some (ContentBlock.distinct_serialize _).names).1 hx).toolUseId
  simp [ContentBlock.serialize, Map.lookup_cons] at h

/-! ## Turns -/

namespace Message

variable {Uuid DateTime : Type} [StringCodec Uuid] [StringCodec DateTime]

/-- What the blocks of a message are, each written and read by itself. -/
def blocksAs {α : Type} (read : Json → Option α) (m : Message Uuid DateTime) : Option (List α) :=
  m.content.mapM fun b => fromValue read (toValue ContentBlock.serialize b)

/-- The calls of a message are decoded from it, its blocks are written as the calls
    they are, and no block as a reply. -/
theorem toolCalls_read (env env' : Env Uuid DateTime) (calls : List ToolCall) :
    let m := toolCalls env (calls.map fun c => (c.id, c.name, c.input))
    fromValue (deserialize env') (toValue serialize m) = some m ∧
      m.blocksAs ToolCall.deserialize = some calls ∧
      ∀ b ∈ m.content,
        fromValue ToolResult.deserialize (toValue ContentBlock.serialize b) = none := by
  refine ⟨fromValue_toValue_self env' _, ?_, ?_⟩
  · rw [blocksAs, mapM_eq_some]
    refine List.forall₂_map_left_iff.2 (List.forall₂_map_left_iff.2
      (List.forall₂_same.2 fun c _ => ?_))
    rw [ToolCall.fromValue_toValue_block, ToolCall.deserialize_toolUse]
  · refine List.forall_mem_map.2 fun c _ => ?_
    rw [ToolResult.fromValue_toValue_block, ToolResult.deserialize_toolUse]

/-- The replies of a message are decoded from it, its blocks are written as the
    replies they are, and no block as a call. -/
theorem toolResults_read (env env' : Env Uuid DateTime) (results : List (String × String)) :
    let m := toolResults env results
    fromValue (deserialize env') (toValue serialize m) = some m ∧
      m.blocksAs ToolResult.deserialize =
        some (results.map fun (toolUseId, text) => ToolResult.text toolUseId text) ∧
      ∀ b ∈ m.content,
        fromValue ToolCall.deserialize (toValue ContentBlock.serialize b) = none := by
  refine ⟨fromValue_toValue_self env' _, ?_, ?_⟩
  · rw [blocksAs, mapM_eq_some]
    refine List.forall₂_map_left_iff.2 (List.forall₂_map_right_iff.2
      (List.forall₂_same.2 fun x _ => ?_))
    rw [ToolResult.fromValue_toValue_block, ToolResult.deserialize_toolResult]
    rfl
  · refine List.forall_mem_map.2 fun x _ => ?_
    rw [ToolCall.fromValue_toValue_block, ToolCall.deserialize_toolResult]

end Message

end AgentPrimitives
