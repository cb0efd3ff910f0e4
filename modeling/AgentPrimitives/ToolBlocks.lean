import AgentPrimitives.Embedding

/-!
# Tool calls and results as blocks

A tool call and its reply are types of their own, and also content blocks. The
block is written as the type is, with a tag (`toolUse_toValue`,
`toolResult_toValue`); it is read as the type is, up to the blocks inside a
reply, which are read directly in the one and out of the buffer in the other
(`toolBlocks_agree`).

A reply is built with at least one block, but it is read with as many as the
document has (`ToolResult.content_ne_nil_iff`).
-/

namespace AgentPrimitives

open Serde

/-- An object with one more member. -/
def insertMember (k : String) (x : Json) : Json → Json
  | .object ms => .object (Map.insert k x ms)
  | j => j

/-- The `Value` of a tagged object is that of its members, with the tag inserted. -/
theorem toValue_tagged {α : Type} {serialize : α → Json} {a : α} {tag name : String}
    {ms : Members Json} (ha : serialize a = tagged tag name ms) (h : (tag :: Map.keys ms).Nodup) :
    (toValue serialize a).tree = insertMember tag (.string name) (Json.object ms).toValue.tree := by
  rw [toValue, ha, tagged, Json.toValue_tree, Json.normalize_object, Map.mapValues_cons,
    Map.collect_cons (by simpa using h)]
  simp [insertMember]

/-- A call written as a block is the call with a tag. -/
theorem toolUse_toValue (id name : String) (input : Value) :
    (toValue ContentBlock.serialize (.toolUse id name input)).tree =
      insertMember "type" (.string "tool_use")
        (toValue ToolCall.serialize ⟨id, name, input⟩).tree :=
  toValue_tagged rfl (by simp)

/-- A reply written as a block is the reply with a tag. -/
theorem toolResult_toValue (toolUseId : String) (content : List ContentBlock) (isError : Bool) :
    (toValue ContentBlock.serialize (.toolResult toolUseId content isError)).tree =
      insertMember "type" (.string "tool_result")
        (toValue ToolResult.serialize ⟨toolUseId, content, isError⟩).tree := by
  have hserialize : ContentBlock.serialize (.toolResult toolUseId content isError) =
      tagged "type" "tool_result" ([("tool_use_id", .string toolUseId),
        ("content", .array (content.map ContentBlock.serialize))] ++
          memberUnless (ToolResult.isFalse isError) "is_error" (.bool isError)) := by
    rw [ContentBlock.serialize, ContentBlock.serializeList_eq]
    rfl
  refine toValue_tagged hserialize ?_
  cases isError <;> simp [memberUnless, ToolResult.isFalse]

section

variable {v : Value} {ms : Members Json} (hv : v.tree = .object ms)

include hv

/-- A tool call is read from an object with its tag as the block is. -/
theorem toolUse_iff (htag : ms.lookup "type" = some (.string "tool_use")) (id name : String)
    (input : Value) : fromValue ContentBlock.deserialize v = some (.toolUse id name input) ↔
      fromValue ToolCall.deserialize v = some ⟨id, name, input⟩ := by
  have hd : v.tree.DistinctNames := v.sorted.distinct.names
  have htag' : Route.direct.tagOf "type" ContentBlock.names (.object ms) = some 3 :=
    Route.tagOf_of_string .direct (j := .object ms) htag _
  refine (ContentBlock.read_eq_some (r := .direct) hd).trans
    (Iff.trans ?_ (ToolCall.read_eq_some (r := .direct) hd).symm)
  rw [ToolCall.reads_iff, ContentBlock.Reads, hv, htag']
  simp

/-- So is a reply, as long as no block in it is tagged by an integer. -/
theorem toolResult_iff (htag : ms.lookup "type" = some (.string "tool_result"))
    (toolUseId : String) (content : List ContentBlock) (isError : Bool) :
    fromValue ToolResult.deserialize v = some ⟨toolUseId, content, isError⟩ ↔
      fromValue ContentBlock.deserialize v = some (.toolResult toolUseId content isError) ∧
        PlainContent 1 v.tree := by
  have hd : v.tree.DistinctNames := v.sorted.distinct.names
  have htag' : Route.direct.tagOf "type" ContentBlock.names (.object ms) = some 4 :=
    Route.tagOf_of_string .direct (j := .object ms) htag _
  -- The blocks inside a reply are read directly, those of the block out of the buffer.
  refine (ToolResult.read_direct_iff v.sorted.distinct).trans (and_congr_left fun _ => ?_)
  refine (ToolResult.read_eq_some hd).trans
    (Iff.trans ?_ (ContentBlock.read_eq_some (r := .direct) hd).symm)
  rw [ToolResult.reads_iff, ContentBlock.Reads, hv, htag']
  simp [Json.readField]

end

/-- The two definitions of a tool call and of its reply agree: in what is
    written, up to the tag, and in what is read from an object with the tag, up
    to integer tags in the content of a reply. -/
theorem toolBlocks_agree :
    (∀ id name input, (toValue ContentBlock.serialize (.toolUse id name input)).tree =
      insertMember "type" (.string "tool_use")
        (toValue ToolCall.serialize ⟨id, name, input⟩).tree) ∧
    (∀ i content e, (toValue ContentBlock.serialize (.toolResult i content e)).tree =
      insertMember "type" (.string "tool_result")
        (toValue ToolResult.serialize ⟨i, content, e⟩).tree) ∧
    (∀ (v : Value) ms, v.tree = .object ms → ms.lookup "type" = some (.string "tool_use") →
      ∀ id name input, (fromValue ContentBlock.deserialize v = some (.toolUse id name input) ↔
        fromValue ToolCall.deserialize v = some ⟨id, name, input⟩)) ∧
    ∀ (v : Value) ms, v.tree = .object ms → ms.lookup "type" = some (.string "tool_result") →
      ∀ i content e, (fromValue ToolResult.deserialize v = some ⟨i, content, e⟩ ↔
        fromValue ContentBlock.deserialize v = some (.toolResult i content e) ∧
          PlainContent 1 v.tree) :=
  ⟨toolUse_toValue, toolResult_toValue, fun _ _ hv htag => toolUse_iff hv htag,
    fun _ _ hv htag => toolResult_iff hv htag⟩

/-- A reply with a text in it, as a block and as a type of its own. -/
theorem toolBlocks_agree_text :
    fromValue ToolResult.deserialize (toolResultValue taggedText) = some ⟨"a", [.text "x"], false⟩ ∧
      fromValue ContentBlock.deserialize (toolResultValue taggedText) =
        some (.toolResult "a" [.text "x"] false) ∧
      PlainContent 1 (toolResultValue taggedText).tree := by
  have hreply : fromValue ToolResult.deserialize (toolResultValue taggedText) =
      some ⟨"a", [.text "x"], false⟩ := rfl
  exact ⟨hreply, (toolBlocks_agree.2.2.2 _ _ rfl rfl "a" [.text "x"] false).1 hreply⟩

/-- A block with an integer tag in its content is no reply. -/
theorem not_toolBlocks_agree :
    fromValue ToolResult.deserialize (toolResultValue indexTaggedText) = none ∧
      fromValue ContentBlock.deserialize (toolResultValue indexTaggedText) =
        some (.toolResult "a" [.text "x"] false) ∧
      ¬∀ (v : Value) ms, v.tree = .object ms → ms.lookup "type" = some (.string "tool_result") →
        ∀ i content e, (fromValue ContentBlock.deserialize v = some (.toolResult i content e) ↔
          fromValue ToolResult.deserialize v = some ⟨i, content, e⟩) := by
  have hreply : fromValue ToolResult.deserialize (toolResultValue indexTaggedText) = none := rfl
  have hblock : fromValue ContentBlock.deserialize (toolResultValue indexTaggedText) =
      some (.toolResult "a" [.text "x"] false) := rfl
  refine ⟨hreply, hblock, fun h => ?_⟩
  cases hreply.symm.trans ((h _ _ rfl rfl _ _ _).1 hblock)

/-! ## Blocks in a reply -/

namespace ToolResult

/-- A reply has a block if and only if its document does. -/
theorem Reads.nonempty_iff {r : Route} {j : Json} {x : ToolResult} (h : Reads r j x) :
    x.content ≠ [] ↔ j.field? "content" 1 ≠ some (.array []) := by
  obtain ⟨xs, hxs, hcontent⟩ := h.content
  rw [hxs, ne_eq, ne_eq, not_iff_not, Option.some_inj, Json.array.injEq]
  exact ⟨fun hnil => List.forall₂_nil_right_iff.1 (hnil ▸ hcontent),
    fun hnil => List.forall₂_nil_left_iff.1 (hnil ▸ hcontent)⟩

variable {Uuid DateTime : Type} [StringCodec Uuid] [StringCodec DateTime]

/-- The replies that are built have a block. A reply that is read, alone or in
    an event, has one if and only if its document does. -/
theorem content_ne_nil_iff (env : Env Uuid DateTime) (v : Value) :
    (∀ i t, (text i t).content ≠ []) ∧ (∀ i t, (error i t).content ≠ []) ∧
    (∀ x, fromValue deserialize v = some x →
      (x.content ≠ [] ↔ v.tree.field? "content" 1 ≠ some (.array []))) ∧
    ∀ s x, fromValue (AgentEvent.deserialize env) v = some (.toolCallEnd s x) →
      (x.content ≠ [] ↔
        (v.tree.field? "tool_result" 2).bind (fun d => d.field? "content" 1) ≠
          some (.array [])) := by
  have hv : v.tree.Distinct := v.sorted.distinct
  refine ⟨fun i t => List.cons_ne_nil _ _, fun i t => List.cons_ne_nil _ _, fun x hx => ?_,
    fun s x hx => ?_⟩
  · exact ((read_eq_some (r := .direct) hv.names).1 hx).nonempty_iff
  · obtain ⟨-, -, -, d, hd, hread⟩ := (AgentEvent.read_eq_some (r := .direct) hv.names).1 hx
    rw [hd, Option.bind_some]
    exact ((read_eq_some (hv.field? hd).names).1 hread).nonempty_iff

/-- A reply without blocks. -/
def emptyReply : Value :=
  (Json.object [("tool_use_id", .string "a"), ("content", .array [])]).toValue

/-- The document of a reply without blocks is accepted. -/
theorem deserialize_emptyReply :
    fromValue deserialize emptyReply = some ⟨"a", [], false⟩ ∧
      ¬∀ (v : Value) (x : ToolResult), fromValue deserialize v = some x → x.content ≠ [] := by
  have h : fromValue deserialize emptyReply = some ⟨"a", [], false⟩ := rfl
  exact ⟨h, fun hall => hall _ _ h rfl⟩

/-- A reply with a text in it has a block. -/
theorem content_ne_nil_iff_text :
    ([.text "x"] : List ContentBlock) ≠ [] ↔
      (toolResultValue taggedText).tree.field? "content" 1 ≠ some (.array []) :=
  (content_ne_nil_iff epoch (toolResultValue taggedText)).2.2.1 ⟨"a", [.text "x"], false⟩ rfl

end ToolResult

end AgentPrimitives
