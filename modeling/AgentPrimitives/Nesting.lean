import AgentPrimitives.Lines

/-!
# What is read is written no deeper

The documents that are written for what is read from a document are nested no
deeper than it is (`T.depth_serialize_le`), and their numbers are numbers of it
(`T.numbers_serialize`). Reading may lose members and gives sorted maps, but it
adds no level: so what is read from a text at the limit can be written as a text
within it.
-/

namespace AgentPrimitives

open Serde Serde.Json

variable {r : Route} {j : Json}

/-! ## Blocks -/

theorem ImageSource.depth_serialize_le {s : ImageSource} (h : read r j = some s) :
    s.serialize.depth ≤ j.depth := by
  rw [read_eq] at h
  have hpos := depth_pos_of_taggedOn h
  cases s <;> simp [serialize, serializeBase64, serializeUrl, depth_tagged_le_iff, hpos]

theorem DocumentSource.depth_serialize_le {s : DocumentSource} (h : read r j = some s) :
    s.serialize.depth ≤ j.depth := by
  rw [read_eq] at h
  have hpos := depth_pos_of_taggedOn h
  cases s <;> simp [serialize, serializeBase64, serializeUrl, depth_tagged_le_iff, hpos]

/-- Blocks that are read from an array are written as one that is no deeper, if
    each of them is. -/
theorem depth_content_le {xs : List Json} {content : List ContentBlock}
    (hread : List.Forall₂ (fun x b => ContentBlock.read r x = some b) xs content)
    (h : ∀ x ∈ xs, ∀ b, ContentBlock.read r x = some b → b.serialize.depth ≤ x.depth) :
    (Json.array (content.map ContentBlock.serialize)).depth ≤ (Json.array xs).depth := by
  rw [depth_array_le_iff]
  refine ⟨depth_array_pos xs, List.forall_mem_map.2 fun b hb => ?_⟩
  obtain ⟨x, hx, hxb⟩ := exists_mem_of_forall₂ hread hb
  exact (h x hx b hxb).trans_lt (depth_lt_array hx)

/-- A block is written no deeper than it is read from. -/
theorem ContentBlock.depth_serialize_le {b : ContentBlock} (h : read r j = some b) :
    b.serialize.depth ≤ j.depth := by
  induction hn : j.depth using Nat.strong_induction_on generalizing r j b with
  | _ n ih =>
    subst hn
    rw [read_eq] at h
    have hpos := depth_pos_of_taggedOn h
    obtain ⟨v, hv, h⟩ := exists_variant_of_taggedOn h
    simp only [variants, List.mem_cons, List.not_mem_nil, or_false] at hv
    -- Whichever variant it is, its fields come from less deep documents.
    rcases hv with rfl | rfl | rfl | rfl | rfl | rfl
    all_goals
      obtain ⟨t, ht, rfl⟩ := from_of_struct_on (by simp [Fields.names]) (by rfl) j.depth_values h
    · simp [serialize, depth_tagged_le_iff, hpos]
    · obtain ⟨source, ⟨⟩⟩ := t
      simp only [Fields.comap, Fields.from_cons, reduceCtorEq, or_false] at ht
      obtain ⟨d, hd, hsource⟩ := ht.1
      have hle := ImageSource.depth_serialize_le (r := .buffered) hsource
      simp [serialize, depth_tagged_le_iff, hpos, hle.trans_lt hd]
    · obtain ⟨source, ⟨⟩⟩ := t
      simp only [Fields.comap, Fields.from_cons, reduceCtorEq, or_false] at ht
      obtain ⟨d, hd, hsource⟩ := ht.1
      have hle := DocumentSource.depth_serialize_le (r := .buffered) hsource
      simp [serialize, depth_tagged_le_iff, hpos, hle.trans_lt hd]
    · obtain ⟨id, name, input, ⟨⟩⟩ := t
      simp only [Fields.comap, readString_buffer, readValue_buffer, Fields.from_cons, reduceCtorEq,
        or_false, readValue_eq_some] at ht
      obtain ⟨d, hd, rfl⟩ := ht.2.2.1
      simp [serialize, depth_tagged_le_iff, hpos, d.depth_normalize_le.trans_lt hd]
    · obtain ⟨id, content, isError, ⟨⟩⟩ := t
      simp only [Fields.comap, readString_buffer, readVec_buffer, Fields.from_cons, reduceCtorEq,
        or_false, readVec_eq_some] at ht
      obtain ⟨d, hd, xs, rfl, hread⟩ := ht.2.1
      have hle := depth_content_le (r := .buffered) hread fun x hx b hb =>
        ih x.depth ((depth_lt_array hx).trans hd) hb rfl
      cases isError <;> simp [serialize, serializeList_eq, isFalse, memberUnless,
        depth_tagged_le_iff, hpos, hle.trans_lt hd]
    · obtain ⟨value, ⟨⟩⟩ := t
      simp only [Fields.comap, readValue_buffer, Fields.from_cons, reduceCtorEq, or_false,
        readValue_eq_some] at ht
      obtain ⟨d, hd, rfl⟩ := ht.1
      simp [serialize, depth_tagged_le_iff, hpos, d.depth_normalize_le.trans_lt hd]

/-! ## What events carry -/

/-- A call is written no deeper than it is read from. -/
theorem ToolCall.depth_serialize_le {c : ToolCall} (h : read r j = some c) :
    c.serialize.depth ≤ j.depth := by
  rw [read_eq, Option.map_eq_some_iff] at h
  obtain ⟨⟨id, name, input, ⟨⟩⟩, ht, rfl⟩ := h
  have hpos := depth_pos_of_structOn ht
  have hfrom := from_of_structOn (by rfl) j.depth_values ht
  simp only [fields, Fields.from_cons, reduceCtorEq, or_false, readValue_eq_some] at hfrom
  obtain ⟨d, hd, rfl⟩ := hfrom.2.2.1
  simp [serialize, depth_object_le_iff, hpos, d.depth_normalize_le.trans_lt hd]

/-- A reply is written no deeper than it is read from. -/
theorem ToolResult.depth_serialize_le {x : ToolResult} (h : read r j = some x) :
    x.serialize.depth ≤ j.depth := by
  rw [read_eq, Option.map_eq_some_iff] at h
  obtain ⟨⟨toolUseId, content, isError, ⟨⟩⟩, ht, rfl⟩ := h
  have hpos := depth_pos_of_structOn ht
  have hfrom := from_of_structOn (by rfl) j.depth_values ht
  simp only [fields, Fields.from_cons, reduceCtorEq, or_false, readVec_eq_some] at hfrom
  obtain ⟨d, hd, xs, rfl, hread⟩ := hfrom.2.1
  have hle := depth_content_le hread fun _ _ _ => ContentBlock.depth_serialize_le
  cases isError <;> simp [serialize, isFalse, memberUnless, depth_object_le_iff, hpos,
    hle.trans_lt hd]

theorem StopReason.depth_serialize (s : StopReason) : s.serialize.depth = 1 := by
  cases s <;> rfl

/-- A reason takes one level, which what it is read from takes as well. -/
theorem StopReason.depth_serialize_le {s : StopReason} (h : read r j = some s) :
    s.serialize.depth ≤ j.depth := by
  rw [read_eq] at h
  exact s.depth_serialize ▸ depth_pos_of_taggedOn h

theorem StopReason.numbers_serialize {Q : Number → Prop} (s : StopReason) :
    s.serialize.Numbers Q := by
  cases s <;> simp [serialize, numbers_tagged, numbers_string]

theorem Role.depth_serialize (role : Role) : role.serialize.depth = 0 := by
  cases role <;> rfl

theorem Role.numbers_serialize {Q : Number → Prop} (role : Role) : role.serialize.Numbers Q := by
  cases role <;> exact .string _

section

variable {Uuid DateTime : Type} [StringCodec Uuid] [StringCodec DateTime] {env : Env Uuid DateTime}
  {P : Json → Prop} {Q : Number → Prop}

/-- A message is written no deeper than it is read from: the id and the time that are
    filled in are strings. -/
theorem Message.depth_serialize_le {m : Message Uuid DateTime} (h : read env r j = some m) :
    m.serialize.depth ≤ j.depth := by
  rw [read_eq, Option.map_eq_some_iff] at h
  obtain ⟨⟨id, role, content, createdAt, ⟨⟩⟩, ht, rfl⟩ := h
  have hpos := depth_pos_of_structOn ht
  have hfrom := from_of_structOn (by rfl) j.depth_values ht
  simp only [fieldsOn, Fields.from_cons, reduceCtorEq, or_false, readVec_eq_some] at hfrom
  obtain ⟨d, hd, xs, rfl, hread⟩ := hfrom.2.2.1
  have hle := depth_content_le hread fun _ _ _ => ContentBlock.depth_serialize_le
  simp [serialize, MessageId.serialize, serializeTime, depth_object_le_iff, hpos,
    role.depth_serialize, hle.trans_lt hd]

/-- The stop reason of a subagent and its message, if it has one, are read from
    documents satisfying `P`. -/
theorem SubagentResult.from_of_read (hj : ∀ x ∈ j.values, P x) {x : SubagentResult Uuid DateTime}
    (h : read env r j = some x) :
    (∃ d, P d ∧ StopReason.read r d = some x.stopReason) ∧
      ∀ m, x.finalMessage = some m → ∃ d, P d ∧ Message.read env r d = some m := by
  rw [read_eq, Option.map_eq_some_iff] at h
  obtain ⟨⟨sessionId, stopReason, finalMessage, ⟨⟩⟩, ht, rfl⟩ := h
  have hfrom := from_of_structOn (by rfl) hj ht
  simp only [fieldsOn, Fields.from_cons, reduceCtorEq, or_false, readOption_eq_some] at hfrom
  refine ⟨hfrom.2.1, ?_⟩
  rintro m rfl
  rcases hfrom.2.2.1 with ⟨d, hd, ⟨-, h⟩ | ⟨-, m', hm', h⟩⟩ | h
  · cases h
  · cases h
    exact ⟨d, hd, hm'⟩
  · cases h

/-- The result of a subagent is written no deeper than it is read from. -/
theorem SubagentResult.depth_serialize_le {x : SubagentResult Uuid DateTime}
    (h : read env r j = some x) : x.serialize.depth ≤ j.depth := by
  obtain ⟨⟨d, hd, hreason⟩, hmessage⟩ := from_of_read j.depth_values h
  have hpos : 0 < j.depth := hd.trans_le' (Nat.zero_le _)
  have hle := (StopReason.depth_serialize_le hreason).trans_lt hd
  obtain ⟨sessionId, stopReason, finalMessage⟩ := x
  cases finalMessage with
  | none => simp [serialize, depth_object_le_iff, hpos, hle]
  | some m =>
    obtain ⟨d, hd, hm⟩ := hmessage m rfl
    have hle' := (Message.depth_serialize_le hm).trans_lt hd
    simp [serialize, depth_object_le_iff, hpos, hle, hle']

theorem SubagentResult.numbers_serialize (hj : j.Numbers Q) {x : SubagentResult Uuid DateTime}
    (h : read env r j = some x) : x.serialize.Numbers Q := by
  obtain ⟨-, hmessage⟩ := from_of_read (numbers_values hj) h
  obtain ⟨sessionId, stopReason, finalMessage⟩ := x
  cases finalMessage with
  | none => simp [serialize, numbers_object, numbers_string, stopReason.numbers_serialize]
  | some m =>
    obtain ⟨d, hd, hm⟩ := hmessage m rfl
    simp [serialize, numbers_object, numbers_string, stopReason.numbers_serialize,
      Message.numbers_serialize hd hm]

/-! ## Events -/

namespace AgentEvent

/-- What an event carries is read from documents satisfying `P`. -/
def From (P : Json → Prop) (env : Env Uuid DateTime) : AgentEvent Uuid DateTime → Prop
  | .agentStop _ reason => ∃ d, P d ∧ StopReason.read .buffered d = some reason
  | .messageEnd _ message => ∃ d, P d ∧ Message.read env .buffered d = some message
  | .toolCallStart _ toolCall => ∃ d, P d ∧ ToolCall.read .buffered d = some toolCall
  | .toolCallEnd _ toolResult => ∃ d, P d ∧ ToolResult.read .buffered d = some toolResult
  | .subagentResult _ result => ∃ d, P d ∧ SubagentResult.read env .buffered d = some result
  | _ => True

/-- What an event carries is read from what the document holds. -/
theorem from_of_read (hj : ∀ x ∈ j.values, P x) {e : AgentEvent Uuid DateTime}
    (h : read env r j = some e) : e.From P env := by
  rw [read_eq] at h
  obtain ⟨v, hv, h⟩ := exists_variant_of_taggedOn h
  simp only [variants, List.mem_cons, List.not_mem_nil, or_false] at hv
  rcases hv with rfl | rfl | rfl | rfl | rfl | rfl | rfl | rfl | rfl | rfl
  all_goals obtain ⟨t, ht, rfl⟩ := from_of_struct_on (by simp [Fields.names]) (by rfl) hj h
  · trivial
  · obtain ⟨sessionId, reason, ⟨⟩⟩ := t
    exact ht.2.1.resolve_right (by simp)
  · trivial
  · trivial
  · obtain ⟨sessionId, message, ⟨⟩⟩ := t
    exact ht.2.1.resolve_right (by simp)
  · obtain ⟨sessionId, toolCall, ⟨⟩⟩ := t
    exact ht.2.1.resolve_right (by simp)
  · obtain ⟨sessionId, toolResult, ⟨⟩⟩ := t
    exact ht.2.1.resolve_right (by simp)
  · obtain ⟨sessionId, result, ⟨⟩⟩ := t
    exact ht.2.1.resolve_right (by simp)
  · trivial
  · trivial

/-- An event is written no deeper than what it is read from. -/
theorem depth_serialize_le {e : AgentEvent Uuid DateTime} (h : read env r j = some e) :
    e.serialize.depth ≤ j.depth := by
  have hpos := depth_pos_of_taggedOn (read_eq env r j ▸ h)
  have hfrom := from_of_read j.depth_values h
  cases e with
  | agentStop sessionId reason =>
    obtain ⟨d, hd, hread⟩ := hfrom
    have hle := StopReason.depth_serialize_le hread
    simp [serialize, depth_tagged_le_iff, hpos, hle.trans_lt hd]
  | messageEnd sessionId message =>
    obtain ⟨d, hd, hread⟩ := hfrom
    have hle := Message.depth_serialize_le hread
    simp [serialize, depth_tagged_le_iff, hpos, hle.trans_lt hd]
  | toolCallStart sessionId toolCall =>
    obtain ⟨d, hd, hread⟩ := hfrom
    have hle := ToolCall.depth_serialize_le hread
    simp [serialize, depth_tagged_le_iff, hpos, hle.trans_lt hd]
  | toolCallEnd sessionId toolResult =>
    obtain ⟨d, hd, hread⟩ := hfrom
    have hle := ToolResult.depth_serialize_le hread
    simp [serialize, depth_tagged_le_iff, hpos, hle.trans_lt hd]
  | subagentResult sessionId result =>
    obtain ⟨d, hd, hread⟩ := hfrom
    have hle := SubagentResult.depth_serialize_le hread
    simp [serialize, depth_tagged_le_iff, hpos, hle.trans_lt hd]
  | _ => simp [serialize, MessageId.serialize, depth_tagged_le_iff, hpos, Role.depth_serialize]

/-- The numbers of an event are those of what it is read from. -/
theorem numbers_serialize (hj : j.Numbers Q) {e : AgentEvent Uuid DateTime}
    (h : read env r j = some e) : e.serialize.Numbers Q := by
  have hfrom := from_of_read (numbers_values hj) h
  cases e with
  | agentStop sessionId reason =>
    simp [serialize, numbers_tagged, numbers_string, reason.numbers_serialize]
  | messageEnd sessionId message =>
    obtain ⟨d, hd, hread⟩ := hfrom
    simp [serialize, numbers_tagged, numbers_string, Message.numbers_serialize hd hread]
  | toolCallStart sessionId toolCall =>
    obtain ⟨d, hd, hread⟩ := hfrom
    simp [serialize, numbers_tagged, numbers_string, ToolCall.numbers_serialize hd hread]
  | toolCallEnd sessionId toolResult =>
    obtain ⟨d, hd, hread⟩ := hfrom
    simp [serialize, numbers_tagged, numbers_string, ToolResult.numbers_serialize hd hread]
  | subagentResult sessionId result =>
    obtain ⟨d, hd, hread⟩ := hfrom
    simp [serialize, numbers_tagged, numbers_string, SubagentResult.numbers_serialize hd hread]
  | _ =>
    simp [serialize, MessageId.serialize, numbers_tagged, numbers_string, Role.numbers_serialize]

end AgentEvent

end

end AgentPrimitives
