import AgentPrimitives.RoundTrip
import AgentPrimitives.Serde.Origin
import AgentPrimitives.Serde.Text

/-!
# Lines of the event stream

What is read from a text is written again inside an event, one event a line.
A line is read back unless it is nested too deeply, and events nest what they
carry one or two levels deeper: of the tool calls, tool results and messages
that are read, those at the limit are carried by events that are not
(`AgentEvent.readBack_carried`).
-/

namespace AgentPrimitives

open Serde Serde.Json

variable {Q : Number → Prop} {r : Route} {j : Json}

/-! ## What is read has the numbers of its document -/

/-- What a document holds has no other numbers than it. -/
theorem numbers_values (hj : j.Numbers Q) : ∀ x ∈ j.values, x.Numbers Q := by
  cases hj with
  | array hxs => exact hxs
  | object hms => exact List.forall_mem_map.2 hms
  | _ => exact fun x hx => absurd hx List.not_mem_nil

theorem numbers_string (s : String) : (Json.string s).Numbers Q := .string s

theorem numbers_tagged {tag name : String} {ms : Members Json} :
    (tagged tag name ms).Numbers Q ↔ ∀ m ∈ ms, m.2.Numbers Q := by
  rw [tagged, numbers_object, List.forall_mem_cons]
  exact and_iff_right (.string name)

theorem ImageSource.numbers_serialize (s : ImageSource) : s.serialize.Numbers Q := by
  cases s <;> simp [serialize, serializeBase64, serializeUrl, numbers_tagged, numbers_string]

theorem DocumentSource.numbers_serialize (s : DocumentSource) : s.serialize.Numbers Q := by
  cases s <;> simp [serialize, serializeBase64, serializeUrl, numbers_tagged, numbers_string]

/-- The payloads of a block are read from documents satisfying `P`. -/
def ContentBlock.From (P : Json → Prop) : ContentBlock → Prop
  | .toolUse _ _ input => ∃ d, P d ∧ d.toValue = input
  | .toolResult _ content _ => ∃ xs, P (.array xs) ∧
      List.Forall₂ (fun x b => read .buffered x = some b) xs content
  | .json value => ∃ d, P d ∧ d.toValue = value
  | _ => True

/-- The payloads of a block come from what the document holds, and its blocks as well. -/
theorem ContentBlock.from_of_read {P : Json → Prop} (hj : ∀ x ∈ j.values, P x) {b : ContentBlock}
    (h : read r j = some b) : b.From P := by
  rw [read_eq] at h
  obtain ⟨v, hv, h⟩ := exists_variant_of_taggedOn h
  simp only [variants, List.mem_cons, List.not_mem_nil, or_false] at hv
  -- Whichever variant it is, its fields come from the values of the document.
  rcases hv with rfl | rfl | rfl | rfl | rfl | rfl
  all_goals obtain ⟨t, ht, rfl⟩ := from_of_struct_on (by simp [Fields.names]) (by rfl) hj h
  · trivial
  · trivial
  · trivial
  · obtain ⟨id, name, input, ⟨⟩⟩ := t
    simp only [Fields.comap, readString_buffer, readValue_buffer, Fields.from_cons, reduceCtorEq,
      or_false, readValue_eq_some] at ht
    exact ht.2.2.1
  · obtain ⟨id, content, isError, ⟨⟩⟩ := t
    simp only [Fields.comap, readString_buffer, readVec_buffer, Fields.from_cons, reduceCtorEq,
      or_false, readVec_eq_some] at ht
    obtain ⟨d, hd, xs, rfl, hread⟩ := ht.2.1
    exact ⟨xs, hd, hread⟩
  · obtain ⟨value, ⟨⟩⟩ := t
    simp only [Fields.comap, readValue_buffer, Fields.from_cons, reduceCtorEq, or_false,
      readValue_eq_some] at ht
    exact ht.1

/-- Blocks that are read from an array have its numbers, if each of them has those
    of its document. -/
theorem numbers_content {xs : List Json} (hxs : (Json.array xs).Numbers Q)
    {content : List ContentBlock}
    (hread : List.Forall₂ (fun x b => ContentBlock.read r x = some b) xs content)
    (h : ∀ b ∈ content, ∀ x : Json, x.Numbers Q → ContentBlock.read r x = some b →
      b.serialize.Numbers Q) :
    (Json.array (content.map ContentBlock.serialize)).Numbers Q := by
  refine .array (List.forall_mem_map.2 fun b hb => ?_)
  obtain ⟨x, hx, hxb⟩ := exists_mem_of_forall₂ hread hb
  exact h b hb x (numbers_array.1 hxs x hx) hxb

/-- A block is written with no other numbers than it is read from: they are all in
    payloads. -/
theorem ContentBlock.numbers_serialize {b : ContentBlock} (hj : j.Numbers Q)
    (h : read r j = some b) : b.serialize.Numbers Q := by
  induction b generalizing r j with
  | text s => simp [serialize, numbers_tagged, numbers_string]
  | image source => simp [serialize, numbers_tagged, source.numbers_serialize]
  | document source => simp [serialize, numbers_tagged, source.numbers_serialize]
  | toolUse id name input =>
    obtain ⟨d, hd, rfl⟩ := from_of_read (numbers_values hj) h
    simp [serialize, numbers_tagged, numbers_string, hd.normalize]
  | toolResult toolUseId content isError ih =>
    obtain ⟨xs, hxs, hread⟩ := from_of_read (numbers_values hj) h
    -- The blocks inside have the numbers of their own documents, by induction.
    have hcontent := numbers_content hxs hread fun b hb x hx => ih b hb hx
    cases isError <;> simp [serialize, serializeList_eq, isFalse, memberUnless, numbers_tagged,
      numbers_string, hcontent, Numbers.bool]
  | json value =>
    obtain ⟨d, hd, rfl⟩ := from_of_read (numbers_values hj) h
    simp [serialize, numbers_tagged, hd.normalize]

/-- A call is written with no other numbers than it is read from. -/
theorem ToolCall.numbers_serialize {c : ToolCall} (hj : j.Numbers Q) (h : read r j = some c) :
    c.serialize.Numbers Q := by
  rw [read_eq, Option.map_eq_some_iff] at h
  obtain ⟨⟨id, name, input, ⟨⟩⟩, ht, rfl⟩ := h
  have hfrom := from_of_structOn (by rfl) (numbers_values hj) ht
  simp only [fields, Fields.from_cons, reduceCtorEq, or_false, readValue_eq_some] at hfrom
  obtain ⟨d, hd, rfl⟩ := hfrom.2.2.1
  simp [serialize, numbers_object, numbers_string, hd.normalize]

/-- A reply is written with no other numbers than it is read from. -/
theorem ToolResult.numbers_serialize {x : ToolResult} (hj : j.Numbers Q) (h : read r j = some x) :
    x.serialize.Numbers Q := by
  rw [read_eq, Option.map_eq_some_iff] at h
  obtain ⟨⟨toolUseId, content, isError, ⟨⟩⟩, ht, rfl⟩ := h
  have hfrom := from_of_structOn (by rfl) (numbers_values hj) ht
  simp only [fields, Fields.from_cons, reduceCtorEq, or_false, readVec_eq_some] at hfrom
  obtain ⟨d, hd, xs, rfl, hread⟩ := hfrom.2.1
  have hcontent := numbers_content hd hread fun _ _ _ => ContentBlock.numbers_serialize
  cases isError <;> simp [serialize, isFalse, memberUnless, numbers_object, numbers_string,
    hcontent, Numbers.bool]

section

variable {Uuid DateTime : Type} [StringCodec Uuid] [StringCodec DateTime] {env : Env Uuid DateTime}

/-- A message is written with no other numbers than it is read from. -/
theorem Message.numbers_serialize {m : Message Uuid DateTime} (hj : j.Numbers Q)
    (h : read env r j = some m) : m.serialize.Numbers Q := by
  rw [read_eq, Option.map_eq_some_iff] at h
  obtain ⟨⟨id, role, content, createdAt, ⟨⟩⟩, ht, rfl⟩ := h
  have hfrom := from_of_structOn (by rfl) (numbers_values hj) ht
  simp only [fieldsOn, Fields.from_cons, reduceCtorEq, or_false, readVec_eq_some] at hfrom
  obtain ⟨d, hd, xs, rfl, hread⟩ := hfrom.2.2.1
  have hcontent := numbers_content hd hread fun _ _ _ => ContentBlock.numbers_serialize
  have hrole : role.serialize.Numbers Q := by cases role <;> exact .string _
  simp [serialize, MessageId.serialize, serializeTime, numbers_object, numbers_string,
    hcontent, hrole]

/-! ## Events nest what they carry -/

/-- An event takes one level more than what it carries. -/
theorem depth_tagged_payload (name sessionId key : String) (d : Json) :
    (tagged "event" name [("session_id", .string sessionId), (key, d)]).depth = d.depth + 1 := by
  simp [tagged, depth_object]

theorem Message.depth_pos (m : Message Uuid DateTime) : 0 < m.serialize.depth := by
  rw [serialize, depth_object]
  exact Nat.succ_pos _

/-- The result of a subagent takes one level more than its last message. -/
theorem SubagentResult.depth_serialize (sessionId : String) (reason : StopReason)
    (m : Message Uuid DateTime) :
    (serialize ⟨sessionId, reason, some m⟩).depth = m.serialize.depth + 1 := by
  have hreason : reason.serialize.depth = 1 := by cases reason <;> rfl
  have hm := m.depth_pos
  simp only [serialize, depth_object, Option.elim_some, List.cons_append, List.nil_append,
    List.map_cons, List.map_nil, List.foldr_cons, List.foldr_nil, depth_string, hreason]
  omega

namespace AgentEvent

/-- An event, written as a line and read back. -/
def readBack (F : TextFormat) (env : Env Uuid DateTime) (e : AgentEvent Uuid DateTime) :
    Option (AgentEvent Uuid DateTime) := F.fromStr (deserialize env) (F.toStr serialize e)

/-- An event of integers is read back unless it is nested too deeply. -/
theorem readBack_eq (F : TextFormat) (env : Env Uuid DateTime) {e : AgentEvent Uuid DateTime}
    (he : e.serialize.IntegerOnly) {n : ℕ} (hn : e.serialize.depth = n) :
    readBack F env e = if n ≤ recursionLimit then some e else none := by
  have hread : deserialize env e.serialize = some e := e.read_serialize env .direct
  rw [readBack, F.fromStr_toStr he, fromDocument, hn, hread]

/-- The event that carries what is read from a text of integers is read back from
    its line if there is a level left for it, or two for the result of a
    subagent, and rejected otherwise. -/
theorem readBack_carried (F : TextFormat) (env env' : Env Uuid DateTime) {t : String}
    (ht : F.IntegerText t) (sessionId : String) :
    (∀ c, F.fromStr ToolCall.deserialize t = some c →
      readBack F env' (.toolCallStart sessionId c) =
        if c.serialize.depth + 1 ≤ recursionLimit then some (.toolCallStart sessionId c)
        else none) ∧
    (∀ x, F.fromStr ToolResult.deserialize t = some x →
      readBack F env' (.toolCallEnd sessionId x) =
        if x.serialize.depth + 1 ≤ recursionLimit then some (.toolCallEnd sessionId x)
        else none) ∧
    ∀ m, F.fromStr (Message.deserialize env) t = some m →
      readBack F env' (.messageEnd sessionId m) =
        (if m.serialize.depth + 1 ≤ recursionLimit then some (.messageEnd sessionId m)
        else none) ∧
      ∀ id reason, readBack F env' (.subagentResult sessionId ⟨id, reason, some m⟩) =
        if m.serialize.depth + 2 ≤ recursionLimit then
          some (.subagentResult sessionId ⟨id, reason, some m⟩)
        else none := by
  refine ⟨fun c hc => ?_, fun x hx => ?_, fun m hm => ⟨?_, fun id reason => ?_⟩⟩
  · obtain ⟨j, hj, hread⟩ := F.exists_of_fromStr ht hc
    have hnumbers := ToolCall.numbers_serialize (r := .direct) hj hread
    refine readBack_eq F env' ?_ (depth_tagged_payload _ _ _ _)
    simp [serialize, numbers_tagged, numbers_string, hnumbers]
  · obtain ⟨j, hj, hread⟩ := F.exists_of_fromStr ht hx
    have hnumbers := ToolResult.numbers_serialize (r := .direct) hj hread
    refine readBack_eq F env' ?_ (depth_tagged_payload _ _ _ _)
    simp [serialize, numbers_tagged, numbers_string, hnumbers]
  · obtain ⟨j, hj, hread⟩ := F.exists_of_fromStr ht hm
    have hnumbers := Message.numbers_serialize (r := .direct) hj hread
    refine readBack_eq F env' ?_ (depth_tagged_payload _ _ _ _)
    simp [serialize, numbers_tagged, numbers_string, hnumbers]
  · obtain ⟨j, hj, hread⟩ := F.exists_of_fromStr ht hm
    have hnumbers := Message.numbers_serialize (r := .direct) hj hread
    have hreason : reason.serialize.Numbers Number.IsInteger := by
      cases reason <;> simp [StopReason.serialize, numbers_tagged, numbers_string]
    refine readBack_eq F env' ?_ ?_
    · simp [serialize, SubagentResult.serialize, numbers_tagged, numbers_object, numbers_string,
        hnumbers, hreason]
    · -- Both objects around the message add a level.
      exact (depth_tagged_payload _ _ _ _).trans
        (congrArg Nat.succ (SubagentResult.depth_serialize id reason m))

end AgentEvent

end

/-! ## A call at the limit -/

/-- Arrays nested in one another. -/
def nested : ℕ → Json
  | 0 => .null
  | n + 1 => .array [nested n]

theorem depth_nested (n : ℕ) : (nested n).depth = n := by
  induction n with
  | zero => rfl
  | succ n ih => rw [nested, depth_array, List.map_singleton, ih]; simp

theorem sorted_nested (n : ℕ) : (nested n).Sorted := by
  induction n with
  | zero => exact .null
  | succ n ih => exact .array (List.forall_mem_singleton.2 ih)

theorem integerOnly_nested (n : ℕ) : (nested n).IntegerOnly := by
  induction n with
  | zero => exact .null
  | succ n ih => exact .array (List.forall_mem_singleton.2 ih)

/-- A tool call with an input of `n` levels. -/
def nestedCall (n : ℕ) : ToolCall where
  id := "c"
  name := "t"
  input := ⟨nested n, sorted_nested n⟩

/-- A call takes one level more than its input. -/
theorem depth_nestedCall (n : ℕ) : (nestedCall n).serialize.depth = n + 1 := by
  simp [nestedCall, ToolCall.serialize, depth_object, depth_nested]

theorem integerOnly_nestedCall (n : ℕ) : (nestedCall n).serialize.IntegerOnly := by
  simp [nestedCall, ToolCall.serialize, numbers_object, numbers_string, integerOnly_nested]

/-- The text of a call whose input leaves a level for it is read as the call. -/
theorem fromStr_nestedCall (F : TextFormat) {n : ℕ} (hn : n < recursionLimit) :
    F.fromStr ToolCall.deserialize (F.toStr ToolCall.serialize (nestedCall n)) =
      some (nestedCall n) := by
  have hread : ToolCall.deserialize (nestedCall n).serialize = some (nestedCall n) :=
    (nestedCall n).read_serialize .direct
  rw [F.fromStr_toStr (integerOnly_nestedCall n), fromDocument, depth_nestedCall,
    if_pos (Nat.succ_le_of_lt hn), hread]

theorem integerText_nestedCall (F : TextFormat) (n : ℕ) :
    F.IntegerText (F.toStr ToolCall.serialize (nestedCall n)) := by
  intro j hj
  rw [TextFormat.toStr, F.parse_print _ (integerOnly_nestedCall n)] at hj
  split_ifs at hj
  exact Option.some_inj.1 hj ▸ integerOnly_nestedCall n

namespace AgentEvent

/-- A call with an input of a single level is read back. -/
theorem readBack_carried_nestedCall :
    readBack (compact fun _ => []) epoch (.toolCallStart "s" (nestedCall 1)) =
      some (.toolCallStart "s" (nestedCall 1)) :=
  have h := readBack_carried (compact fun _ => []) epoch epoch (integerText_nestedCall _ 1) "s"
  h.1 (nestedCall 1) (fromStr_nestedCall _ (by decide))

/-- A call at the limit is read, but what carries it is not. -/
theorem not_readBack_carried :
    (compact fun _ => []).fromStr ToolCall.deserialize
        ((compact fun _ => []).toStr ToolCall.serialize (nestedCall 126)) = some (nestedCall 126) ∧
      readBack (compact fun _ => []) epoch (.toolCallStart "s" (nestedCall 126)) = none ∧
      ¬∀ (F : TextFormat) (t : String) (c : ToolCall), F.IntegerText t →
        F.fromStr ToolCall.deserialize t = some c →
          readBack F epoch (.toolCallStart "s" c) = some (.toolCallStart "s" c) := by
  have hread := fromStr_nestedCall (compact fun _ => []) (show 126 < recursionLimit by decide)
  have hnone :
      readBack (compact fun _ => []) epoch (.toolCallStart "s" (nestedCall 126)) = none := by
    refine (readBack_eq (e := .toolCallStart "s" (nestedCall 126)) _ epoch ?_
      (depth_tagged_payload _ _ _ _)).trans (if_neg ?_)
    · simp [serialize, numbers_tagged, numbers_string, integerOnly_nestedCall]
    · rw [depth_nestedCall]
      decide
  refine ⟨hread, hnone, fun h => ?_⟩
  have := h _ _ _ (integerText_nestedCall _ 126) hread
  exact absurd (this.symm.trans hnone) (Option.some_ne_none _)

end AgentEvent

end AgentPrimitives
