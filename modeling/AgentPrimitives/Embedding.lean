import AgentPrimitives.RoundTrip

/-!
# Documents alone and embedded

A document is read directly when it stands alone, and out of the buffer of the
enum it is embedded in otherwise. The buffer takes more: an unsigned integer for
a tag, as the index of a variant, and an empty map for the unit, as in a role
that is an object. A document that is read alone is read embedded, as the same;
conversely one that is read embedded is, if it is *plain*, in that what would be
read directly in it has neither form (`T.read_direct_iff`).

So a document means the same alone and embedded, as long as it is plain
(`alone_iff_embedded`). The same holds of the two definitions of a tool call and
of its reply, as types of their own and as blocks (`toolBlocks_agree`).
-/

namespace AgentPrimitives

open Serde

/-! ## Plain documents -/

/-- The tag of a document is an unsigned integer. -/
def IndexTagged (tag : String) (j : Json) : Prop :=
  ∃ n : UInt64, j.field? tag 0 = some (.number (.posInt n))

/-- No element of the content of a document is tagged by an integer. -/
def PlainContent (i : ℕ) (j : Json) : Prop :=
  ∀ xs, j.field? "content" i = some (.array xs) → ∀ x ∈ xs, ¬IndexTagged "type" x

/-- The role of a message is no object with an empty map. -/
def PlainRole (j : Json) : Prop :=
  ∀ name, j.field? "role" 1 ≠ some (.object [(name, .object [])])

variable {j : Json}

/-- Straight from the document, a tag is one of the buffered ones that is not an index. -/
theorem tagOf_direct_iff {tag : String} {names : List String} (hnames : names.Nodup) {i : ℕ} :
    Route.direct.tagOf tag names j = some i ↔
      Route.buffered.tagOf tag names j = some i ∧ ¬IndexTagged tag j := by
  rw [Route.tagOf_eq_some hnames, Route.tagOf_eq_some hnames]
  constructor
  · rintro ⟨name, hname, h | ⟨h, -⟩⟩
    · refine ⟨⟨name, hname, .inl h⟩, fun ⟨n, hn⟩ => ?_⟩
      cases h.symm.trans hn
    · cases h
  · -- Out of the buffer the tag may also be an integer, which is excluded.
    rintro ⟨⟨name, hname, h | ⟨-, n, hn, -⟩⟩, hindex⟩
    · exact ⟨name, hname, .inl h⟩
    · exact absurd ⟨n, hn⟩ hindex

/-- A block alone is a block that is buffered, unless it is tagged by index. -/
theorem ContentBlock.read_direct_iff (hj : j.DistinctNames) {b : ContentBlock} :
    read .direct j = some b ↔ read .buffered j = some b ∧ ¬IndexTagged "type" j := by
  rw [read_eq_some hj, read_eq_some hj]
  have hnames : names.Nodup := by decide
  cases b <;> simp only [Reads, tagOf_direct_iff hnames] <;> tauto

/-- A reason alone is a reason that is buffered, unless it is tagged by index. -/
theorem StopReason.read_direct_iff (hj : j.DistinctNames) {s : StopReason} :
    read .direct j = some s ↔ read .buffered j = some s ∧ ¬IndexTagged "kind" j := by
  rw [read_eq_some hj, read_eq_some hj]
  have hnames : names.Nodup := by decide
  cases s <;> simp only [Reads, tagOf_direct_iff hnames] <;> tauto

/-- A call reads alike alone and in an event. -/
theorem ToolCall.read_direct (j : Json) : read .direct j = read .buffered j := by
  rw [read_eq, read_eq]

/-- Blocks are read alike, element by element. -/
theorem ContentBlock.forall₂_read_direct_iff {xs : List Json} (hxs : ∀ x ∈ xs, x.Distinct)
    {bs : List ContentBlock} :
    List.Forall₂ (fun x b => read .direct x = some b) xs bs ↔
      List.Forall₂ (fun x b => read .buffered x = some b) xs bs ∧
        ∀ x ∈ xs, ¬IndexTagged "type" x := by
  induction xs generalizing bs with
  | nil => simp
  | cons x xs ih =>
    rw [List.forall_mem_cons] at hxs
    cases bs with
    | nil => simp
    | cons b bs =>
      rw [List.forall₂_cons, List.forall₂_cons, ih hxs.2, read_direct_iff hxs.1.names,
        List.forall_mem_cons]
      tauto

/-- Blocks alone are blocks that are buffered, unless one is tagged by index. -/
theorem content_direct_iff (hj : j.Distinct) {i : ℕ} {bs : List ContentBlock} :
    (∃ xs, j.field? "content" i = some (.array xs) ∧
        List.Forall₂ (fun x b => ContentBlock.read .direct x = some b) xs bs) ↔
      (∃ xs, j.field? "content" i = some (.array xs) ∧
        List.Forall₂ (fun x b => ContentBlock.read .buffered x = some b) xs bs) ∧
      PlainContent i j := by
  have helements : ∀ xs, j.field? "content" i = some (.array xs) → ∀ x ∈ xs, x.Distinct :=
    fun xs hxs => Json.names_array.1 (hj.field? hxs)
  constructor
  · rintro ⟨xs, hxs, hbs⟩
    rw [ContentBlock.forall₂_read_direct_iff (helements xs hxs)] at hbs
    refine ⟨⟨xs, hxs, hbs.1⟩, fun ys hys => ?_⟩
    cases hxs.symm.trans hys
    exact hbs.2
  · rintro ⟨⟨xs, hxs, hbs⟩, hplain⟩
    exact ⟨xs, hxs, (ContentBlock.forall₂_read_direct_iff (helements xs hxs)).2
      ⟨hbs, hplain xs hxs⟩⟩

/-- A reply alone is a reply that is buffered, unless one of its blocks is tagged by
    index. -/
theorem ToolResult.read_direct_iff (hj : j.Distinct) {x : ToolResult} :
    read .direct j = some x ↔ read .buffered j = some x ∧ PlainContent 1 j := by
  rw [read_eq_some hj.names, read_eq_some hj.names, reads_iff, reads_iff, content_direct_iff hj]
  tauto

/-- A role alone is a role that is buffered, unless it is an object with an empty one in
    it. -/
theorem Role.read_direct_iff {role : Role} : read .direct j = some role ↔
    read .buffered j = some role ∧ ∀ name, j ≠ .object [(name, .object [])] := by
  rw [read_eq_some, read_eq_some]
  constructor
  · rintro ⟨name, hname, rfl | ⟨d, rfl, hd⟩⟩
    · exact ⟨⟨name, hname, .inl rfl⟩, by simp⟩
    · rcases Route.unit_eq_some.1 hd with rfl | ⟨h, -⟩
      · exact ⟨⟨name, hname, .inr ⟨_, rfl, rfl⟩⟩, by simp⟩
      · cases h
  · rintro ⟨⟨name, hname, rfl | ⟨d, rfl, hd⟩⟩, hplain⟩
    · exact ⟨name, hname, .inl rfl⟩
    · -- Of the units, the empty map is only one out of the buffer.
      rcases Route.unit_eq_some.1 hd with rfl | ⟨-, rfl⟩
      · exact ⟨name, hname, .inr ⟨_, rfl, rfl⟩⟩
      · exact absurd rfl (hplain name)

section

variable {Uuid DateTime : Type} [StringCodec Uuid] [StringCodec DateTime]

/-- A message alone is a message that is buffered, with a plain role and plain blocks. -/
theorem Message.read_direct_iff {env : Env Uuid DateTime} (hj : j.Distinct)
    {m : Message Uuid DateTime} : read env .direct j = some m ↔
      read env .buffered j = some m ∧ PlainContent 2 j ∧ PlainRole j := by
  have hrole : (∃ d, j.field? "role" 1 = some d ∧ Role.read .direct d = some m.role) ↔
      (∃ d, j.field? "role" 1 = some d ∧ Role.read .buffered d = some m.role) ∧ PlainRole j := by
    simp only [Role.read_direct_iff]
    constructor
    · rintro ⟨d, hd, hread, hplain⟩
      exact ⟨⟨d, hd, hread⟩, fun name h => hplain name (Option.some_inj.1 (hd.symm.trans h))⟩
    · rintro ⟨⟨d, hd, hread⟩, hplain⟩
      exact ⟨d, hd, hread, fun name h => hplain name (h ▸ hd)⟩
  rw [read_eq_some hj.names, read_eq_some hj.names, reads_iff, reads_iff, content_direct_iff hj,
    hrole]
  tauto

/-! ## Positions -/

/-- The document `v` of a tool result block, with `w` among its elements, after
    the documents of the blocks `bs` and before those of `cs`. -/
structure ToolResultAround (toolUseId : String) (bs cs : List ContentBlock) (isError : Bool)
    (w v : Json) : Prop where
  tag : v.field? "type" 0 = some (.string "tool_result")
  fits : v.Fits 4
  toolUseId : v.field? "tool_use_id" 1 = some (.string toolUseId)
  content : ∃ xs ys, v.field? "content" 2 = some (.array (xs ++ w :: ys)) ∧
    List.Forall₂ (fun x b => ContentBlock.read .buffered x = some b) xs bs ∧
    List.Forall₂ (fun y c => ContentBlock.read .buffered y = some c) ys cs
  isError : v.readField "is_error" 3 readBool (some false) = some isError

/-- The document `v` of an event of a session with one more field, `w`. -/
structure EventAround (variant field sessionId : String) (w v : Json) : Prop where
  tag : v.field? "event" 0 = some (.string variant)
  fits : v.Fits 3
  sessionId : v.field? "session_id" 1 = some (.string sessionId)
  field : v.field? field 2 = some w

/-- The document `v` of the result of a subagent that stopped for the reason `w`. -/
structure SubagentAroundReason (env : Env Uuid DateTime) (r : Route) (sessionId : String)
    (finalMessage : Option (Message Uuid DateTime)) (w v : Json) : Prop where
  fits : v.Fits 3
  sessionId : v.field? "session_id" 0 = some (.string sessionId)
  stopReason : v.field? "stop_reason" 1 = some w
  finalMessage : v.readField "final_message" 2 (readOption (Message.read env r)) (some none) =
    some finalMessage

/-- The document `v` of the result of a subagent whose final message is `w`. -/
structure SubagentAroundMessage (r : Route) (sessionId : String) (stopReason : StopReason)
    (w v : Json) : Prop where
  fits : v.Fits 3
  sessionId : v.field? "session_id" 0 = some (.string sessionId)
  stopReason : ∃ d, v.field? "stop_reason" 1 = some d ∧ StopReason.read r d = some stopReason
  finalMessage : v.field? "final_message" 2 = some w
  present : w ≠ .null

variable {env : Env Uuid DateTime} {r : Route} {w v : Json} (hv : v.DistinctNames)

include hv

omit [StringCodec Uuid] [StringCodec DateTime] in
/-- A reply around a block is read with the block as buffered. -/
theorem ToolResultAround.read_iff {toolUseId : String} {bs cs : List ContentBlock} {isError : Bool}
    (h : ToolResultAround toolUseId bs cs isError w v) {b : ContentBlock} :
    ContentBlock.read r v = some (.toolResult toolUseId (bs ++ b :: cs) isError) ↔
      ContentBlock.read .buffered w = some b := by
  obtain ⟨xs, ys, hxs, hbs, hcs⟩ := h.content
  have htag : r.tagOf "type" ContentBlock.names v = some 4 := r.tagOf_of_string h.tag _
  rw [ContentBlock.read_eq_some hv]
  constructor
  · rintro ⟨-, -, -, ⟨zs, hzs, hread⟩, -⟩
    cases hxs.symm.trans hzs
    -- Past the blocks that come before, the next is read from `w`.
    have hdrop := List.forall₂_drop xs.length hread
    rw [List.drop_left, hbs.length_eq, List.drop_left] at hdrop
    exact (List.forall₂_cons.1 hdrop).1
  · intro hw
    exact ⟨htag, h.fits, h.toolUseId, ⟨_, hxs, List.rel_append hbs (.cons hw hcs)⟩, h.isError⟩

/-- An event around a reason is read with the reason as buffered. -/
theorem EventAround.read_agentStop {s : String} (h : EventAround "agent_stop" "reason" s w v)
    {reason : StopReason} : AgentEvent.read env r v = some (.agentStop s reason) ↔
      StopReason.read .buffered w = some reason := by
  have htag : r.tagOf "event" AgentEvent.names v = some 1 := r.tagOf_of_string h.tag _
  rw [AgentEvent.read_eq_some hv]
  simp [AgentEvent.Reads, htag, h.fits, h.sessionId, h.field]

/-- An event around a message is read with the message as buffered. -/
theorem EventAround.read_messageEnd {s : String} (h : EventAround "message_end" "message" s w v)
    {m : Message Uuid DateTime} : AgentEvent.read env r v = some (.messageEnd s m) ↔
      Message.read env .buffered w = some m := by
  have htag : r.tagOf "event" AgentEvent.names v = some 4 := r.tagOf_of_string h.tag _
  rw [AgentEvent.read_eq_some hv]
  simp [AgentEvent.Reads, htag, h.fits, h.sessionId, h.field]

/-- An event around a call is read with the call as buffered. -/
theorem EventAround.read_toolCallStart {s : String}
    (h : EventAround "tool_call_start" "tool_call" s w v) {c : ToolCall} :
    AgentEvent.read env r v = some (.toolCallStart s c) ↔ ToolCall.read .buffered w = some c := by
  have htag : r.tagOf "event" AgentEvent.names v = some 5 := r.tagOf_of_string h.tag _
  rw [AgentEvent.read_eq_some hv]
  simp [AgentEvent.Reads, htag, h.fits, h.sessionId, h.field]

/-- An event around a reply is read with the reply as buffered. -/
theorem EventAround.read_toolCallEnd {s : String}
    (h : EventAround "tool_call_end" "tool_result" s w v) {x : ToolResult} :
    AgentEvent.read env r v = some (.toolCallEnd s x) ↔ ToolResult.read .buffered w = some x := by
  have htag : r.tagOf "event" AgentEvent.names v = some 6 := r.tagOf_of_string h.tag _
  rw [AgentEvent.read_eq_some hv]
  simp [AgentEvent.Reads, htag, h.fits, h.sessionId, h.field]

/-- An event around the result of a subagent is read with the result as buffered. -/
theorem EventAround.read_subagentResult {s : String}
    (h : EventAround "subagent_result" "result" s w v) {x : SubagentResult Uuid DateTime} :
    AgentEvent.read env r v = some (.subagentResult s x) ↔
      SubagentResult.read env .buffered w = some x := by
  have htag : r.tagOf "event" AgentEvent.names v = some 7 := r.tagOf_of_string h.tag _
  rw [AgentEvent.read_eq_some hv]
  simp [AgentEvent.Reads, htag, h.fits, h.sessionId, h.field]

/-- The result of a subagent reads its reason on its own route. -/
theorem SubagentAroundReason.read_iff {s : String} {m : Option (Message Uuid DateTime)}
    (h : SubagentAroundReason env r s m w v) {reason : StopReason} :
    SubagentResult.read env r v = some ⟨s, reason, m⟩ ↔ StopReason.read r w = some reason := by
  rw [SubagentResult.read_eq_some hv, SubagentResult.reads_iff]
  simp [h.fits, h.sessionId, h.stopReason, h.finalMessage]

/-- The result of a subagent reads its last message on its own route. -/
theorem SubagentAroundMessage.read_iff {s : String} {reason : StopReason}
    (h : SubagentAroundMessage r s reason w v) {m : Message Uuid DateTime} :
    SubagentResult.read env r v = some ⟨s, reason, some m⟩ ↔ Message.read env r w = some m := by
  rw [SubagentResult.read_eq_some hv, SubagentResult.reads_iff]
  simp [h.fits, h.sessionId, h.stopReason, Json.readField, h.finalMessage,
    readOption_of_ne_null h.present]

omit hv

/-- A document means the same alone and embedded, as long as it is plain: at
    every position, it is read alone as what it is read as embedded, if no tag
    that would be read directly is an integer, and its role is no object with an
    empty map. Tool calls always are plain, and what is in the result of a
    subagent that stands alone is read directly as well. -/
theorem alone_iff_embedded (env : Env Uuid DateTime) (w u v : Value) :
    (∀ i bs cs e, ToolResultAround i bs cs e w.tree v.tree → ∀ b,
      (fromValue ContentBlock.deserialize w = some b ↔
        fromValue ContentBlock.deserialize v = some (.toolResult i (bs ++ b :: cs) e) ∧
          ¬IndexTagged "type" w.tree)) ∧
    (∀ s, EventAround "tool_call_start" "tool_call" s w.tree v.tree → ∀ c,
      (fromValue ToolCall.deserialize w = some c ↔
        fromValue (AgentEvent.deserialize env) v = some (.toolCallStart s c))) ∧
    (∀ s, EventAround "tool_call_end" "tool_result" s w.tree v.tree → ∀ x,
      (fromValue ToolResult.deserialize w = some x ↔
        fromValue (AgentEvent.deserialize env) v = some (.toolCallEnd s x) ∧
          PlainContent 1 w.tree)) ∧
    (∀ s, EventAround "message_end" "message" s w.tree v.tree → ∀ m,
      (fromValue (Message.deserialize env) w = some m ↔
        fromValue (AgentEvent.deserialize env) v = some (.messageEnd s m) ∧
          PlainContent 2 w.tree ∧ PlainRole w.tree)) ∧
    (∀ s, EventAround "agent_stop" "reason" s w.tree v.tree → ∀ reason,
      (fromValue StopReason.deserialize w = some reason ↔
        fromValue (AgentEvent.deserialize env) v = some (.agentStop s reason) ∧
          ¬IndexTagged "kind" w.tree)) ∧
    (∀ s, EventAround "subagent_result" "result" s u.tree v.tree →
      (∀ s' m, SubagentAroundReason env .buffered s' m w.tree u.tree → ∀ reason,
        (fromValue StopReason.deserialize w = some reason ↔
          fromValue (AgentEvent.deserialize env) v = some (.subagentResult s ⟨s', reason, m⟩) ∧
            ¬IndexTagged "kind" w.tree)) ∧
      ∀ s' reason, SubagentAroundMessage .buffered s' reason w.tree u.tree → ∀ m,
        (fromValue (Message.deserialize env) w = some m ↔
          fromValue (AgentEvent.deserialize env) v = some (.subagentResult s ⟨s', reason, some m⟩) ∧
            PlainContent 2 w.tree ∧ PlainRole w.tree)) ∧
    (∀ s m, SubagentAroundReason env .direct s m w.tree u.tree → ∀ reason,
      (fromValue StopReason.deserialize w = some reason ↔
        fromValue (SubagentResult.deserialize env) u = some ⟨s, reason, m⟩)) ∧
    ∀ s reason, SubagentAroundMessage .direct s reason w.tree u.tree → ∀ m,
      (fromValue (Message.deserialize env) w = some m ↔
        fromValue (SubagentResult.deserialize env) u = some ⟨s, reason, some m⟩) := by
  have hw : w.tree.Distinct := w.sorted.distinct
  have hu : u.tree.DistinctNames := u.sorted.distinct.names
  have hv : v.tree.DistinctNames := v.sorted.distinct.names
  refine ⟨fun i bs cs e h b => ?block, fun s h c => ?toolCall, fun s h x => ?toolResult,
    fun s h m => ?message, fun s h reason => ?stopReason, fun s h => ⟨fun s' m h' reason => ?_,
      fun s' reason h' m => ?_⟩, fun s m h reason => (h.read_iff hu).symm,
    fun s reason h m => (h.read_iff hu).symm⟩
  case block =>
    exact (ContentBlock.read_direct_iff hw.names).trans
      (and_congr_left fun _ => (h.read_iff (r := .direct) hv).symm)
  case toolCall =>
    refine Iff.trans ?_ (h.read_toolCallStart (r := .direct) hv).symm
    rw [← ToolCall.read_direct]
    exact Iff.rfl
  case toolResult =>
    exact (ToolResult.read_direct_iff hw).trans
      (and_congr_left fun _ => (h.read_toolCallEnd (r := .direct) hv).symm)
  case message =>
    exact (Message.read_direct_iff hw).trans
      (and_congr_left fun _ => (h.read_messageEnd (r := .direct) hv).symm)
  case stopReason =>
    exact (StopReason.read_direct_iff hw.names).trans
      (and_congr_left fun _ => (h.read_agentStop (r := .direct) hv).symm)
  · exact (StopReason.read_direct_iff hw.names).trans (and_congr_left fun _ =>
      ((h.read_subagentResult (r := .direct) hv).trans (h'.read_iff hu)).symm)
  · exact (Message.read_direct_iff hw).trans (and_congr_left fun _ =>
      ((h.read_subagentResult (r := .direct) hv).trans (h'.read_iff hu)).symm)

end

/-- A tool result block with a single element in its content. -/
def toolResultValue (w : Value) : Value where
  tree := .object [("content", .array [w.tree]), ("tool_use_id", .string "a"),
    ("type", .string "tool_result")]
  sorted := .object (show ["content", "tool_use_id", "type"].Pairwise (· < ·) by decide)
    (List.forall_mem_cons.2 ⟨.array (List.forall_mem_singleton.2 w.sorted),
      List.forall_mem_cons.2 ⟨.string _, List.forall_mem_singleton.2 (.string _)⟩⟩)

/-- A text block whose tag is the index of its variant. -/
def indexTaggedText : Value :=
  (Json.object [("type", .number (.posInt 0)), ("text", .string "x")]).toValue

/-- A text block. -/
def taggedText : Value :=
  (Json.object [("type", .string "text"), ("text", .string "x")]).toValue

theorem toolResultAround_toolResultValue (w : Value) :
    ToolResultAround "a" [] [] false w.tree (toolResultValue w).tree :=
  ⟨rfl, trivial, rfl, ⟨[], [], rfl, .nil, .nil⟩, rfl⟩

/-- A block with an integer tag is read as an element of a tool result, but not
    alone. -/
theorem not_alone_iff_embedded :
    fromValue ContentBlock.deserialize indexTaggedText = none ∧
      fromValue ContentBlock.deserialize (toolResultValue indexTaggedText) =
        some (.toolResult "a" [.text "x"] false) ∧
      ¬∀ (w v : Value) (i : String) (bs cs : List ContentBlock) (e : Bool),
        ToolResultAround i bs cs e w.tree v.tree → ∀ b,
          (fromValue ContentBlock.deserialize w = some b ↔
            fromValue ContentBlock.deserialize v = some (.toolResult i (bs ++ b :: cs) e)) := by
  have halone : fromValue ContentBlock.deserialize indexTaggedText = none := rfl
  have hembedded : fromValue ContentBlock.deserialize (toolResultValue indexTaggedText) =
      some (.toolResult "a" [.text "x"] false) := rfl
  refine ⟨halone, hembedded, fun h => ?_⟩
  have haround := toolResultAround_toolResultValue indexTaggedText
  cases halone.symm.trans ((h _ _ _ [] [] _ haround (.text "x")).2 hembedded)

/-- A text block in a tool result is read as it is read alone. -/
theorem alone_iff_embedded_text :
    fromValue ContentBlock.deserialize taggedText = some (.text "x") ∧
      fromValue ContentBlock.deserialize (toolResultValue taggedText) =
        some (.toolResult "a" [.text "x"] false) ∧ ¬IndexTagged "type" taggedText.tree := by
  have halone : fromValue ContentBlock.deserialize taggedText = some (.text "x") := rfl
  have haround := toolResultAround_toolResultValue taggedText
  exact ⟨halone, ((alone_iff_embedded epoch taggedText taggedText
    (toolResultValue taggedText)).1 "a" [] [] false haround (.text "x")).1 halone⟩

end AgentPrimitives
