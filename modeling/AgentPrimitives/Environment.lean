import AgentPrimitives.RoundTrip

/-!
# What decoding takes from its environment

A document is decoded in two environments with the same outcome, up to the
members that it lacks: the identifier and the time of the message in it
(`AgentEvent.Agree`). Nothing else depends on the environment
(`AgentEvent.fromValue_env`); and once it is written, nothing does.
-/

namespace AgentPrimitives

open Serde

variable {Uuid DateTime : Type}

/-! ## Agreement -/

/-- Two messages that a document is read as: they differ only in the members it
    lacks. -/
structure Message.Agree (j : Json) (m m' : Message Uuid DateTime) : Prop where
  id : j.field? "id" 0 ≠ none → m.id = m'.id
  role : m.role = m'.role
  content : m.content = m'.content
  createdAt : j.field? "created_at" 3 ≠ none → m.createdAt = m'.createdAt

/-- Two results of a subagent that a document is read as: they differ only in the
    message. -/
inductive SubagentResult.Agree (j : Json) :
    SubagentResult Uuid DateTime → SubagentResult Uuid DateTime → Prop
  | refl (x : SubagentResult Uuid DateTime) : Agree j x x
  | finalMessage {sessionId : String} {reason : StopReason} {m m' : Message Uuid DateTime}
      {d : Json} : j.field? "final_message" 2 = some d → m.Agree d m' →
      Agree j ⟨sessionId, reason, some m⟩ ⟨sessionId, reason, some m'⟩

/-- Two events that a document is read as: they differ only in the message. -/
inductive AgentEvent.Agree (j : Json) :
    AgentEvent Uuid DateTime → AgentEvent Uuid DateTime → Prop
  | refl (e : AgentEvent Uuid DateTime) : Agree j e e
  | messageEnd {sessionId : String} {m m' : Message Uuid DateTime} {d : Json} :
      j.field? "message" 2 = some d → m.Agree d m' →
      Agree j (.messageEnd sessionId m) (.messageEnd sessionId m')
  | subagentResult {sessionId : String} {x x' : SubagentResult Uuid DateTime} {d : Json} :
      j.field? "result" 2 = some d → x.Agree d x' →
      Agree j (.subagentResult sessionId x) (.subagentResult sessionId x')

variable [StringCodec Uuid] [StringCodec DateTime] {env : Env Uuid DateTime} {r : Route} {j : Json}

/-! ## Decoding in two environments -/

/-- A message that is read in one environment is read in any other, but for an id or a
    time that is absent. -/
theorem Message.exists_agree (hj : j.DistinctNames) {m : Message Uuid DateTime}
    (h : read env r j = some m) (env' : Env Uuid DateTime) :
    ∃ m', read env' r j = some m' ∧ m.Agree j m' := by
  obtain ⟨hfits, hid, hrole, hcontent, hcreatedAt⟩ := (read_eq_some hj).1 h
  -- The defaults of the other environment stand where the document has no member.
  have hid' := Json.readField_default (MessageId.default env') hid
  have hcreatedAt' := Json.readField_default env'.now hcreatedAt
  exact ⟨⟨_, m.role, m.content, _⟩,
    (read_eq_some hj).2 ⟨hfits, hid', hrole, hcontent, hcreatedAt'⟩,
    ⟨fun hid => (if_neg hid).symm, rfl, rfl, fun hcreatedAt => (if_neg hcreatedAt).symm⟩⟩

/-- The result of a subagent depends on the environment by its last message only. -/
theorem SubagentResult.exists_agree (hj : j.Distinct) {x : SubagentResult Uuid DateTime}
    (h : read env r j = some x) (env' : Env Uuid DateTime) :
    ∃ x', read env' r j = some x' ∧ x.Agree j x' := by
  obtain ⟨hfits, hsessionId, hreason, hmessage⟩ := (read_eq_some hj.names).1 h
  obtain ⟨sessionId, reason, finalMessage⟩ := x
  have hread : ∀ m', Json.readField "final_message" 2 (readOption (Message.read env' r))
      (some none) j = some m' → read env' r j = some ⟨sessionId, reason, m'⟩ :=
    fun _ h => (read_eq_some hj.names).2 ⟨hfits, hsessionId, hreason, h⟩
  rcases Json.readField_eq_some.1 hmessage with ⟨d, hd, hmessage⟩ | ⟨hnone, hmessage⟩
  · rcases readOption_eq_some.1 hmessage with ⟨hnull, rfl⟩ | ⟨hne, m, hm, rfl⟩
    · exact ⟨_, hread _ (Json.readField_eq_some.2 (.inl ⟨d, hd, readOption_eq_some.2
        (.inl ⟨hnull, rfl⟩)⟩)), .refl _⟩
    · obtain ⟨m', hm', hagree⟩ := Message.exists_agree (hj.field? hd).names hm env'
      exact ⟨_, hread _ (Json.readField_eq_some.2 (.inl ⟨d, hd, readOption_eq_some.2
        (.inr ⟨hne, m', hm', rfl⟩)⟩)), .finalMessage hd hagree⟩
  · -- Without a message there is nothing to fill.
    cases hmessage
    exact ⟨_, hread _ (Json.readField_eq_some.2 (.inr ⟨hnone, rfl⟩)), .refl _⟩

/-- An event depends on the environment by the message it carries only. -/
theorem AgentEvent.exists_agree (hj : j.Distinct) {e : AgentEvent Uuid DateTime}
    (h : read env r j = some e) (env' : Env Uuid DateTime) :
    ∃ e', read env' r j = some e' ∧ e.Agree j e' := by
  have hreads := (read_eq_some hj.names).1 h
  cases e with
  | messageEnd sessionId message =>
    obtain ⟨htag, hfits, hsessionId, d, hd, hmessage⟩ := hreads
    obtain ⟨m', hm', hagree⟩ := Message.exists_agree (hj.field? hd).names hmessage env'
    exact ⟨.messageEnd sessionId m',
      (read_eq_some hj.names).2 ⟨htag, hfits, hsessionId, d, hd, hm'⟩, .messageEnd hd hagree⟩
  | subagentResult sessionId result =>
    obtain ⟨htag, hfits, hsessionId, d, hd, hresult⟩ := hreads
    obtain ⟨x', hx', hagree⟩ := SubagentResult.exists_agree (hj.field? hd) hresult env'
    exact ⟨.subagentResult sessionId x',
      (read_eq_some hj.names).2 ⟨htag, hfits, hsessionId, d, hd, hx'⟩, .subagentResult hd hagree⟩
  | _ =>
    -- No other event has a message in it.
    refine ⟨_, ?_, .refl _⟩
    exact (read_eq_some hj.names).2 hreads

/-- Two environments make the same of a value, up to the members it lacks; and
    what either makes of it survives being written and decoded in a third. -/
theorem AgentEvent.fromValue_env (env env' env'' : Env Uuid DateTime) (v : Value) :
    Option.Rel (Agree v.tree) (fromValue (deserialize env) v) (fromValue (deserialize env') v) ∧
      (fromValue (deserialize env) v).bind
        (fun e => fromValue (deserialize env'') (toValue serialize e)) =
          fromValue (deserialize env) v := by
  constructor
  · cases h : fromValue (deserialize env) v with
    | some e =>
      obtain ⟨e', he', heq⟩ := exists_agree (r := .direct) v.sorted.distinct h env'
      rw [show fromValue (deserialize env') v = some e' from he']
      exact .some heq
    | none =>
      cases h' : fromValue (deserialize env') v with
      | none => exact .none
      | some e' =>
        -- What is decoded in one environment is decoded in the other.
        obtain ⟨e, he, -⟩ := exists_agree (r := .direct) v.sorted.distinct h' env
        exact absurd (h.symm.trans he) (Option.some_ne_none e).symm
  · simp only [fromValue_toValue, Option.bind_fun_some]

end AgentPrimitives
