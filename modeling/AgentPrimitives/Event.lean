import AgentPrimitives.Tool
import AgentPrimitives.Hook

/-!
# Agent events

The event language of `event.rs`: what the agent loop reports while it runs,
one event a line. Decoding an event needs an `Env` for the message it may
carry, whose identifier and time have defaults.
-/

namespace AgentPrimitives

open Serde

/-- Result of a spawned subagent. -/
structure SubagentResult (Uuid DateTime : Type) where
  sessionId : String
  stopReason : StopReason
  finalMessage : Option (Message Uuid DateTime)

/-- One unit of the output of the agent loop. -/
inductive AgentEvent (Uuid DateTime : Type)
  | agentStart (sessionId : String)
  | agentStop (sessionId : String) (reason : StopReason)
  | messageStart (sessionId : String) (messageId : MessageId Uuid) (role : Role)
  | messageDelta (sessionId : String) (messageId : MessageId Uuid) (text : String)
  | messageEnd (sessionId : String) (message : Message Uuid DateTime)
  | toolCallStart (sessionId : String) (toolCall : ToolCall)
  | toolCallEnd (sessionId : String) (toolResult : ToolResult)
  | subagentResult (sessionId : String) (result : SubagentResult Uuid DateTime)
  | askUser (sessionId toolUseId prompt : String)
  | error (sessionId message : String)

variable {Uuid DateTime : Type} [StringCodec Uuid] [StringCodec DateTime]

namespace SubagentResult

/-- Encoding of a result: without a message there is no `final_message`. -/
def serialize (r : SubagentResult Uuid DateTime) : Json :=
  .object ([("session_id", .string r.sessionId), ("stop_reason", r.stopReason.serialize)] ++
    r.finalMessage.elim [] fun m => [("final_message", m.serialize)])

/-- The fields of `SubagentResult`. A final message that is missing or null is none. -/
def fields {δ : Type} [Deserializer δ] (env : Env Uuid DateTime) :
    Fields δ (String × StopReason × Option (Message Uuid DateTime) × Unit) :=
  .required "session_id" readString
    (.required "stop_reason" StopReason.deserialize
      (.default "final_message" (readOption (Message.deserialize env)) none .nil))

/-- Decoding of the result of a subagent. -/
def deserialize {δ : Type} [Deserializer δ] (env : Env Uuid DateTime) (d : δ) :
    Option (SubagentResult Uuid DateTime) :=
  (deserializeStruct (fields env) d).map
    fun (sessionId, stopReason, finalMessage, ()) => ⟨sessionId, stopReason, finalMessage⟩

end SubagentResult

namespace AgentEvent

/-- Encoding of an event, its tag first. -/
def serialize : AgentEvent Uuid DateTime → Json
  | .agentStart sessionId => tagged "event" "agent_start" [("session_id", .string sessionId)]
  | .agentStop sessionId reason =>
    tagged "event" "agent_stop" [("session_id", .string sessionId), ("reason", reason.serialize)]
  | .messageStart sessionId messageId role =>
    tagged "event" "message_start"
      [("session_id", .string sessionId), ("message_id", messageId.serialize),
        ("role", role.serialize)]
  | .messageDelta sessionId messageId text =>
    tagged "event" "message_delta"
      [("session_id", .string sessionId), ("message_id", messageId.serialize),
        ("text", .string text)]
  | .messageEnd sessionId message =>
    tagged "event" "message_end"
      [("session_id", .string sessionId), ("message", message.serialize)]
  | .toolCallStart sessionId toolCall =>
    tagged "event" "tool_call_start"
      [("session_id", .string sessionId), ("tool_call", toolCall.serialize)]
  | .toolCallEnd sessionId toolResult =>
    tagged "event" "tool_call_end"
      [("session_id", .string sessionId), ("tool_result", toolResult.serialize)]
  | .subagentResult sessionId result =>
    tagged "event" "subagent_result"
      [("session_id", .string sessionId), ("result", result.serialize)]
  | .askUser sessionId toolUseId prompt =>
    tagged "event" "ask_user"
      [("session_id", .string sessionId), ("tool_use_id", .string toolUseId),
        ("prompt", .string prompt)]
  | .error sessionId message =>
    tagged "event" "error" [("session_id", .string sessionId), ("message", .string message)]

/-- The variants of `AgentEvent`, in the order of their indices. What an event carries
    is decoded by the decoder of its type, out of the buffer. -/
def variants (env : Env Uuid DateTime) : List (Variant (AgentEvent Uuid DateTime)) :=
  [.struct "agent_start" (.required "session_id" readString .nil)
      fun (sessionId, ()) => .agentStart sessionId,
    .struct "agent_stop"
      (.required "session_id" readString (.required "reason" StopReason.deserialize .nil))
      fun (sessionId, reason, ()) => .agentStop sessionId reason,
    .struct "message_start"
      (.required "session_id" readString
        (.required "message_id" MessageId.deserialize (.required "role" Role.deserialize .nil)))
      fun (sessionId, messageId, role, ()) => .messageStart sessionId messageId role,
    .struct "message_delta"
      (.required "session_id" readString
        (.required "message_id" MessageId.deserialize (.required "text" readString .nil)))
      fun (sessionId, messageId, text, ()) => .messageDelta sessionId messageId text,
    .struct "message_end"
      (.required "session_id" readString (.required "message" (Message.deserialize env) .nil))
      fun (sessionId, message, ()) => .messageEnd sessionId message,
    .struct "tool_call_start"
      (.required "session_id" readString (.required "tool_call" ToolCall.deserialize .nil))
      fun (sessionId, toolCall, ()) => .toolCallStart sessionId toolCall,
    .struct "tool_call_end"
      (.required "session_id" readString (.required "tool_result" ToolResult.deserialize .nil))
      fun (sessionId, toolResult, ()) => .toolCallEnd sessionId toolResult,
    .struct "subagent_result"
      (.required "session_id" readString (.required "result" (SubagentResult.deserialize env) .nil))
      fun (sessionId, result, ()) => .subagentResult sessionId result,
    .struct "ask_user"
      (.required "session_id" readString
        (.required "tool_use_id" readString (.required "prompt" readString .nil)))
      fun (sessionId, toolUseId, prompt, ()) => .askUser sessionId toolUseId prompt,
    .struct "error" (.required "session_id" readString (.required "message" readString .nil))
      fun (sessionId, message, ()) => .error sessionId message]

/-- Decoding of an event, by its `event`. -/
def deserialize {δ : Type} [Deserializer δ] (env : Env Uuid DateTime) (d : δ) :
    Option (AgentEvent Uuid DateTime) := internallyTagged "event" (variants env) d

end AgentEvent

end AgentPrimitives
