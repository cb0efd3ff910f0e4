import AgentPrimitives.Serde.Document

/-!
# Hook verdicts, stop reasons and failures

The tagged enums of `hook.rs` that travel as JSON: what a hook returns to the
loop, why the loop stopped, and why a tool failed.
-/

namespace AgentPrimitives

open Serde

/-- What a hook returns to the loop. -/
inductive HookResult
  | continue (updatedInput : Option Value)
  | skip (reason : String)
  | abort (reason : String)

/-- Why the agent loop stopped. -/
inductive StopReason
  | completed
  | userCancelled
  | abortedByHook (reason : String)
  | budgetExhausted
  | error (message : String)
  deriving DecidableEq

/-- Why a tool invocation failed. -/
inductive ToolFailure
  | error (message : String)
  | cancelled
  | timeout
  deriving DecidableEq

namespace HookResult

/-- `HookResult::default`. -/
def default : HookResult := .continue none

/-- Continue without rewriting the input. -/
def cont : HookResult := default

/-- Continue with a rewritten input. -/
def rewrite (input : Value) : HookResult := .continue (some input)

/-- Encoding of a verdict: without a rewrite there is no `updated_input`. -/
def serialize : HookResult → Json
  | .continue updatedInput =>
    tagged "kind" "continue" (updatedInput.elim [] fun v => [("updated_input", v.tree)])
  | .skip reason => tagged "kind" "skip" [("reason", .string reason)]
  | .abort reason => tagged "kind" "abort" [("reason", .string reason)]

/-- The variants of `HookResult`; an `updated_input` that is missing or null is no
    rewrite. -/
def variants : List (Variant HookResult) :=
  [.struct "continue" (.default "updated_input" (readOption readValue) none .nil)
      fun (updatedInput, ()) => .continue updatedInput,
    .struct "skip" (.required "reason" readString .nil) fun (reason, ()) => .skip reason,
    .struct "abort" (.required "reason" readString .nil) fun (reason, ()) => .abort reason]

/-- Decoding of a verdict, by its `kind`. -/
def deserialize {δ : Type} [Deserializer δ] (d : δ) : Option HookResult :=
  internallyTagged "kind" variants d

end HookResult

namespace StopReason

/-- Encoding of a stop reason. -/
def serialize : StopReason → Json
  | .completed => tagged "kind" "completed" []
  | .userCancelled => tagged "kind" "user_cancelled" []
  | .abortedByHook reason => tagged "kind" "aborted_by_hook" [("reason", .string reason)]
  | .budgetExhausted => tagged "kind" "budget_exhausted" []
  | .error message => tagged "kind" "error" [("message", .string message)]

/-- The variants of `StopReason`, in the order of their indices. -/
def variants : List (Variant StopReason) :=
  [.unit "completed" .completed,
    .unit "user_cancelled" .userCancelled,
    .struct "aborted_by_hook" (.required "reason" readString .nil)
      fun (reason, ()) => .abortedByHook reason,
    .unit "budget_exhausted" .budgetExhausted,
    .struct "error" (.required "message" readString .nil) fun (message, ()) => .error message]

/-- Decoding of a stop reason, by its `kind`. -/
def deserialize {δ : Type} [Deserializer δ] (d : δ) : Option StopReason :=
  internallyTagged "kind" variants d

end StopReason

namespace ToolFailure

/-- Encoding of a failure. -/
def serialize : ToolFailure → Json
  | .error message => tagged "kind" "error" [("message", .string message)]
  | .cancelled => tagged "kind" "cancelled" []
  | .timeout => tagged "kind" "timeout" []

/-- The variants of `ToolFailure`, in the order of their indices. -/
def variants : List (Variant ToolFailure) :=
  [.struct "error" (.required "message" readString .nil) fun (message, ()) => .error message,
    .unit "cancelled" .cancelled,
    .unit "timeout" .timeout]

/-- Decoding of a failure, by its `kind`. -/
def deserialize {δ : Type} [Deserializer δ] (d : δ) : Option ToolFailure :=
  internallyTagged "kind" variants d

end ToolFailure

end AgentPrimitives
