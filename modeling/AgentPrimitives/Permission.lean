import AgentPrimitives.Serde.Document

/-!
# Permissions

What is decided about a tool call: what a policy decides (`permission.rs`), how
much the session is trusted, and, where the policy asks the user, what the
reviewer decides (`approval.rs`).
-/

namespace AgentPrimitives

open Serde

/-- The outcome of one permission check. -/
inductive Permission
  | allow
  | deny (reason : String)
  | askUser (prompt : Option String)
  deriving DecidableEq

/-- How far the session is trusted. -/
inductive PermissionMode
  | plan
  | acceptEdits
  | bypassPermissions
  deriving DecidableEq

/-- The final verdict of a reviewer. -/
inductive ReviewDecision
  | approve
  | deny (reason : String)
  deriving DecidableEq

namespace Permission

/-- Encoding of an outcome. A prompt that is not given is written as null. -/
def serialize : Permission → Json
  | .allow => tagged "kind" "allow" []
  | .deny reason => tagged "kind" "deny" [("reason", .string reason)]
  | .askUser prompt => tagged "kind" "ask_user" [("prompt", prompt.elim .null .string)]

/-- The variants of `Permission`. The prompt has no default: it may be missing from an
    object, as any option may, but not from an array. -/
def variants : List (Variant Permission) :=
  [.unit "allow" .allow,
    .struct "deny" (.required "reason" readString .nil) fun (reason, ()) => .deny reason,
    .structBy "ask_user" (.default "prompt" (readOption readString) none .nil)
      (.required "prompt" (readOption readString) .nil) fun (prompt, ()) => .askUser prompt]

/-- Decoding of an outcome, by its `kind`. -/
def deserialize {δ : Type} [Deserializer δ] (d : δ) : Option Permission :=
  internallyTagged "kind" variants d

end Permission

namespace PermissionMode

/-- Encoding of a mode, in snake case. -/
def serialize : PermissionMode → Json
  | .plan => .string "plan"
  | .acceptEdits => .string "accept_edits"
  | .bypassPermissions => .string "bypass_permissions"

/-- The variants of `PermissionMode`, by name. -/
def variants : Members PermissionMode :=
  [("plan", .plan), ("accept_edits", .acceptEdits), ("bypass_permissions", .bypassPermissions)]

/-- Decoding of a mode, from its name. -/
def deserialize {δ : Type} [Deserializer δ] (d : δ) : Option PermissionMode :=
  readUnitVariant variants d

end PermissionMode

namespace ReviewDecision

/-- Encoding of a verdict of a reviewer. -/
def serialize : ReviewDecision → Json
  | .approve => tagged "kind" "approve" []
  | .deny reason => tagged "kind" "deny" [("reason", .string reason)]

/-- The variants of `ReviewDecision`, in the order of their indices. -/
def variants : List (Variant ReviewDecision) :=
  [.unit "approve" .approve,
    .struct "deny" (.required "reason" readString .nil) fun (reason, ()) => .deny reason]

/-- Decoding of a verdict of a reviewer, by its `kind`. -/
def deserialize {δ : Type} [Deserializer δ] (d : δ) : Option ReviewDecision :=
  internallyTagged "kind" variants d

end ReviewDecision

end AgentPrimitives
