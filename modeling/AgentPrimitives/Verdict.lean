import AgentPrimitives.Policy

/-!
# Telling verdicts apart

Five types of `hook.rs`, `permission.rs` and `approval.rs` are written as an object
with a `kind`, and nothing in the document says which type it is. A document of one
of them may be handed to the decoder of another. That goes unnoticed in exactly two
cases (`Verdict.Confused`): a denial by a policy is one by a reviewer, and an error
that stopped the loop is one of a tool. In all others the document is rejected
(`Verdict.readFrom_iff`): for instance, what a hook, a policy or the loop has decided
is never taken for an approval.
-/

namespace AgentPrimitives

open Serde

/-- What a document with a `kind` may be read as. -/
inductive Verdict
  | hook (h : HookResult)
  | stop (s : StopReason)
  | failure (f : ToolFailure)
  | permission (p : Permission)
  | review (x : ReviewDecision)

namespace Verdict

/-- The verdict is read from the document by the decoder of its type. -/
def ReadFrom (d : Json) : Verdict → Prop
  | .hook h => HookResult.deserialize d = some h
  | .stop s => StopReason.deserialize d = some s
  | .failure f => ToolFailure.deserialize d = some f
  | .permission p => Permission.deserialize d = some p
  | .review x => ReviewDecision.deserialize d = some x

/-- The verdicts that are told apart by their types only. -/
inductive Confused : Verdict → Verdict → Prop
  | deny (reason : String) : Confused (.permission (.deny reason)) (.review (.deny reason))
  | error (message : String) : Confused (.stop (.error message)) (.failure (.error message))

/-! ## What is read past the tag -/

/-- The name a verdict is tagged with. -/
def kind : Verdict → String
  | .hook (.continue _) => "continue"
  | .hook (.skip _) => "skip"
  | .hook (.abort _) => "abort"
  | .stop .completed => "completed"
  | .stop .userCancelled => "user_cancelled"
  | .stop (.abortedByHook _) => "aborted_by_hook"
  | .stop .budgetExhausted => "budget_exhausted"
  | .stop (.error _) => "error"
  | .failure (.error _) => "error"
  | .failure .cancelled => "cancelled"
  | .failure .timeout => "timeout"
  | .permission .allow => "allow"
  | .permission (.deny _) => "deny"
  | .permission (.askUser _) => "ask_user"
  | .review .approve => "approve"
  | .review (.deny _) => "deny"

/-- The string that a variant with this one field reads from a document. -/
def stringOn (field : String) (d : Json) : Option String :=
  (Variant.struct field (.required field readString .nil) Prod.fst).on "kind" d

/-- A variant without fields is read from the document. -/
def UnitOn (d : Json) : Prop := (Variant.unit "" ()).on "kind" d = some ()

/-- The rewritten input that is read from a document. -/
def inputOn (d : Json) : Option (Option Value) :=
  (Variant.struct "continue" (.default "updated_input" (readOption readValue) none .nil)
    Prod.fst).on "kind" d

/-- The prompt that is read from a document. -/
def promptOn (d : Json) : Option (Option String) :=
  (Variant.structBy "ask_user" (.default "prompt" (readOption readString) none .nil)
    (.required "prompt" (readOption readString) .nil) Prod.fst).on "kind" d

/-- What a verdict is besides its tag is read from the document. -/
def Body (d : Json) : Verdict → Prop
  | .hook (.continue updatedInput) => inputOn d = some updatedInput
  | .hook (.skip reason) => stringOn "reason" d = some reason
  | .hook (.abort reason) => stringOn "reason" d = some reason
  | .stop (.abortedByHook reason) => stringOn "reason" d = some reason
  | .stop (.error message) => stringOn "message" d = some message
  | .failure (.error message) => stringOn "message" d = some message
  | .permission (.deny reason) => stringOn "reason" d = some reason
  | .permission (.askUser prompt) => promptOn d = some prompt
  | .review (.deny reason) => stringOn "reason" d = some reason
  | _ => UnitOn d

section

variable {α : Type} {d : Json}

/-- A variant with one string reads that string. -/
theorem on_string (name field : String) (make : String → α) :
    (Variant.struct name (.required field readString .nil) fun (s, ()) => make s).on "kind" d =
      (stringOn field d).map make :=
  Variant.on_struct_comp name field (.required field readString .nil) Prod.fst make "kind" d

/-- The variant that goes on reads an optional rewrite. -/
theorem on_input (make : Option Value → α) :
    (Variant.struct "continue" (.default "updated_input" (readOption readValue) none .nil)
      fun (input, ()) => make input).on "kind" d = (inputOn d).map make :=
  Variant.on_struct_comp "continue" "continue" _ Prod.fst make "kind" d

/-- The variant that asks reads an optional prompt, which an array has to hold. -/
theorem on_prompt (make : Option String → α) :
    (Variant.structBy "ask_user" (.default "prompt" (readOption readString) none .nil)
      (.required "prompt" (readOption readString) .nil) fun (prompt, ()) => make prompt).on
        "kind" d = (promptOn d).map make :=
  Variant.on_structBy_comp "ask_user" "ask_user" _ _ Prod.fst make "kind" d

/-- A variant without fields reads nothing but its tag. -/
theorem on_unit (name : String) (a : α) {b : α} :
    (Variant.unit name a).on "kind" d = some b ↔ UnitOn d ∧ a = b := by
  rw [UnitOn]
  cases d with
  | object ms => simp [Variant.on]
  | array xs => cases xs <;> simp [Variant.on, Variant.onElements_unit]
  | _ => simp [Variant.on]

end

/-- A verdict is read from a document exactly if its tag is found there, and so is
    what it is besides. -/
theorem readFrom_iff_body {d : Json} (v : Verdict) :
    v.ReadFrom d ↔ d.tagName "kind" = some v.kind ∧ v.Body d := by
  cases v with
  | hook h =>
    rw [ReadFrom, HookResult.deserialize_eq, taggedOn_direct_eq_some (by decide)]
    cases h <;> simp [HookResult.variants, Variant.name_struct, on_string, on_input, kind, Body]
  | stop s =>
    have hs : StopReason.deserialize d = _ := StopReason.read_eq .direct d
    rw [ReadFrom, hs, taggedOn_direct_eq_some (by decide)]
    cases s <;> simp [StopReason.variants, Variant.name_struct, Variant.name_unit, on_string,
      on_unit, kind, Body]
  | failure f =>
    rw [ReadFrom, ToolFailure.deserialize_eq, taggedOn_direct_eq_some (by decide)]
    cases f <;> simp [ToolFailure.variants, Variant.name_struct, Variant.name_unit, on_string,
      on_unit, kind, Body]
  | permission p =>
    rw [ReadFrom, Permission.deserialize_eq, taggedOn_direct_eq_some (by decide)]
    cases p <;> simp [Permission.variants, Variant.name_struct, Variant.name_structBy,
      Variant.name_unit, on_string, on_prompt, on_unit, kind, Body]
  | review x =>
    rw [ReadFrom, ReviewDecision.deserialize_eq, taggedOn_direct_eq_some (by decide)]
    cases x <;> simp [ReviewDecision.variants, Variant.name_struct, Variant.name_unit,
      on_string, on_unit, kind, Body]

/-! ## Which verdicts are read alike -/

/-- Of two verdicts that may be confused, one. -/
def canonical : Verdict → Verdict
  | .review (.deny reason) => .permission (.deny reason)
  | .failure (.error message) => .stop (.error message)
  | v => v

/-- What is read from a document with each tag, up to confusion. -/
def readings (d : Json) : Members (Option Verdict) :=
  [("continue", (inputOn d).map fun input => .hook (.continue input)),
    ("skip", (stringOn "reason" d).map fun reason => .hook (.skip reason)),
    ("abort", (stringOn "reason" d).map fun reason => .hook (.abort reason)),
    ("completed", some (.stop .completed)),
    ("user_cancelled", some (.stop .userCancelled)),
    ("aborted_by_hook", (stringOn "reason" d).map fun reason => .stop (.abortedByHook reason)),
    ("budget_exhausted", some (.stop .budgetExhausted)),
    ("error", (stringOn "message" d).map fun message => .stop (.error message)),
    ("cancelled", some (.failure .cancelled)),
    ("timeout", some (.failure .timeout)),
    ("allow", some (.permission .allow)),
    ("deny", (stringOn "reason" d).map fun reason => .permission (.deny reason)),
    ("ask_user", (promptOn d).map fun prompt => .permission (.askUser prompt)),
    ("approve", some (.review .approve))]

/-- A body is read under its own kind as its canonical verdict. -/
theorem lookup_readings {d : Json} {v : Verdict} (hv : v.Body d) :
    (readings d).lookup v.kind = some (some v.canonical) := by
  rcases v with h | s | f | p | x
  · cases h <;> simp_all [readings, kind, canonical, Body, Map.lookup_cons]
  · cases s <;> simp_all [readings, kind, canonical, Body, Map.lookup_cons]
  · cases f <;> simp_all [readings, kind, canonical, Body, Map.lookup_cons]
  · cases p <;> simp_all [readings, kind, canonical, Body, Map.lookup_cons]
  · cases x <;> simp_all [readings, kind, canonical, Body, Map.lookup_cons]

/-- A verdict is canonical, or confused with the canonical one. -/
theorem canonical_cases (v : Verdict) : v.canonical = v ∨ Confused v.canonical v := by
  fun_cases canonical v
  · exact .inr (.deny _)
  · exact .inr (.error _)
  · exact .inl rfl

/-- Verdicts with one canonical form are equal, or confused one way or the other. -/
theorem eq_or_confused {v w : Verdict} (h : w.canonical = v.canonical) :
    w = v ∨ Confused v w ∨ Confused w v := by
  rcases v.canonical_cases with hv | hv
  · rcases w.canonical_cases with hw | hw
    · exact .inl (hw.symm.trans (h.trans hv))
    · exact .inr (.inl (hv ▸ h ▸ hw))
  · rcases w.canonical_cases with hw | hw
    · exact .inr (.inr (hw ▸ h ▸ hv))
    · -- Both are the other verdict of the same pair.
      rw [h] at hw
      generalize v.canonical = c at hv hw
      cases hv <;> cases hw <;> exact .inl rfl

/-- No other verdict is read from the document than the one it may be confused with. -/
theorem readFrom_iff {d : Json} {v : Verdict} (hv : v.ReadFrom d) (w : Verdict) :
    w.ReadFrom d ↔ w = v ∨ Confused v w ∨ Confused w v := by
  rw [readFrom_iff_body] at hv ⊢
  obtain ⟨htag, hbody⟩ := hv
  rw [htag]
  constructor
  · rintro ⟨hkind, hbody'⟩
    have h := lookup_readings hbody
    rw [Option.some_inj.1 hkind, lookup_readings hbody'] at h
    exact eq_or_confused (Option.some_inj.1 (Option.some_inj.1 h))
  · rintro (rfl | h | h)
    · exact ⟨rfl, hbody⟩
    · cases h <;> exact ⟨rfl, hbody⟩
    · cases h <;> exact ⟨rfl, hbody⟩

/-- The document of a denial. -/
def denial : Json := .object [("kind", .string "deny"), ("reason", .string "no")]

/-- A denial by a policy is read as one by a reviewer, but not as an approval. -/
theorem readFrom_iff_denial :
    (permission (.deny "no")).ReadFrom denial ∧ (review (.deny "no")).ReadFrom denial ∧
      ¬(review .approve).ReadFrom denial := by
  have hread : (permission (.deny "no")).ReadFrom denial := rfl
  refine ⟨hread, (readFrom_iff hread _).2 (.inr (.inl (.deny "no"))), fun happrove => ?_⟩
  rcases (readFrom_iff hread _).1 happrove with h | h | h <;> cases h

end Verdict

end AgentPrimitives
