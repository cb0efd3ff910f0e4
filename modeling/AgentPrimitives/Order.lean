import AgentPrimitives.Acceptance

/-!
# Order and repetition

As the decoders conform to the schema of the wire, the order of members does not
matter to them, and they reject a document in which something they read occurs twice
(`AgentEvent.fromDocument_order`).
-/

namespace AgentPrimitives

open Serde

/-- Only payloads are taken as they are. -/
theorem layout_eq_value {k : Kind} (h : layout k = .value) : k = .payload := by
  cases k <;> first | rfl | cases h

/-- Member order does not matter, as long as the payloads repeat no name: two
    documents that differ in it are decoded to the same event, or both rejected.
    And nothing that is read occurs twice: no document is decoded in which an
    object, at any depth, has its tag or one of its fields twice. -/
theorem AgentEvent.fromDocument_order {Uuid DateTime : Type} [StringCodec Uuid]
    [StringCodec DateTime] (env : Env Uuid DateTime) (d : Json) :
    (∀ d', d.Reorder d' →
      (∀ n, Node.ReadAs layout ⟨.direct, .event, d⟩ n → n.kind = .payload → n.doc.Distinct) →
      fromDocument (deserialize env) d = fromDocument (deserialize env) d') ∧
    ∀ n, Node.ReadAs layout ⟨.direct, .event, d⟩ n → ¬n.Once layout →
      fromDocument (deserialize env) d = none := by
  have hlayout : layoutOf (schema Uuid DateTime) = layout := layoutOf_schema
  have h := conforms_read env .direct d
  refine ⟨fun d' hdd' hpayload => ?_, fun n hn htwice => ?_⟩
  · have hvalues : Node.DistinctValues layout ⟨.direct, .event, d⟩ :=
      fun n hn hk => hpayload n hn (layout_eq_value hk)
    have hread : deserialize env d = deserialize env d' := h.reorder (hlayout ▸ hvalues) hdd'
    rw [fromDocument, fromDocument, hdd'.depth_eq, hread]
  · have hread : deserialize env d = none := h.read_eq_none (hlayout ▸ hn) (hlayout ▸ htwice)
    rw [fromDocument, hread, ite_self]

/-- The environment of an example: a nil UUID and the epoch. -/
def epoch : Env (Canonical isUuid) (Canonical isTimestamp) where
  newV4 := ⟨"00000000-0000-0000-0000-000000000000", by decide⟩
  now := ⟨"1970-01-01T00:00:00Z", by decide⟩

/-- The document of a tool call with the given members, with its tag last. -/
def toolCallStartDocument (call : Members Json) : Json :=
  .object [("session_id", .string "s"), ("tool_call", .object call),
    ("event", .string "tool_call_start")]

/-- A tool call written in two orders is decoded to the same call, and one that has
    its identifier twice is not decoded. -/
theorem AgentEvent.fromDocument_order_toolCallStart :
    let call := AgentEvent.toolCallStart "s"
      ⟨"c", "n", (Json.object [("a", .null), ("b", .null)]).toValue⟩
    fromDocument (deserialize epoch) (toolCallStartDocument [("id", .string "c"),
        ("input", .object [("b", .null), ("a", .null)]), ("name", .string "n")]) = some call ∧
      fromDocument (deserialize epoch) (toolCallStartDocument [("name", .string "n"),
        ("input", .object [("a", .null), ("b", .null)]), ("id", .string "c")]) = some call ∧
      fromDocument (deserialize epoch) (toolCallStartDocument [("id", .string "c"),
        ("id", .string "c"), ("input", .null), ("name", .string "n")]) = none := by
  intro call
  have hread : fromDocument (deserialize epoch) (toolCallStartDocument [("id", .string "c"),
      ("input", .object [("b", .null), ("a", .null)]), ("name", .string "n")]) = some call := rfl
  refine ⟨hread, ((fromDocument_order epoch _).1 _ ?_ ?_).symm.trans hread,
    (fromDocument_order epoch _).2
      ⟨.buffered, .toolCall, .object [("id", .string "c"), ("id", .string "c"), ("input", .null),
        ("name", .string "n")]⟩ (.single ?_) ?_⟩
  · have hinput : Json.Reorder (.object [("b", .null), ("a", .null)])
        (.object [("a", .null), ("b", .null)]) :=
      Json.reorder_object.2 ⟨_, _, rfl, List.forall₂_same.2 fun _ _ => ⟨rfl, .refl _⟩,
        (List.reverse_perm _).symm⟩
    have hmembers : Json.ReorderMembers
        [("id", .string "c"), ("input", .object [("b", .null), ("a", .null)]),
          ("name", .string "n")]
        [("id", .string "c"), ("input", .object [("a", .null), ("b", .null)]),
          ("name", .string "n")] :=
      .cons ⟨rfl, .refl _⟩ (.cons ⟨rfl, hinput⟩ (.cons ⟨rfl, .refl _⟩ .nil))
    have hcall := Json.reorder_object.2 ⟨_, _, rfl, hmembers, (List.reverse_perm _).symm⟩
    exact .of_members (.cons ⟨rfl, .refl _⟩ (.cons ⟨rfl, hcall⟩ (.cons ⟨rfl, .refl _⟩ .nil)))
  · have hdistinct : (toolCallStartDocument [("id", .string "c"),
        ("input", .object [("b", .null), ("a", .null)]), ("name", .string "n")]).Distinct := by
      simp [toolCallStartDocument, Json.names_object, Json.Names.string, Json.Names.null]
    intro n hn hk
    exact Node.distinctValues hdistinct n hn (hk ▸ rfl)
  · exact List.mem_singleton_self _
  · intro honce
    have := honce _ rfl "id" List.mem_cons_self
    exact absurd this (by decide)

end AgentPrimitives
