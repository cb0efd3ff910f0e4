import AgentPrimitives.Lines
import AgentPrimitives.Permission
import AgentPrimitives.Memory

/-!
# The documents of policies

Besides events and messages, what is written as JSON is what hooks, policies and
reviewers decide, why a tool failed, and what tools and harnesses declare. The
types are those of `PolicyKind`; `policySchema` is what is demanded of a document
of each, and their decoders conform to it (`PolicyKind.conforms_deserialize`). So
what holds of the decoders of events holds of them: order and unknown members do
not matter, and what is accepted can be checked without decoding it
(`PolicyKind.isSome_eq_accepts`, `PolicyKind.deserialize_robust`).

What is written is read back (`PolicyKind.readBack_iff`), except for the verdict of a
hook that rewrites the input to null, and, from a text, for payloads that are too deep.
-/

namespace AgentPrimitives

open Serde

/-- The kinds of documents of policies. -/
inductive PolicyKind
  | hookResult
  | toolFailure
  | permission
  | permissionMode
  | reviewDecision
  | toolSchema
  | toolAnnotations
  | memoryKind
  | memoryKey
  | memorySchema
  | payload

namespace PolicyKind

/-- What a document of a kind is decoded to. -/
def Decoded : PolicyKind → Type
  | .hookResult => HookResult
  | .toolFailure => ToolFailure
  | .permission => Permission
  | .permissionMode => PermissionMode
  | .reviewDecision => ReviewDecision
  | .toolSchema => ToolSchema
  | .toolAnnotations => ToolAnnotations
  | .memoryKind => MemoryKind
  | .memoryKey => MemoryKey
  | .memorySchema => MemorySchema
  | .payload => Value

/-- The encoder of each type. -/
def serialize : (k : PolicyKind) → k.Decoded → Json
  | .hookResult => HookResult.serialize
  | .toolFailure => ToolFailure.serialize
  | .permission => Permission.serialize
  | .permissionMode => PermissionMode.serialize
  | .reviewDecision => ReviewDecision.serialize
  | .toolSchema => ToolSchema.serialize
  | .toolAnnotations => ToolAnnotations.serialize
  | .memoryKind => MemoryKind.serialize
  | .memoryKey => MemoryKey.serialize
  | .memorySchema => MemorySchema.serialize
  | .payload => Value.tree

/-- The decoder of each type, reading directly. -/
def deserialize : (k : PolicyKind) → Json → Option k.Decoded
  | .hookResult => HookResult.deserialize
  | .toolFailure => ToolFailure.deserialize
  | .permission => Permission.deserialize
  | .permissionMode => PermissionMode.deserialize
  | .reviewDecision => ReviewDecision.deserialize
  | .toolSchema => ToolSchema.deserialize
  | .toolAnnotations => ToolAnnotations.deserialize
  | .memoryKind => MemoryKind.deserialize
  | .memoryKey => MemoryKey.deserialize
  | .memorySchema => MemorySchema.deserialize
  | .payload => readValue

end PolicyKind

/-- The schema of the documents of every kind. The prompt of a question to the user
    may be missing from an object, but not from an array. -/
def policySchema : PolicyKind → Schema PolicyKind
  | .hookResult => .tagged "kind"
    [("continue", [.default "updated_input" (.optional .payload)]),
      ("skip", [.required "reason" .string]), ("abort", [.required "reason" .string])]
  | .toolFailure => .tagged "kind"
    [("error", [.required "message" .string]), ("cancelled", []), ("timeout", [])]
  | .permission => .tagged "kind"
    [("allow", []), ("deny", [.required "reason" .string]),
      ("ask_user", [⟨"prompt", .optionalString, true, false⟩])]
  | .permissionMode => .scalar (.name ["plan", "accept_edits", "bypass_permissions"])
  | .reviewDecision => .tagged "kind"
    [("approve", []), ("deny", [.required "reason" .string])]
  | .toolSchema => .struct
    [.required "name" .string, .required "description" .string,
      .required "input_schema" (.one .payload)]
  | .toolAnnotations => .struct
    [.default "read_only" .bool, .default "destructive" .bool, .default "network_access" .bool,
      .default "idempotent" .bool]
  | .memoryKind => .scalar (.name ["per_session", "per_user", "global"])
  | .memoryKey => .struct
    [.required "name" .string, .required "kind" (.one .memoryKind),
      .required "description" .string]
  | .memorySchema => .struct [.required "keys" (.many .memoryKey)]
  | .payload => .value

/-! ## Conformance -/

/-- The decoder of the verdicts of hooks, in closed form. -/
theorem HookResult.deserialize_eq (j : Json) :
    deserialize j = taggedOn .direct "kind" variants j :=
  internallyTagged_eq "kind" variants j

/-- The rewrite of an input may be any JSON, or missing. -/
theorem HookResult.conforms_deserialize (j : Json) :
    (⟨.direct, .hookResult, j⟩ : Node PolicyKind).Conforms policySchema deserialize := by
  rw [funext deserialize_eq]
  refine .taggedOn rfl (.cons (.struct (by decide) ?_) (.cons (.struct (by decide) ?_)
    (.cons (.struct (by decide) ?_) .nil)))
  · refine .default (fun x _ => .optional_buffer ?_) .nil
    simp only [readValue_buffer]
    exact .value rfl
  · exact .required (fun _ _ => .string_buffer) .nil
  · exact .required (fun _ _ => .string_buffer) .nil

theorem ToolFailure.deserialize_eq (j : Json) :
    deserialize j = taggedOn .direct "kind" variants j :=
  internallyTagged_eq "kind" variants j

theorem ToolFailure.conforms_deserialize (j : Json) :
    (⟨.direct, .toolFailure, j⟩ : Node PolicyKind).Conforms policySchema deserialize := by
  rw [funext deserialize_eq]
  exact .taggedOn rfl (.cons (.struct (by decide) (.required (fun _ _ => .string_buffer) .nil))
    (.cons .unit (.cons .unit .nil)))

theorem Permission.deserialize_eq (j : Json) :
    deserialize j = taggedOn .direct "kind" variants j :=
  internallyTagged_eq "kind" variants j

/-- The prompt may be missing in an object, but not in an array, as the schema says. -/
theorem Permission.conforms_deserialize (j : Json) :
    (⟨.direct, .permission, j⟩ : Node PolicyKind).Conforms policySchema deserialize := by
  rw [funext deserialize_eq]
  refine .taggedOn rfl (.cons .unit (.cons (.struct (by decide)
    (.required (fun _ _ => .string_buffer) .nil)) (.cons (.structBy (by decide) (by decide)
      (fun ms hms => ?_) fun xs hxs => ?_) .nil)))
  · exact .cons (f := ⟨"prompt", .optionalString, true, false⟩)
      (fun _ _ => .optionalString_buffer) (hms ▸ rfl) .nil
  · exact .cons (f := ⟨"prompt", .optionalString, true, false⟩)
      (fun _ _ => .optionalString_buffer) (hxs ▸ rfl) .nil

theorem PermissionMode.conforms_deserialize (j : Json) :
    (⟨.direct, .permissionMode, j⟩ : Node PolicyKind).Conforms policySchema deserialize := by
  have hschema : policySchema .permissionMode = .scalar (.name (Map.keys variants)) := rfl
  exact .scalar hschema (@Scalar.Conforms.name _ .direct j variants)

theorem ReviewDecision.deserialize_eq (j : Json) :
    deserialize j = taggedOn .direct "kind" variants j :=
  internallyTagged_eq "kind" variants j

theorem ReviewDecision.conforms_deserialize (j : Json) :
    (⟨.direct, .reviewDecision, j⟩ : Node PolicyKind).Conforms policySchema deserialize := by
  rw [funext deserialize_eq]
  exact .taggedOn rfl (.cons .unit
    (.cons (.struct (by decide) (.required (fun _ _ => .string_buffer) .nil)) .nil))

theorem ToolSchema.deserialize_eq (j : Json) : deserialize j = (structOn fields j).map
    fun (name, description, inputSchema, ()) => ⟨name, description, inputSchema⟩ := by
  rw [deserialize, deserializeStruct_eq (by simp [fields, Fields.names])]

theorem ToolSchema.conforms_deserialize (j : Json) :
    (⟨.direct, .toolSchema, j⟩ : Node PolicyKind).Conforms policySchema deserialize := by
  rw [funext deserialize_eq]
  exact .map (.structOn rfl (.required (fun _ _ => .string) (.required (fun _ _ => .string)
    (.required (fun x _ => .one (.value rfl)) .nil)))) _

theorem ToolAnnotations.deserialize_eq (j : Json) : deserialize j = (structOn fields j).map
    fun (readOnly, destructive, networkAccess, idempotent, ()) =>
      ⟨readOnly, destructive, networkAccess, idempotent⟩ := by
  rw [deserialize, deserializeStruct_eq (by simp [fields, Fields.names])]

/-- Every flag may be missing, each with its own default. -/
theorem ToolAnnotations.conforms_deserialize (j : Json) :
    (⟨.direct, .toolAnnotations, j⟩ : Node PolicyKind).Conforms policySchema deserialize := by
  rw [funext deserialize_eq]
  exact .map (.structOn rfl (.default (fun _ _ => .bool) (.default (fun _ _ => .bool)
    (.default (fun _ _ => .bool) (.default (fun _ _ => .bool) .nil))))) _

theorem MemoryKind.conforms_deserialize (j : Json) :
    (⟨.direct, .memoryKind, j⟩ : Node PolicyKind).Conforms policySchema deserialize := by
  have hschema : policySchema .memoryKind = .scalar (.name (Map.keys variants)) := rfl
  exact .scalar hschema (@Scalar.Conforms.name _ .direct j variants)

theorem MemoryKey.deserialize_eq (j : Json) : deserialize j = (structOn fields j).map
    fun (name, kind, description, ()) => ⟨name, kind, description⟩ := by
  rw [deserialize, deserializeStruct_eq (by simp [fields, Fields.names])]

theorem MemoryKey.conforms_deserialize (j : Json) :
    (⟨.direct, .memoryKey, j⟩ : Node PolicyKind).Conforms policySchema deserialize := by
  rw [funext deserialize_eq]
  exact .map (.structOn rfl (.required (fun _ _ => .string)
    (.required (fun x _ => .one (MemoryKind.conforms_deserialize x))
      (.required (fun _ _ => .string) .nil)))) _

theorem MemorySchema.deserialize_eq (j : Json) :
    deserialize j = (structOn fields j).map fun (keys, ()) => ⟨keys⟩ := by
  rw [deserialize, deserializeStruct_eq (by simp [fields, Fields.names])]

/-- The keys of a schema are checked one by one: their list may be empty, but not missing. -/
theorem MemorySchema.conforms_deserialize (j : Json) :
    (⟨.direct, .memorySchema, j⟩ : Node PolicyKind).Conforms policySchema deserialize := by
  rw [funext deserialize_eq]
  exact .map (.structOn rfl
    (.required (fun _ _ => .many fun y _ => MemoryKey.conforms_deserialize y) .nil)) _

/-- Every decoder conforms to the schema. -/
theorem PolicyKind.conforms_deserialize (k : PolicyKind) (j : Json) :
    (⟨.direct, k, j⟩ : Node PolicyKind).Conforms policySchema k.deserialize := by
  cases k with
  | hookResult => exact HookResult.conforms_deserialize j
  | toolFailure => exact ToolFailure.conforms_deserialize j
  | permission => exact Permission.conforms_deserialize j
  | permissionMode => exact PermissionMode.conforms_deserialize j
  | reviewDecision => exact ReviewDecision.conforms_deserialize j
  | toolSchema => exact ToolSchema.conforms_deserialize j
  | toolAnnotations => exact ToolAnnotations.conforms_deserialize j
  | memoryKind => exact MemoryKind.conforms_deserialize j
  | memoryKey => exact MemoryKey.conforms_deserialize j
  | memorySchema => exact MemorySchema.conforms_deserialize j
  | payload => exact .value rfl

/-! ## Written documents -/

theorem ToolFailure.distinct_serialize (f : ToolFailure) : f.serialize.Distinct := by
  cases f <;> simp [serialize, distinct_tagged, distinct_string]

theorem Permission.distinct_serialize (p : Permission) : p.serialize.Distinct := by
  rcases p with _ | _ | prompt
  · simp [serialize, distinct_tagged]
  · simp [serialize, distinct_tagged, distinct_string]
  · cases prompt <;> simp [serialize, distinct_tagged, distinct_string, Json.Names.null]

theorem PermissionMode.distinct_serialize (m : PermissionMode) : m.serialize.Distinct := by
  cases m <;> exact distinct_string _

theorem ReviewDecision.distinct_serialize (x : ReviewDecision) : x.serialize.Distinct := by
  cases x <;> simp [serialize, distinct_tagged, distinct_string]

theorem ToolSchema.distinct_serialize (s : ToolSchema) : s.serialize.Distinct := by
  simp [serialize, Json.names_object, distinct_string, distinct_tree]

theorem ToolAnnotations.distinct_serialize (a : ToolAnnotations) : a.serialize.Distinct := by
  simp [serialize, Json.names_object, Json.Names.bool]

theorem MemoryKind.distinct_serialize (k : MemoryKind) : k.serialize.Distinct := by
  cases k <;> exact distinct_string _

theorem MemoryKey.distinct_serialize (k : MemoryKey) : k.serialize.Distinct := by
  simp [serialize, Json.names_object, distinct_string, k.kind.distinct_serialize]

theorem MemorySchema.distinct_serialize (s : MemorySchema) : s.serialize.Distinct := by
  have hkeys : (Json.array (s.keys.map MemoryKey.serialize)).Distinct :=
    .array (List.forall_mem_map.2 fun k _ => k.distinct_serialize)
  simp [serialize, Json.names_object, hkeys]

/-! ## Reading what is written -/

theorem ToolFailure.deserialize_serialize (f : ToolFailure) : deserialize f.serialize = some f := by
  cases f <;> rfl

/-- A permission is decoded from its encoding. -/
theorem Permission.deserialize_serialize (p : Permission) : deserialize p.serialize = some p := by
  rcases p with _ | _ | prompt
  · rfl
  · rfl
  · cases prompt <;> rfl

theorem PermissionMode.deserialize_serialize (m : PermissionMode) :
    deserialize m.serialize = some m := by
  cases m <;> rfl

theorem ReviewDecision.deserialize_serialize (x : ReviewDecision) :
    deserialize x.serialize = some x := by
  cases x <;> rfl

/-- A tool schema is decoded from its encoding: the input schema is a `Value` already. -/
theorem ToolSchema.deserialize_serialize (s : ToolSchema) : deserialize s.serialize = some s := by
  change some (ToolSchema.mk s.name s.description s.inputSchema.tree.toValue) = some s
  rw [Value.toValue_tree]

/-- All flags are written, so that no default fills in for one. -/
theorem ToolAnnotations.deserialize_serialize (a : ToolAnnotations) :
    deserialize a.serialize = some a := rfl

theorem MemoryKind.deserialize_serialize (k : MemoryKind) :
    deserialize k.serialize = some k := by
  cases k <;> rfl

theorem MemoryKey.deserialize_serialize (k : MemoryKey) : deserialize k.serialize = some k := by
  obtain ⟨name, kind, description⟩ := k
  cases kind <;> rfl

theorem MemorySchema.deserialize_serialize (s : MemorySchema) :
    deserialize s.serialize = some s := by
  have hkeys : readVec MemoryKey.deserialize (Json.array (s.keys.map MemoryKey.serialize)) =
      some s.keys := by
    rw [readVec_eq_some]
    exact ⟨_, rfl, List.forall₂_map_left_iff.2
      (List.forall₂_same.2 fun k _ => k.deserialize_serialize)⟩
  have h : structOn fields s.serialize = some (s.keys, ()) := by
    rw [structOn_eq_some (by rfl) s.distinct_serialize.names]
    simp [fields, serialize, Json.readField, hkeys]
  rw [deserialize_eq, h, Option.map_some]

namespace PolicyKind

/-- No type of the policy is encoded with a repeated name. -/
theorem distinct_serialize (k : PolicyKind) (a : k.Decoded) : (k.serialize a).Distinct := by
  cases k with
  | hookResult => exact (HookResult.sorted_serialize a).distinct
  | toolFailure => exact ToolFailure.distinct_serialize a
  | permission => exact Permission.distinct_serialize a
  | permissionMode => exact PermissionMode.distinct_serialize a
  | reviewDecision => exact ReviewDecision.distinct_serialize a
  | toolSchema => exact ToolSchema.distinct_serialize a
  | toolAnnotations => exact ToolAnnotations.distinct_serialize a
  | memoryKind => exact MemoryKind.distinct_serialize a
  | memoryKey => exact MemoryKey.distinct_serialize a
  | memorySchema => exact MemorySchema.distinct_serialize a
  | payload => exact distinct_tree a

/-- What is read back: all but a rewrite to null, which is taken for no rewrite. -/
def Kept : (k : PolicyKind) → k.Decoded → Prop
  | .hookResult, h => h ≠ HookResult.rewrite .null
  | _, _ => True

/-- Only a rewrite to null is not decoded from its encoding. -/
theorem deserialize_serialize_iff (k : PolicyKind) (a : k.Decoded) :
    k.deserialize (k.serialize a) = some a ↔ k.Kept a := by
  cases k with
  | hookResult => exact HookResult.deserialize_serialize_iff a
  | toolFailure => exact iff_of_true (ToolFailure.deserialize_serialize a) trivial
  | permission => exact iff_of_true (Permission.deserialize_serialize a) trivial
  | permissionMode => exact iff_of_true (PermissionMode.deserialize_serialize a) trivial
  | reviewDecision => exact iff_of_true (ReviewDecision.deserialize_serialize a) trivial
  | toolSchema => exact iff_of_true (ToolSchema.deserialize_serialize a) trivial
  | toolAnnotations => exact iff_of_true (ToolAnnotations.deserialize_serialize a) trivial
  | memoryKind => exact iff_of_true (MemoryKind.deserialize_serialize a) trivial
  | memoryKey => exact iff_of_true (MemoryKey.deserialize_serialize a) trivial
  | memorySchema => exact iff_of_true (MemorySchema.deserialize_serialize a) trivial
  | payload => exact iff_of_true (congrArg some (Value.toValue_tree a)) trivial

/-- Documents that hold no payload are not deep. -/
theorem depth_serialize_le {k : PolicyKind} (hk : k ∉ [.hookResult, .toolSchema, .payload])
    (a : k.Decoded) : (k.serialize a).depth ≤ 3 := by
  have hkey : ∀ key : MemoryKey, key.serialize.depth ≤ 1 := fun key => by
    cases hkind : key.kind <;>
      simp [MemoryKey.serialize, MemoryKind.serialize, hkind, Json.depth_object_le_iff]
  cases k with
  | hookResult => simp at hk
  | toolSchema => simp at hk
  | payload => simp at hk
  | toolFailure =>
    rcases a with _ | _ | _ <;> simp [serialize, ToolFailure.serialize, depth_tagged_le_iff]
  | permission =>
    rcases a with _ | _ | _ | _ <;> simp [serialize, Permission.serialize, depth_tagged_le_iff]
  | permissionMode => cases a <;> simp [serialize, PermissionMode.serialize]
  | reviewDecision =>
    rcases a with _ | _ <;> simp [serialize, ReviewDecision.serialize, depth_tagged_le_iff]
  | toolAnnotations => simp [serialize, ToolAnnotations.serialize, Json.depth_object_le_iff]
  | memoryKind => cases a <;> simp [serialize, MemoryKind.serialize]
  | memoryKey => exact (hkey a).trans (by decide)
  | memorySchema =>
    have hkeys : (Json.array (a.keys.map MemoryKey.serialize)).depth ≤ 2 :=
      Json.depth_array_le_iff.2 ⟨by decide, List.forall_mem_map.2 fun key _ =>
        Nat.lt_succ_of_le (hkey key)⟩
    simp [serialize, MemorySchema.serialize, Json.depth_object_le_iff, Nat.lt_succ_of_le hkeys]

/-- Documents that hold no payload hold no number. -/
theorem numbers_serialize {Q : Number → Prop} {k : PolicyKind}
    (hk : k ∉ [.hookResult, .toolSchema, .payload]) (a : k.Decoded) :
    (k.serialize a).Numbers Q := by
  have hkind : ∀ kind : MemoryKind, kind.serialize.Numbers Q := fun kind => by
    cases kind <;> exact numbers_string _
  have hkey : ∀ key : MemoryKey, key.serialize.Numbers Q := fun key => by
    simp [MemoryKey.serialize, Json.numbers_object, numbers_string, hkind]
  cases k with
  | hookResult => simp at hk
  | toolSchema => simp at hk
  | payload => simp at hk
  | toolFailure =>
    rcases a with _ | _ | _ <;>
      simp [serialize, ToolFailure.serialize, numbers_tagged, numbers_string]
  | permission =>
    rcases a with _ | _ | _ | _ <;>
      simp [serialize, Permission.serialize, numbers_tagged, numbers_string, Json.Numbers.null]
  | permissionMode => cases a <;> exact numbers_string _
  | reviewDecision =>
    rcases a with _ | _ <;>
      simp [serialize, ReviewDecision.serialize, numbers_tagged, numbers_string]
  | toolAnnotations =>
    simp [serialize, ToolAnnotations.serialize, Json.numbers_object, Json.Numbers.bool]
  | memoryKind => exact hkind a
  | memoryKey => exact hkey a
  | memorySchema =>
    have hkeys : (Json.array (a.keys.map MemoryKey.serialize)).Numbers Q :=
      .array (List.forall_mem_map.2 fun key _ => hkey key)
    simp [serialize, MemorySchema.serialize, Json.numbers_object, hkeys]

/-- What is written is read back from its value exactly if it is kept, and from its
    text, if its numbers are integers, exactly if it is not too deep either. Only what
    holds a payload can be, or have a number. -/
theorem readBack_iff (k : PolicyKind) (F : TextFormat) (a : k.Decoded) :
    (fromValue k.deserialize (toValue k.serialize a) = some a ↔ k.Kept a) ∧
      ((k.serialize a).IntegerOnly →
        (F.fromStr k.deserialize (F.toStr k.serialize a) = some a ↔
          k.Kept a ∧ (k.serialize a).depth ≤ recursionLimit)) ∧
      (k ∉ [.hookResult, .toolSchema, .payload] →
        F.fromStr k.deserialize (F.toStr k.serialize a) = some a) := by
  have htext (ha : (k.serialize a).IntegerOnly) :
      F.fromStr k.deserialize (F.toStr k.serialize a) = some a ↔
        k.Kept a ∧ (k.serialize a).depth ≤ recursionLimit := by
    rw [F.fromStr_toStr ha, fromDocument, Option.ite_none_right_eq_some, deserialize_serialize_iff,
      and_comm]
  refine ⟨?_, htext, fun hk => (htext (numbers_serialize hk a)).2 ⟨?_, ?_⟩⟩
  · have h := fromValue_toValue_of_conforms (k.conforms_deserialize (k.serialize a))
      (k.distinct_serialize a)
    rw [h, deserialize_serialize_iff]
  · cases k with
    | hookResult => simp at hk
    | _ => trivial
  · exact (depth_serialize_le hk a).trans (by decide)

/-! ## What the decoders do -/

/-- A document is decoded exactly if the schema accepts it. -/
theorem isSome_eq_accepts (k : PolicyKind) (d : Json) :
    (k.deserialize d).isSome = Node.accepts policySchema ⟨.direct, k, d⟩ :=
  (k.conforms_deserialize d).isSome_read

/-- The types of the policy have distinct fields, none of them called as the tag. -/
theorem distinctFields_policySchema (k : PolicyKind) :
    (layoutOf policySchema k).DistinctFields := by
  cases k <;> simp [layoutOf, policySchema, Schema.layout, Layout.DistinctFields, Map.mapValues,
    FieldCheck.entry]

/-- The order of members does not matter, as long as the payloads repeat no name, nothing
    that is read may be repeated, unknown members make no difference, and what is decoded
    from a document is decoded from its value. -/
theorem deserialize_robust (k : PolicyKind) (d : Json) :
    let ReadIn := Node.ReadAs (layoutOf policySchema) ⟨.direct, k, d⟩
    (∀ d', d.Reorder d' → (∀ n, ReadIn n → n.kind = .payload → n.doc.Distinct) →
      k.deserialize d = k.deserialize d') ∧
    (∀ n, ReadIn n → ¬n.Once (layoutOf policySchema) → k.deserialize d = none) ∧
    k.deserialize (prune (layoutOf policySchema) .direct k d) = k.deserialize d ∧
    ∀ a, k.deserialize d = some a → fromValue k.deserialize d.toValue = some a := by
  have h := k.conforms_deserialize d
  refine ⟨fun d' hdd' hpayload => h.reorder (fun n hn hk => hpayload n hn ?_) hdd',
    fun n hn htwice => h.read_eq_none hn htwice,
    Node.Conforms.read_prune distinctFields_policySchema k.conforms_deserialize d,
    fun a ha => fromValue_of_conforms h ha⟩
  -- Only payloads are read as values.
  cases hkind : n.kind <;> simp [hkind, layoutOf, policySchema, Schema.layout] at hk ⊢

end PolicyKind

end AgentPrimitives
