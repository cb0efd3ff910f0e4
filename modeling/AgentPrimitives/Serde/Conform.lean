import AgentPrimitives.Serde.Optional

/-!
# Conformance

A decoder *conforms* to a schema at a document (`Node.Conforms`) if it obeys it, is
lawful and follows its layout. It is enough to see that its fields and variants do.
Whatever conforms to its schema

* makes the same of all reorderings of a document (`Node.Conforms.reorder`), and
  nothing of one in which it would read something twice (`Node.Conforms.read_eq_none`);
* makes the same of a document with and without its unknown members
  (`Node.Conforms.read_prune`);
* reads from the value of a document what it reads from that (`fromValue_of_conforms`);
* accepts what can be checked without it (`Node.Conforms.isSome_read`).
-/

namespace Serde

variable {κ α τ : Type}

/-- A scalar is read from a document by its form, whatever the order in the document. -/
structure Scalar.Conforms (r : Route) (form : Scalar) (x : Json) (read : Json → Option α) :
    Prop where
  reorder : ∀ y, x.Reorder y → read x = read y
  normalize : ∀ a, read x = some a → read x.normalize = some a
  isSome : (read x).isSome = form.ok r x

/-- A decoder that conforms to the schema of a document. -/
structure Node.Conforms (S : κ → Schema κ) (n : Node κ) (read : Json → Option α) : Prop where
  lawful : n.Lawful (layoutOf S) read
  follows : ∀ R, Simulation (layoutOf S) R → n.Follows R read
  obeys : n.Obeys S read

/-- A field that conforms wherever it may be read from. -/
structure Check.Conforms (S : κ → Schema κ) (r : Route) (c : Check κ) (x : Json)
    (read : Json → Option α) : Prop where
  lawful : c.shape.Lawful (layoutOf S) r x read
  follows : ∀ R, Simulation (layoutOf S) R → c.shape.Follows R r x read
  obeys : c.Obeys S r x read

/-- Fields, the first of them at `i`, all of which conform. -/
structure Fields.Conforms (S : κ → Schema κ) (r : Route) (d : Json) (i : ℕ) (fs : Fields Json τ)
    (fields : List (FieldCheck κ)) : Prop where
  lawful : fs.Lawful (layoutOf S) r d i (fields.map FieldCheck.entry)
  follows : ∀ R, Simulation (layoutOf S) R → fs.Follows R r d i (fields.map FieldCheck.entry)
  obeys : fs.Obeys S r d i fields

/-- A variant that conforms when the tag of the document selects it. -/
structure Variant.Conforms (S : κ → Schema κ) (d : Json) (tag : String) (v : Variant α)
    (fields : String × List (FieldCheck κ)) : Prop where
  lawful : v.Lawful (layoutOf S) d tag (fields.1, fields.2.map FieldCheck.entry)
  follows : ∀ R, Simulation (layoutOf S) R →
    v.Follows R d tag (fields.1, fields.2.map FieldCheck.entry)
  obeys : v.Obeys S d tag fields

/-! ## Scalars -/

namespace Scalar.Conforms

variable {r : Route} {x : Json}

theorem string : Scalar.string.Conforms r x readString :=
  ⟨fun _ => readString_reorder, fun _ => readString_normalize, isSome_string⟩

theorem bool : Scalar.bool.Conforms r x readBool :=
  ⟨fun _ => readBool_reorder, fun _ => readBool_normalize, isSome_bool⟩

theorem optionalString : Scalar.optionalString.Conforms r x (readOption readString) := by
  refine ⟨fun y hxy => ?_, fun a ha => ?_, isSome_optionalString⟩
  · cases hxy <;> rfl
  · rw [readOption_eq_some] at ha ⊢
    obtain ⟨rfl, rfl⟩ | ⟨hx, s, hs, rfl⟩ := ha
    · exact .inl ⟨rfl, rfl⟩
    · rw [readString_eq_some] at hs
      subst hs
      exact .inr ⟨hx, s, rfl, rfl⟩

theorem parsed [StringCodec α] :
    (Scalar.parsed α).Conforms r x (readParsed : Json → Option α) :=
  ⟨fun _ => readParsed_reorder, fun _ => readParsed_normalize, isSome_parsed⟩

theorem name (variants : Members α) : (Scalar.name (Map.keys variants)).Conforms r x
    (r.read (readUnitVariant variants) (readUnitVariant variants)) :=
  ⟨fun _ => read_readUnitVariant_reorder r variants, fun _ => readUnitVariant_normalize,
    isSome_name variants⟩

end Scalar.Conforms

/-! ## Fields -/

namespace Check.Conforms

variable {S : κ → Schema κ} {r : Route} {k : κ} {x : Json} {read : Json → Option α}

theorem congr {c : Check κ} {read' : Json → Option α} (h : c.Conforms S r x read)
    (heq : read = read') : c.Conforms S r x read' := heq ▸ h

theorem scalar {form : Scalar} (h : form.Conforms r x read) :
    (scalar form).Conforms S r x read :=
  ⟨.scalar h.reorder, fun _ _ => .scalar h.normalize, .scalar h.isSome⟩

/-- What is made of the value read does not matter. -/
theorem map {β : Type} {c : Check κ} (h : c.Conforms S r x read) (f : α → β) :
    c.Conforms S r x fun d => (read d).map f where
  lawful :=
    ⟨fun hd y hxy => congrArg (Option.map f) (h.lawful.reorder hd y hxy), fun b hb n hn => by
      obtain ⟨a, ha, -⟩ := Option.map_eq_some_iff.1 hb
      exact h.lawful.once a ha n hn⟩
  follows R hR y hxy b hb := by
    obtain ⟨a, ha, rfl⟩ := Option.map_eq_some_iff.1 hb
    exact Option.map_eq_some_iff.2 ⟨a, h.follows R hR y hxy a ha, rfl⟩
  obeys := by
    rw [Check.Obeys, Option.isSome_map]
    exact h.obeys

theorem string : (string : Check κ).Conforms S r x readString := scalar .string

theorem bool : (bool : Check κ).Conforms S r x readBool := scalar .bool

theorem optionalString : (optionalString : Check κ).Conforms S r x (readOption readString) :=
  scalar .optionalString

theorem parsed [StringCodec α] :
    (parsed α : Check κ).Conforms S r x (readParsed : Json → Option α) := scalar .parsed

theorem name (variants : Members α) : (name (Map.keys variants) : Check κ).Conforms S r x
    (r.read (readUnitVariant variants) (readUnitVariant variants)) := scalar (.name variants)

theorem one (h : (⟨r, k, x⟩ : Node κ).Conforms S read) : (one k).Conforms S r x read :=
  ⟨.one h.lawful, fun R hR => .one (h.follows R hR), .one h.obeys⟩

/-- An optional value conforms if a present one does. -/
theorem optional (h : (⟨r, k, x⟩ : Node κ).Conforms S read) :
    (optional k).Conforms S r x (readOption read) :=
  ⟨.optional h.lawful, fun R hR => .optional (h.follows R hR), .optional h.obeys⟩

/-- A sequence conforms if its items do, which are nested less deeply than it. -/
theorem many (h : ∀ y : Json, y.depth < x.depth → (⟨r, k, y⟩ : Node κ).Conforms S read) :
    (many k).Conforms S r x (readVec read) :=
  ⟨.many fun y hy => (h y hy).lawful, fun R hR => .many fun y hy => (h y hy).follows R hR,
    .many fun y hy => (h y hy).obeys⟩

/-! Fields of variants are read out of the buffer. -/

theorem string_buffer : (Check.string : Check κ).Conforms S r x fun d => readString d.buffer :=
  string.congr (funext fun d => (readString_buffer d).symm)

theorem bool_buffer : (Check.bool : Check κ).Conforms S r x fun d => readBool d.buffer :=
  bool.congr (funext fun d => (readBool_buffer d).symm)

theorem optionalString_buffer :
    (Check.optionalString : Check κ).Conforms S r x fun d => readOption readString d.buffer :=
  optionalString.congr (funext fun d => by simp only [readOption_buffer, readString_buffer])

/-- The items of a sequence are read from the buffer, each from its own. -/
theorem many_buffer {read : Content → Option α}
    (h : ∀ y : Json, y.depth < x.depth →
      (⟨r, k, y⟩ : Node κ).Conforms S fun d => read d.buffer) :
    (Check.many k).Conforms S r x fun d => readVec read d.buffer :=
  (many h).congr (funext fun d => (readVec_buffer d read).symm)

theorem optional_buffer {read : Content → Option α}
    (h : (⟨r, k, x⟩ : Node κ).Conforms S fun d => read d.buffer) :
    (Check.optional k).Conforms S r x fun d => readOption read d.buffer :=
  (optional h).congr (funext fun d => (readOption_buffer d read).symm)

end Check.Conforms

namespace Fields.Conforms

variable {S : κ → Schema κ} {r : Route} {d : Json} {i : ℕ} {rest : Fields Json τ}
  {fields : List (FieldCheck κ)} {read : Json → Option α}

theorem nil : (Fields.nil : Fields Json Unit).Conforms S r d i [] :=
  ⟨.nil, fun _ _ => .nil, .nil⟩

/-- A field conforms if its candidates do, and if it may be missing where its check
    says. -/
theorem cons {f : FieldCheck κ} {missing : Option α}
    (hread : ∀ x ∈ d.candidates f.name i, f.check.Conforms S r x read)
    (hmissing : missing.isSome = f.omissible d) (hrest : rest.Conforms S r d (i + 1) fields) :
    (Fields.cons f.name read missing none rest).Conforms S r d i (f :: fields) :=
  ⟨.cons (fun x hx => (hread x hx).lawful) hrest.lawful,
    fun R hR => .cons (fun x hx => (hread x hx).follows R hR) (hrest.follows R hR),
    .cons (fun x hx => (hread x hx).obeys) hmissing hrest.obeys⟩

theorem required {name : String} {check : Check κ}
    (hread : ∀ x ∈ d.candidates name i, check.Conforms S r x read)
    (hrest : rest.Conforms S r d (i + 1) fields) :
    (Fields.required name read rest).Conforms S r d i (.required name check :: fields) :=
  cons (f := .required name check) hread (FieldCheck.omissible_same name check false d).symm hrest

theorem default {name : String} {check : Check κ} {a : α}
    (hread : ∀ x ∈ d.candidates name i, check.Conforms S r x read)
    (hrest : rest.Conforms S r d (i + 1) fields) :
    (Fields.default name read a rest).Conforms S r d i (.default name check :: fields) :=
  cons (f := .default name check) hread (FieldCheck.omissible_same name check true d).symm hrest

end Fields.Conforms

/-! ## Structs and enums -/

namespace Variant.Conforms

variable {S : κ → Schema κ} {d : Json} {tag name : String} {make : τ → α}
  {fields : List (FieldCheck κ)}

theorem unit {a : α} : (Variant.unit name a).Conforms S d tag (name, []) :=
  ⟨.unit, fun _ _ => .unit, .unit⟩

/-- A struct variant conforms if its fields do, in the buffer and next to the tag. -/
theorem struct {fs : Fields Content τ} (hfs : (tag :: fs.names).Nodup)
    (h : (fs.comap Json.buffer).Conforms S .buffered d 1 fields) :
    (Variant.struct name fs make).Conforms S d tag (name, fields) :=
  ⟨.struct hfs h.lawful, fun R hR => .struct hfs (h.follows R hR), .struct hfs h.obeys⟩

/-- A variant with other fields for arrays conforms if either do, on the documents they
    are for. -/
theorem structBy {onMap onSeq : Fields Content τ} (hmap : (tag :: onMap.names).Nodup)
    (hseq : (tag :: onSeq.names).Nodup)
    (h : ∀ ms, d = .object ms → (onMap.comap Json.buffer).Conforms S .buffered d 1 fields)
    (h' : ∀ xs, d = .array xs → (onSeq.comap Json.buffer).Conforms S .buffered d 1 fields) :
    (Variant.structBy name onMap onSeq make).Conforms S d tag (name, fields) where
  lawful := .structBy hmap hseq (fun ms hd => (h ms hd).lawful) fun xs hd => (h' xs hd).lawful
  follows R hR := .structBy hmap hseq (fun ms hd => (h ms hd).follows R hR)
    fun xs hd => (h' xs hd).follows R hR
  obeys := .structBy hmap hseq (fun ms hd => (h ms hd).obeys) fun xs hd => (h' xs hd).obeys

end Variant.Conforms

namespace Node.Conforms

variable {S : κ → Schema κ} {n : Node κ}

/-- The decoder of payloads conforms: it accepts any document. -/
theorem value (hS : S n.kind = .value) : n.Conforms S readValue := by
  have hlayout : layoutOf S n.kind = .value := by rw [layoutOf, hS, Schema.layout]
  exact ⟨.value hlayout, fun _ hR => .value hR hlayout, .value hS⟩

theorem scalar {form : Scalar} (hS : S n.kind = .scalar form) {read : Json → Option α}
    (h : form.Conforms n.route n.doc read) : n.Conforms S read := by
  have hlayout : layoutOf S n.kind = .scalar := by rw [layoutOf, hS, Schema.layout]
  exact ⟨.scalar hlayout h.reorder, fun _ hR => .scalar hR hlayout h.normalize,
    .scalar hS h.isSome⟩

theorem map {β : Type} {read : Json → Option α} (h : n.Conforms S read) (f : α → β) :
    n.Conforms S fun d => (read d).map f :=
  ⟨h.lawful.map f, fun R hR => (h.follows R hR).map f, h.obeys.map f⟩

/-- A struct conforms if its fields do. -/
theorem structOn {fields : List (FieldCheck κ)} (hS : S n.kind = .struct fields)
    {fs : Fields Json τ} (h : fs.Conforms S n.route n.doc 0 fields) :
    n.Conforms S (structOn fs) := by
  have hlayout : layoutOf S n.kind = .struct (fields.map FieldCheck.entry) := by
    rw [layoutOf, hS, Schema.layout]
  exact ⟨.structOn hlayout h.lawful, fun R hR => .structOn hR hlayout (h.follows R hR),
    .structOn hS h.obeys⟩

/-- A tagged enum conforms if its variants do, one by one. -/
theorem taggedOn {tag : String} {vs : List (String × List (FieldCheck κ))}
    (hS : S n.kind = .tagged tag vs) {variants : List (Variant α)}
    (h : List.Forall₂ (fun v fields => v.Conforms S n.doc tag fields) variants vs) :
    n.Conforms S (taggedOn n.route tag variants) := by
  have hlayout :
      layoutOf S n.kind = .tagged tag (Map.mapValues (List.map FieldCheck.entry) vs) := by
    rw [layoutOf, hS, Schema.layout]
  refine ⟨.taggedOn hlayout ?_, fun R hR => .taggedOn hR hlayout ?_, .taggedOn hS ?_⟩
  · exact List.forall₂_map_right_iff.2 (h.imp fun v fields hv => hv.lawful)
  · exact List.forall₂_map_right_iff.2 (h.imp fun v fields hv => hv.follows R hR)
  · exact h.imp fun v fields hv => hv.obeys

end Node.Conforms

/-! ## What conforms -/

section

variable {S : κ → Schema κ} {k : κ} {read : Json → Option α}

/-- The checker accepts exactly what is read. -/
theorem Node.Conforms.isSome_read {n : Node κ} (h : n.Conforms S read) :
    (read n.doc).isSome = n.accepts S :=
  Bool.eq_iff_iff.2 (h.obeys.trans accepts_iff.symm)

/-- Unknown members, wherever they are, do not change what is read. -/
theorem Node.Conforms.read_prune {r : Route} (hS : ∀ k, (layoutOf S k).DistinctFields)
    (h : ∀ d, (⟨r, k, d⟩ : Node κ).Conforms S read) (d : Json) :
    read (Serde.prune (layoutOf S) r k d) = read d :=
  Serde.read_prune hS (fun R d hR => (h d).follows R hR) d

/-- Nor does the order of the members, without repeated names in payloads. -/
theorem Node.Conforms.reorder {n : Node κ} (h : n.Conforms S read)
    (hn : n.DistinctValues (layoutOf S)) {d : Json} (hd : n.doc.Reorder d) :
    read n.doc = read d := h.lawful.reorder hn d hd

/-- Nothing that is read occurs twice. -/
theorem Node.Conforms.read_eq_none {n m : Node κ} (h : n.Conforms S read)
    (hm : ReadAs (layoutOf S) n m) (htwice : ¬m.Once (layoutOf S)) : read n.doc = none := by
  by_contra hread
  obtain ⟨a, ha⟩ := Option.ne_none_iff_exists'.1 hread
  exact htwice (h.lawful.once a ha m hm)

/-- What is written without repeated names is read from its value as from the
    document. -/
theorem fromValue_toValue_of_conforms {β : Type} {write : β → Json} {b : β}
    (h : (⟨.direct, k, write b⟩ : Node κ).Conforms S read) (hb : (write b).Distinct) :
    fromValue read (toValue write b) = read (write b) := h.lawful.read_normalize hb

variable {d : Json} (h : (⟨.direct, k, d⟩ : Node κ).Conforms S read)

include h

/-- What is read from a document is read from its value. -/
theorem fromValue_of_conforms {a : α} (ha : read d = some a) :
    fromValue read d.toValue = some a :=
  fromValue_of_follows h.follows ha

/-- A text is read exactly if it is not too deep, and everything that is read in
    reading it is by itself as its schema demands. -/
theorem isSome_fromDocument_of_conforms : (fromDocument read d).isSome = true ↔
    d.depth ≤ recursionLimit ∧
      ∀ n, Node.ReadAs (layoutOf S) ⟨.direct, k, d⟩ n → n.Admitted S := by
  rw [fromDocument]
  split_ifs with hd
  · exact h.obeys.trans (and_iff_right hd).symm
  · simp [hd]

end

end Serde
