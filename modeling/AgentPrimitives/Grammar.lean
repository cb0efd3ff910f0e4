import AgentPrimitives.Embedding

/-!
# The grammar of content blocks

The documented grammar (`DocumentedBlock`): a block is an object whose `type`
names a variant, with the members of the variant. What is accepted is more
(`AcceptedBlock`): an array of the tag and the fields in order, for a block or a
source, and, for those that are read out of the buffer, the index of the variant
for its name. That is all that is accepted (`ContentBlock.isSome_fromValue_iff`).
-/

namespace AgentPrimitives

open Serde

/-- A member that is a string. -/
def IsString (d : Option Json) : Prop := ∃ s, d = some (.string s)

/-- A member that is absent or a boolean. -/
def IsFlag (d : Option Json) : Prop := d = none ∨ ∃ b, d = some (.bool b)

/-- The tag of a document selects the variant with this name and index. -/
def TagIs (r : Route) (name : String) (i : ℕ) (j : Json) : Prop :=
  j.field? "type" 0 = some (.string name) ∨
    r = .buffered ∧ ∃ n : UInt64, j.field? "type" 0 = some (.number (.posInt n)) ∧ n.toNat = i

/-- The sources that are accepted. -/
inductive AcceptedSource (j : Json) : Prop
  | base64 : TagIs .buffered "base64" 0 j → j.Fits 3 → IsString (j.field? "media_type" 1) →
      IsString (j.field? "data" 2) → AcceptedSource j
  | url : TagIs .buffered "url" 1 j → j.Fits 2 → IsString (j.field? "url" 1) → AcceptedSource j

/-- The blocks that are accepted: objects, or arrays of the tag and the fields,
    the last of which may be left out in a tool result. -/
inductive AcceptedBlock : Route → Json → Prop
  | text {r : Route} {j : Json} : TagIs r "text" 0 j → j.Fits 2 → IsString (j.field? "text" 1) →
      AcceptedBlock r j
  | image {r : Route} {j d : Json} : TagIs r "image" 1 j → j.Fits 2 →
      j.field? "source" 1 = some d → AcceptedSource d → AcceptedBlock r j
  | document {r : Route} {j d : Json} : TagIs r "document" 2 j → j.Fits 2 →
      j.field? "source" 1 = some d → AcceptedSource d → AcceptedBlock r j
  | toolUse {r : Route} {j : Json} : TagIs r "tool_use" 3 j → j.Fits 4 →
      IsString (j.field? "id" 1) → IsString (j.field? "name" 2) → j.field? "input" 3 ≠ none →
      AcceptedBlock r j
  | toolResult {r : Route} {j : Json} {xs : List Json} : TagIs r "tool_result" 4 j → j.Fits 4 →
      IsString (j.field? "tool_use_id" 1) → j.field? "content" 2 = some (.array xs) →
      (∀ x ∈ xs, AcceptedBlock .buffered x) → IsFlag (j.field? "is_error" 3) → AcceptedBlock r j
  | json {r : Route} {j : Json} : TagIs r "json" 5 j → j.Fits 2 → j.field? "value" 1 ≠ none →
      AcceptedBlock r j

/-- The sources of the documented grammar. -/
inductive DocumentedSource : Json → Prop
  | base64 {ms : Members Json} : ms.lookup "type" = some (.string "base64") →
      IsString (ms.lookup "media_type") → IsString (ms.lookup "data") →
      DocumentedSource (.object ms)
  | url {ms : Members Json} : ms.lookup "type" = some (.string "url") →
      IsString (ms.lookup "url") → DocumentedSource (.object ms)

/-- The blocks of the documented grammar. -/
inductive DocumentedBlock : Json → Prop
  | text {ms : Members Json} : ms.lookup "type" = some (.string "text") →
      IsString (ms.lookup "text") → DocumentedBlock (.object ms)
  | image {ms : Members Json} {d : Json} : ms.lookup "type" = some (.string "image") →
      ms.lookup "source" = some d → DocumentedSource d → DocumentedBlock (.object ms)
  | document {ms : Members Json} {d : Json} : ms.lookup "type" = some (.string "document") →
      ms.lookup "source" = some d → DocumentedSource d → DocumentedBlock (.object ms)
  | toolUse {ms : Members Json} : ms.lookup "type" = some (.string "tool_use") →
      IsString (ms.lookup "id") → IsString (ms.lookup "name") → ms.lookup "input" ≠ none →
      DocumentedBlock (.object ms)
  | toolResult {ms : Members Json} {xs : List Json} :
      ms.lookup "type" = some (.string "tool_result") → IsString (ms.lookup "tool_use_id") →
      ms.lookup "content" = some (.array xs) → (∀ x ∈ xs, DocumentedBlock x) →
      IsFlag (ms.lookup "is_error") → DocumentedBlock (.object ms)
  | json {ms : Members Json} : ms.lookup "type" = some (.string "json") → ms.lookup "value" ≠ none →
      DocumentedBlock (.object ms)

/-! ## What is accepted -/

variable {r : Route} {j : Json}

/-- The tag of a block, in the terms of the grammar. -/
theorem tagOf_eq_some_iff {names : List String} (hnames : names.Nodup) {i : ℕ} {name : String}
    (hi : names[i]? = some name) : r.tagOf "type" names j = some i ↔ TagIs r name i j := by
  rw [Route.tagOf_eq_some hnames]
  constructor
  · rintro ⟨name', hname', h⟩
    cases hi.symm.trans hname'
    exact h
  · exact fun h => ⟨name, hi, h⟩

/-- Both kinds of sources accept the same documents. -/
theorem exists_taggedOn_sourceVariants_iff {α : Type} {base64 : String → String → α}
    {url : String → α} (hj : j.DistinctNames) :
    (∃ s, taggedOn .buffered "type" (sourceVariants base64 url) j = some s) ↔ AcceptedSource j := by
  have hnames : sourceNames.Nodup := by decide
  simp only [taggedOn_sourceVariants hj, ReadsBase64, ReadsUrl,
    tagOf_eq_some_iff hnames (show sourceNames[0]? = some "base64" from rfl),
    tagOf_eq_some_iff hnames (show sourceNames[1]? = some "url" from rfl)]
  constructor
  · rintro ⟨s, ⟨mediaType, data, ⟨htag, hfits, hmediaType, hdata⟩, -⟩ | ⟨u, ⟨htag, hfits, hu⟩, -⟩⟩
    · exact .base64 htag hfits ⟨_, hmediaType⟩ ⟨_, hdata⟩
    · exact .url htag hfits ⟨_, hu⟩
  · rintro (⟨htag, hfits, ⟨mediaType, hmediaType⟩, ⟨data, hdata⟩⟩ | ⟨htag, hfits, ⟨u, hu⟩⟩)
    · exact ⟨_, .inl ⟨_, _, ⟨htag, hfits, hmediaType, hdata⟩, rfl⟩⟩
    · exact ⟨_, .inr ⟨_, ⟨htag, hfits, hu⟩, rfl⟩⟩

theorem ImageSource.exists_read_iff (hj : j.DistinctNames) :
    (∃ s, read .buffered j = some s) ↔ AcceptedSource j := by
  rw [read_eq]
  exact exists_taggedOn_sourceVariants_iff hj

theorem DocumentSource.exists_read_iff (hj : j.DistinctNames) :
    (∃ s, read .buffered j = some s) ↔ AcceptedSource j := by
  rw [read_eq]
  exact exists_taggedOn_sourceVariants_iff hj

/-- The flag of a reply may be missing, but not null. -/
theorem isFlag_iff {i : ℕ} : (∃ b, j.readField "is_error" i readBool (some false) = some b) ↔
    IsFlag (j.field? "is_error" i) := by
  rw [Json.readField, IsFlag]
  cases j.field? "is_error" i with
  | none => simp
  | some d => simp [readBool_eq_some]

namespace ContentBlock

theorem tagOf_iff {i : ℕ} {name : String} (hi : names[i]? = some name) :
    r.tagOf "type" names j = some i ↔ TagIs r name i j :=
  tagOf_eq_some_iff (by decide) hi

/-- What is read is accepted. -/
theorem accepted_of_read {b : ContentBlock} (hj : j.Distinct) (h : read r j = some b) :
    AcceptedBlock r j := by
  induction b generalizing r j with
  | text s =>
    obtain ⟨htag, hfits, hs⟩ := (read_eq_some hj.names).1 h
    exact .text ((tagOf_iff rfl).1 htag) hfits ⟨s, hs⟩
  | image source =>
    obtain ⟨htag, hfits, d, hd, hsource⟩ := (read_eq_some hj.names).1 h
    exact .image ((tagOf_iff rfl).1 htag) hfits hd
      ((ImageSource.exists_read_iff (hj.field? hd).names).1 ⟨source, hsource⟩)
  | document source =>
    obtain ⟨htag, hfits, d, hd, hsource⟩ := (read_eq_some hj.names).1 h
    exact .document ((tagOf_iff rfl).1 htag) hfits hd
      ((DocumentSource.exists_read_iff (hj.field? hd).names).1 ⟨source, hsource⟩)
  | toolUse id name input =>
    obtain ⟨htag, hfits, hid, hname, d, hd, -⟩ := (read_eq_some hj.names).1 h
    exact .toolUse ((tagOf_iff rfl).1 htag) hfits ⟨id, hid⟩ ⟨name, hname⟩ (hd ▸ by simp)
  | toolResult toolUseId content isError ih =>
    obtain ⟨htag, hfits, hid, ⟨xs, hxs, hcontent⟩, hflag⟩ := (read_eq_some hj.names).1 h
    refine .toolResult ((tagOf_iff rfl).1 htag) hfits ⟨toolUseId, hid⟩ hxs (fun x hx => ?_)
      (isFlag_iff.1 ⟨isError, hflag⟩)
    obtain ⟨i, hi⟩ := List.mem_iff_getElem?.1 hx
    obtain ⟨b, hb, hread⟩ := exists_getElem?_of_forall₂ hcontent hi
    exact ih b (List.mem_of_getElem? hb) (Json.names_array.1 (hj.field? hxs) x hx) hread
  | json value =>
    obtain ⟨htag, hfits, d, hd, -⟩ := (read_eq_some hj.names).1 h
    exact .json ((tagOf_iff rfl).1 htag) hfits (hd ▸ by simp)

/-- What is accepted is read. -/
theorem exists_read_of_accepted (h : AcceptedBlock r j) (hj : j.Distinct) :
    ∃ b, read r j = some b := by
  simp only [read_eq_some hj.names]
  induction h with
  | text htag hfits hs =>
    obtain ⟨s, hs⟩ := hs
    exact ⟨.text s, (tagOf_iff rfl).2 htag, hfits, hs⟩
  | image htag hfits hd hsource =>
    obtain ⟨source, hsource⟩ := (ImageSource.exists_read_iff (hj.field? hd).names).2 hsource
    exact ⟨.image source, (tagOf_iff rfl).2 htag, hfits, _, hd, hsource⟩
  | document htag hfits hd hsource =>
    obtain ⟨source, hsource⟩ := (DocumentSource.exists_read_iff (hj.field? hd).names).2 hsource
    exact ⟨.document source, (tagOf_iff rfl).2 htag, hfits, _, hd, hsource⟩
  | toolUse htag hfits hid hname hinput =>
    obtain ⟨id, hid⟩ := hid
    obtain ⟨name, hname⟩ := hname
    obtain ⟨d, hd⟩ := Option.ne_none_iff_exists'.1 hinput
    exact ⟨.toolUse id name d.toValue, (tagOf_iff rfl).2 htag, hfits, hid, hname, d, hd, rfl⟩
  | toolResult htag hfits hid hxs _ hflag ih =>
    obtain ⟨id, hid⟩ := hid
    obtain ⟨isError, hflag⟩ := isFlag_iff.2 hflag
    have hread : ∀ x ∈ _, ∃ b, read .buffered x = some b := fun x hx => by
      have hx' : x.Distinct := Json.names_array.1 (hj.field? hxs) x hx
      simp only [read_eq_some hx'.names]
      exact ih x hx hx'
    -- The elements are read one by one, as blocks of their own.
    obtain ⟨bs, hbs⟩ := exists_forall₂ hread
    exact ⟨.toolResult id bs isError, (tagOf_iff rfl).2 htag, hfits, hid, ⟨_, hxs, hbs⟩, hflag⟩
  | json htag hfits hvalue =>
    obtain ⟨d, hd⟩ := Option.ne_none_iff_exists'.1 hvalue
    exact ⟨.json d.toValue, (tagOf_iff rfl).2 htag, hfits, d, hd, rfl⟩

/-- A block is decoded from what is accepted, and nothing else. -/
theorem exists_read_iff (hj : j.Distinct) : (∃ b, read r j = some b) ↔ AcceptedBlock r j :=
  ⟨fun ⟨_, h⟩ => accepted_of_read hj h, fun h => exists_read_of_accepted h hj⟩

end ContentBlock

/-! ## Tagged objects -/

/-- Every document that is read as a block or as a source is an object whose
    `type` is a string. -/
inductive TaggedForm : Json → Prop
  | object {ms : Members Json} {name : String} : ms.lookup "type" = some (.string name) →
      (name = "image" ∨ name = "document" → ∀ d, ms.lookup "source" = some d →
        ∃ ns tag, d = .object ns ∧ ns.lookup "type" = some (.string tag)) →
      (name = "tool_result" → ∀ xs, ms.lookup "content" = some (.array xs) →
        ∀ x ∈ xs, TaggedForm x) → TaggedForm (.object ms)

/-- A documented source is accepted. -/
theorem DocumentedSource.accepted {d : Json} (h : DocumentedSource d) : AcceptedSource d := by
  cases h with
  | base64 htag hmediaType hdata => exact .base64 (.inl htag) trivial hmediaType hdata
  | url htag hu => exact .url (.inl htag) trivial hu

/-- A documented block is accepted, on either route. -/
theorem DocumentedBlock.accepted (h : DocumentedBlock j) (r : Route) : AcceptedBlock r j := by
  induction h generalizing r with
  | text htag hs => exact .text (.inl htag) trivial hs
  | image htag hd hsource => exact .image (.inl htag) trivial hd hsource.accepted
  | document htag hd hsource => exact .document (.inl htag) trivial hd hsource.accepted
  | toolUse htag hid hname hinput => exact .toolUse (.inl htag) trivial hid hname hinput
  | toolResult htag hid hxs _ hflag ih =>
    exact .toolResult (.inl htag) trivial hid hxs (fun x hx => ih x hx .buffered) hflag
  | json htag hvalue => exact .json (.inl htag) trivial hvalue

/-- A tag given as a string is the name of the variant. -/
theorem TagIs.of_string {name name' : String} {i : ℕ} {ms : Members Json}
    (h : TagIs r name i (.object ms)) (hname : ms.lookup "type" = some (.string name')) :
    name' = name := by
  rcases h with h | ⟨-, n, hn, -⟩
  · cases hname.symm.trans h
    rfl
  · cases hname.symm.trans hn

/-- A source that is accepted and tagged by a string is a documented one. -/
theorem AcceptedSource.documented {ns : Members Json} {tag : String}
    (h : AcceptedSource (.object ns)) (htag : ns.lookup "type" = some (.string tag)) :
    DocumentedSource (.object ns) := by
  cases h with
  | base64 h _ hmediaType hdata => exact .base64 (h.of_string htag ▸ htag) hmediaType hdata
  | url h _ hu => exact .url (h.of_string htag ▸ htag) hu

/-- Of tagged objects, exactly the documented ones are accepted. -/
theorem TaggedForm.accepted_iff (hj : TaggedForm j) : AcceptedBlock r j ↔ DocumentedBlock j := by
  refine ⟨fun h => ?_, fun h => h.accepted r⟩
  induction hj generalizing r with
  | @object ms name htag hsource _ ih =>
    cases h with
    | text h _ hs => exact .text (h.of_string htag ▸ htag) hs
    | image h _ hd hs =>
      have hname := h.of_string htag
      obtain ⟨ns, tag, rfl, hns⟩ := hsource (.inl hname) _ hd
      exact .image (hname ▸ htag) hd (hs.documented hns)
    | document h _ hd hs =>
      have hname := h.of_string htag
      obtain ⟨ns, tag, rfl, hns⟩ := hsource (.inr hname) _ hd
      exact .document (hname ▸ htag) hd (hs.documented hns)
    | toolUse h _ hid hname hinput => exact .toolUse (h.of_string htag ▸ htag) hid hname hinput
    | toolResult h _ hid hxs hblocks hflag =>
      have hname := h.of_string htag
      exact .toolResult (hname ▸ htag) hid hxs
        (fun x hx => ih hname _ hxs x hx (hblocks x hx)) hflag
    | json h _ hvalue => exact .json (h.of_string htag ▸ htag) hvalue

namespace ContentBlock

/-- What is decoded from values: what is accepted; and of the values in which
    every block and every source is a tagged object, the documented ones. -/
theorem isSome_fromValue_iff (v : Value) :
    ((fromValue deserialize v).isSome ↔ AcceptedBlock .direct v.tree) ∧
      (TaggedForm v.tree → ((fromValue deserialize v).isSome ↔ DocumentedBlock v.tree)) := by
  have haccepted : (fromValue deserialize v).isSome ↔ AcceptedBlock .direct v.tree :=
    Option.isSome_iff_exists.trans (exists_read_iff (r := .direct) v.sorted.distinct)
  exact ⟨haccepted, fun hv => haccepted.trans hv.accepted_iff⟩

/-- A text block with a member that is not one of its own. -/
def extendedText : Value :=
  (Json.object [("extra", .null), ("text", .string "x"), ("type", .string "text")]).toValue

theorem taggedForm_extendedText : TaggedForm extendedText.tree :=
  @TaggedForm.object _ "text" rfl (by simp) (by simp)

theorem isSome_fromValue_iff_extendedText :
    (fromValue deserialize extendedText).isSome ↔ DocumentedBlock extendedText.tree :=
  (isSome_fromValue_iff extendedText).2 taggedForm_extendedText

/-- A block as an array is accepted, but not documented. -/
theorem isSome_fromValue_array :
    (fromValue deserialize (Json.array [.string "text", .string "x"]).toValue).isSome = true ∧
      ¬∀ v : Value, (fromValue deserialize v).isSome ↔ DocumentedBlock v.tree := by
  have haccepted :
      (fromValue deserialize (Json.array [.string "text", .string "x"]).toValue).isSome = true :=
    rfl
  exact ⟨haccepted, fun h => nomatch (h _).1 haccepted⟩

end ContentBlock

end AgentPrimitives
