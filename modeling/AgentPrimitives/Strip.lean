import AgentPrimitives.Grammar

/-!
# Erasing unknown members

A block that is read and written again has lost the members its variant does not
have, and an `is_error` that is false (`strip`); nothing else is lost, changed or
added (`ContentBlock.toValue_eq_strip`). The members that are lost make no
difference to what is read (`ContentBlock.read_strip`).
-/

namespace AgentPrimitives

open Serde

/-- The members of a source with the given tag. -/
def sourceMembers : String → List String
  | "base64" => ["type", "media_type", "data"]
  | "url" => ["type", "url"]
  | _ => []

/-- The members of a block with the given tag. -/
def blockMembers : String → List String
  | "text" => ["type", "text"]
  | "image" => ["type", "source"]
  | "document" => ["type", "source"]
  | "tool_use" => ["type", "id", "name", "input"]
  | "tool_result" => ["type", "tool_use_id", "content", "is_error"]
  | "json" => ["type", "value"]
  | _ => []

/-- Erasing the unknown members of a source. -/
def stripSource : Json → Json
  | .object ms =>
    match ms.lookup "type" with
    | some (.string tag) => .object (ms.filter fun m => m.1 ∈ sourceMembers tag)
    | _ => .object ms
  | j => j

/-- A flag that is false. -/
def isUnset : Json → Bool
  | .bool b => !b
  | _ => false

/-- A member that is written: one of the block's own, except a flag that is false. -/
def isKept (tag : String) (k : String) (x : Json) : Bool :=
  k ∈ blockMembers tag && !(k = "is_error" && isUnset x)

mutual

/-- Erasing the unknown members of a block, and of the blocks and the source in it. -/
def strip : Json → Json
  | .object ms =>
    match ms.lookup "type" with
    | some (.string tag) => .object (stripMembers tag ms)
    | _ => .object ms
  | j => j

/-- The members that are kept of a block, by its tag, each of them stripped. -/
def stripMembers (tag : String) : Members Json → Members Json
  | [] => []
  | (k, x) :: ms =>
    let stripped :=
      if k = "source" then stripSource x else if k = "content" then stripContent x else x
    if isKept tag k x then (k, stripped) :: stripMembers tag ms else stripMembers tag ms

/-- What is kept of the content of a tool result. -/
def stripContent : Json → Json
  | .array xs => .array (stripList xs)
  | j => j

/-- What is kept of each block in an array. -/
def stripList : List Json → List Json
  | [] => []
  | x :: xs => strip x :: stripList xs

end

/-- A member that is kept, stripped. -/
def stripMember (k : String) (x : Json) : Json :=
  if k = "source" then stripSource x else if k = "content" then stripContent x else x

theorem stripMembers_cons (tag : String) (m : String × Json) (ms : Members Json) :
    stripMembers tag (m :: ms) = if isKept tag m.1 m.2
      then (m.1, stripMember m.1 m.2) :: stripMembers tag ms else stripMembers tag ms := rfl

theorem stripList_eq (xs : List Json) : stripList xs = xs.map strip := by
  induction xs with
  | nil => rfl
  | cons x xs ih => rw [stripList, ih, List.map_cons]

/-- Members are dropped, and none is renamed or moved. -/
theorem keys_stripMembers_sublist (tag : String) (ms : Members Json) :
    (Map.keys (stripMembers tag ms)).Sublist (Map.keys ms) := by
  induction ms with
  | nil => exact .slnil
  | cons m ms ih =>
    rw [stripMembers_cons]
    split
    · exact ih.cons_cons m.1
    · exact ih.cons m.1

/-- What is kept of a member. -/
def keep (tag : String) (k : String) (x : Json) : Option Json :=
  if isKept tag k x then some (stripMember k x) else none

/-- A member that is kept is looked up, stripped. -/
theorem lookup_stripMembers (tag : String) {ms : Members Json} (h : (Map.keys ms).Nodup)
    (k : String) : (stripMembers tag ms).lookup k = (ms.lookup k).bind (keep tag k) := by
  induction ms with
  | nil => rfl
  | cons m ms ih =>
    rw [Map.keys_cons, List.nodup_cons] at h
    rw [stripMembers_cons, Map.lookup_cons]
    by_cases hk : k = m.1
    · subst hk
      rw [if_pos rfl, Option.bind_some, keep]
      split
      · rw [Map.lookup_cons, if_pos rfl]
      · rw [ih h.2, Map.lookup_eq_none.2 h.1, Option.bind_none]
    · rw [if_neg hk, ← ih h.2]
      split
      · rw [Map.lookup_cons, if_neg hk]
      · rfl

section

variable {tag : String} {ms : Members Json} (hms : (Map.keys ms).Nodup)

include hms

/-- Members without blocks are kept as they are. -/
theorem lookup_stripMembers_plain {k : String} (hk : k ∈ blockMembers tag)
    (hplain : k ∉ ["source", "content", "is_error"]) :
    (stripMembers tag ms).lookup k = ms.lookup k := by
  have hkeep : keep tag k = some := by
    funext x
    simp only [List.mem_cons, List.not_mem_nil, or_false, not_or] at hplain
    simp [keep, isKept, stripMember, hk, hplain]
  rw [lookup_stripMembers tag hms, hkeep, Option.bind_fun_some]

theorem lookup_stripMembers_source (hk : "source" ∈ blockMembers tag) :
    (stripMembers tag ms).lookup "source" = (ms.lookup "source").map stripSource := by
  have hkeep : keep tag "source" = fun x => some (stripSource x) := by
    funext x
    simp [keep, isKept, stripMember, hk]
  rw [lookup_stripMembers tag hms, hkeep, Option.map_eq_bind]
  rfl

theorem lookup_stripMembers_content (hk : "content" ∈ blockMembers tag) :
    (stripMembers tag ms).lookup "content" = (ms.lookup "content").map stripContent := by
  have hkeep : keep tag "content" = fun x => some (stripContent x) := by
    funext x
    simp [keep, isKept, stripMember, hk]
  rw [lookup_stripMembers tag hms, hkeep, Option.map_eq_bind]
  rfl

/-- A flag is kept if it is true, and read the same if it is not kept. -/
theorem readField_stripMembers (hk : "is_error" ∈ blockMembers tag) (i : ℕ) :
    (Json.object (stripMembers tag ms)).readField "is_error" i readBool (some false) =
      (Json.object ms).readField "is_error" i readBool (some false) := by
  rw [Json.readField, Json.readField, field?_object, field?_object, lookup_stripMembers tag hms]
  cases ms.lookup "is_error" with
  | none => rfl
  | some x =>
    rw [Option.bind_some, keep, isKept]
    cases x with
    | bool b => cases b <;> simp [hk, isUnset, stripMember, readBool, any]
    | _ => simp [hk, isUnset, stripMember]

end

theorem strip_object {ms : Members Json} {tag : String}
    (h : ms.lookup "type" = some (.string tag)) :
    strip (.object ms) = .object (stripMembers tag ms) := by
  rw [strip, h]

theorem stripSource_object {ms : Members Json} {tag : String}
    (h : ms.lookup "type" = some (.string tag)) :
    stripSource (.object ms) = .object (ms.filter fun m => m.1 ∈ sourceMembers tag) := by
  rw [stripSource, h]

/-! ## Erased members are not read -/

section

variable {r : Route} {j : Json}

/-- Stripping a source repeats no name. -/
theorem distinctNames_stripSource (h : j.DistinctNames) : (stripSource j).DistinctNames := by
  cases j with
  | object ms =>
    rw [stripSource]
    split
    · exact (List.filter_sublist.map Prod.fst).nodup h
    · exact h
  | _ => exact h

/-- Stripping a block repeats no name. -/
theorem distinctNames_strip (h : j.DistinctNames) : (strip j).DistinctNames := by
  cases j with
  | object ms =>
    rw [strip]
    split
    · exact (keys_stripMembers_sublist _ ms).nodup h
    · exact h
  | _ => exact h

/-- A document whose tag is no string is not stripped. -/
theorem strip_eq_self (h : ∀ ms tag, j = .object ms → ms.lookup "type" ≠ some (.string tag)) :
    strip j = j := by
  cases j with
  | object ms =>
    rw [strip]
    split
    · rename_i tag htag
      exact absurd htag (h ms tag rfl)
    · rfl
  | _ => rfl

/-- What is not tagged by a string is left as it is. -/
theorem stripSource_eq_self (h : ∀ ms tag, j = .object ms → ms.lookup "type" ≠ some (.string tag)) :
    stripSource j = j := by
  cases j with
  | object ms =>
    rw [stripSource]
    split
    · rename_i tag htag
      exact absurd htag (h ms tag rfl)
    · rfl
  | _ => rfl

/-- The members that a source is decoded from are kept. -/
theorem readsSource_strip (mediaType data u : String) :
    (ReadsBase64 r (stripSource j) mediaType data ↔ ReadsBase64 r j mediaType data) ∧
      (ReadsUrl r (stripSource j) u ↔ ReadsUrl r j u) := by
  by_cases h : ∃ ms tag, j = .object ms ∧ ms.lookup "type" = some (.string tag)
  · obtain ⟨ms, tag, rfl, htag⟩ := h
    rw [stripSource_object htag, ReadsBase64, ReadsBase64, ReadsUrl, ReadsUrl]
    simp only [Route.tagOf, field?_object, fits_object, true_and]
    have hlookup := Map.lookup_filter (fun k => decide (k ∈ sourceMembers tag)) ms
    simp only [hlookup, htag, decide_eq_true_eq]
    -- The members that are looked up are among those that are kept.
    by_cases hbase64 : tag = "base64"
    · subst hbase64
      simp [sourceMembers, Route.readTag, selectVariant, sourceNames, List.idxOf?_cons]
    · by_cases hurl : tag = "url"
      · subst hurl
        simp [sourceMembers, Route.readTag, selectVariant, sourceNames, List.idxOf?_cons]
      · -- No variant has this tag.
        have hnone : r.readTag sourceNames (.string tag) = none := by
          simp [Route.readTag, selectVariant, sourceNames, List.idxOf?_cons, Ne.symm hbase64,
            Ne.symm hurl]
        split_ifs <;> simp [hnone]
  · rw [stripSource_eq_self fun ms tag hj htag => h ⟨ms, tag, hj, htag⟩]
    exact ⟨Iff.rfl, Iff.rfl⟩

theorem ImageSource.read_strip (hj : j.DistinctNames) : read r (stripSource j) = read r j := by
  refine Option.ext fun s => ?_
  rw [read_eq_some (distinctNames_stripSource hj), read_eq_some hj]
  cases s with
  | base64 mediaType data => exact (readsSource_strip mediaType data "").1
  | url u => exact (readsSource_strip "" "" u).2

theorem DocumentSource.read_strip (hj : j.DistinctNames) : read r (stripSource j) = read r j := by
  refine Option.ext fun s => ?_
  rw [read_eq_some (distinctNames_stripSource hj), read_eq_some hj]
  cases s with
  | base64 mediaType data => exact (readsSource_strip mediaType data "").1
  | url u => exact (readsSource_strip "" "" u).2

namespace ContentBlock

/-- A tag that is known is kept. -/
theorem tagOf_strip {ms : Members Json} (hms : (Map.keys ms).Nodup) {tag : String}
    (htag : ms.lookup "type" = some (.string tag)) :
    r.tagOf "type" names (.object (stripMembers tag ms)) = r.tagOf "type" names (.object ms) := by
  by_cases hk : "type" ∈ blockMembers tag
  · rw [Route.tagOf, field?_object, lookup_stripMembers_plain hms hk (by decide)]
    rfl
  · -- A tag that is unknown selects nothing, kept or not.
    have hnone : names.idxOf? tag = none := by
      rw [List.idxOf?_eq_none_iff]
      rintro hmem
      simp only [names, List.mem_cons, List.not_mem_nil, or_false] at hmem
      rcases hmem with rfl | rfl | rfl | rfl | rfl | rfl <;> exact hk (by decide)
    rw [Route.tagOf_of_string r (j := .object ms) htag, hnone, Route.tagOf, field?_object,
      lookup_stripMembers tag hms, htag]
    simp [keep, isKept, hk]

/-- Stripped blocks are decoded as the blocks are, one by one. -/
theorem forall₂_strip_iff {xs : List Json} (hxs : ∀ x ∈ xs, x.Distinct) {bs : List ContentBlock}
    (ih : ∀ b ∈ bs, ∀ (r : Route) (j : Json), j.Distinct →
      (read r (strip j) = some b ↔ read r j = some b)) :
    List.Forall₂ (fun x b => read r x = some b) (xs.map strip) bs ↔
      List.Forall₂ (fun x b => read r x = some b) xs bs := by
  induction xs generalizing bs with
  | nil => rfl
  | cons x xs ihxs =>
    rw [List.forall_mem_cons] at hxs
    cases bs with
    | nil => simp
    | cons b bs =>
      rw [List.forall_mem_cons] at ih
      rw [List.map_cons, List.forall₂_cons, List.forall₂_cons, ih.1 r x hxs.1, ihxs hxs.2 ih.2]

/-- What is erased makes no difference, if it does not to the blocks inside. -/
theorem reads_stripMembers_iff {ms : Members Json} (hj : (Json.object ms).Distinct) {tag : String}
    (htag : ms.lookup "type" = some (.string tag)) {b : ContentBlock}
    (ih : ∀ id content e, b = .toolResult id content e → ∀ c ∈ content, ∀ (r : Route) (j : Json),
      j.Distinct → (read r (strip j) = some c ↔ read r j = some c)) :
    Reads r (.object (stripMembers tag ms)) b ↔ Reads r (.object ms) b := by
  have hms : (Map.keys ms).Nodup := hj.names
  have hname : ∀ {i name}, names[i]? = some name → r.tagOf "type" names (.object ms) = some i →
      tag = name := by
    intro i name hi h
    rw [Route.tagOf_of_string r (j := .object ms) htag, idxOf?_eq_some (by decide)] at h
    exact Option.some_inj.1 (h.symm.trans hi)
  cases b with
  | text s =>
    simp only [Reads, tagOf_strip hms htag, field?_object, fits_object]
    refine and_congr_right fun hi => ?_
    obtain rfl := hname rfl hi
    rw [lookup_stripMembers_plain hms (by decide) (by decide)]
  | image source =>
    simp only [Reads, tagOf_strip hms htag, field?_object, fits_object]
    refine and_congr_right fun hi => ?_
    obtain rfl := hname rfl hi
    rw [lookup_stripMembers_source hms (by decide)]
    cases hd : ms.lookup "source" with
    | none => rfl
    | some d =>
      have hd' : d.Distinct := Json.Distinct.field? (i := 0) hj hd
      simp [ImageSource.read_strip hd'.names]
  | document source =>
    simp only [Reads, tagOf_strip hms htag, field?_object, fits_object]
    refine and_congr_right fun hi => ?_
    obtain rfl := hname rfl hi
    rw [lookup_stripMembers_source hms (by decide)]
    cases hd : ms.lookup "source" with
    | none => rfl
    | some d =>
      have hd' : d.Distinct := Json.Distinct.field? (i := 0) hj hd
      simp [DocumentSource.read_strip hd'.names]
  | toolUse id name input =>
    simp only [Reads, tagOf_strip hms htag, field?_object, fits_object]
    refine and_congr_right fun hi => ?_
    obtain rfl := hname rfl hi
    rw [lookup_stripMembers_plain hms (by decide) (by decide),
      lookup_stripMembers_plain hms (by decide) (by decide),
      lookup_stripMembers_plain hms (by decide) (by decide)]
  | toolResult id content isError =>
    simp only [Reads, tagOf_strip hms htag, field?_object, fits_object]
    refine and_congr_right fun hi => ?_
    obtain rfl := hname rfl hi
    rw [lookup_stripMembers_plain hms (by decide) (by decide),
      lookup_stripMembers_content hms (by decide), readField_stripMembers hms (by decide)]
    refine and_congr_right fun _ => and_congr_right fun _ => and_congr_left fun _ => ?_
    cases hd : ms.lookup "content" with
    | none => rfl
    | some d =>
      have hd' : d.Distinct := Json.Distinct.field? (i := 0) hj hd
      cases d with
      | array xs =>
        have := forall₂_strip_iff (r := .buffered) (Json.names_array.1 hd')
          (ih id content isError rfl)
        simpa [stripContent, stripList_eq] using this
      | _ => rfl
  | json value =>
    simp only [Reads, tagOf_strip hms htag, field?_object, fits_object]
    refine and_congr_right fun hi => ?_
    obtain rfl := hname rfl hi
    rw [lookup_stripMembers_plain hms (by decide) (by decide)]

/-- A stripped block is decoded as the block is. -/
theorem read_strip_iff {b : ContentBlock} (hj : j.Distinct) :
    read r (strip j) = some b ↔ read r j = some b := by
  have step : ∀ {b : ContentBlock} {r : Route} {j : Json}, j.Distinct →
      (∀ id content e, b = .toolResult id content e → ∀ c ∈ content, ∀ (r : Route) (j : Json),
        j.Distinct → (read r (strip j) = some c ↔ read r j = some c)) →
      (read r (strip j) = some b ↔ read r j = some b) := by
    intro b r j hj ih
    by_cases h : ∃ ms tag, j = .object ms ∧ ms.lookup "type" = some (.string tag)
    · obtain ⟨ms, tag, rfl, htag⟩ := h
      rw [read_eq_some (distinctNames_strip hj.names), read_eq_some hj.names, strip_object htag]
      exact reads_stripMembers_iff hj htag ih
    · rw [strip_eq_self fun ms tag hj htag => h ⟨ms, tag, hj, htag⟩]
  induction b generalizing r j with
  | toolResult id content isError ih =>
    refine step hj fun _ _ _ h c hc r j hj => ?_
    cases h
    exact ih c hc hj
  | _ => exact step hj fun _ _ _ h => nomatch h

/-- What is erased is not read. -/
theorem read_strip (hj : j.Distinct) : read r (strip j) = read r j :=
  Option.ext fun _ => read_strip_iff hj

end ContentBlock

/-! ## What is written is what is kept -/

/-- A map is what is written for a variant if it has the tag, and at each name the
    field. -/
theorem normalize_tagged_eq {tag : String} {names : List String} {fs ns : Members Json}
    (hfs : ("type" :: Map.keys fs).Nodup) (hns : Map.Sorted ns)
    (htag : ns.lookup "type" = some (.string tag)) (hfsNames : ∀ k ∉ names, fs.lookup k = none)
    (hnsNames : ∀ k ∉ names, ns.lookup k = none)
    (h : ∀ k ∈ names, k ≠ "type" → (fs.lookup k).map Json.normalize = ns.lookup k) :
    (tagged "type" tag fs).normalize = .object ns := by
  refine Json.normalize_object_eq hfs hns fun k => ?_
  rw [Map.lookup_cons]
  by_cases htype : k = "type"
  · subst htype
    rw [if_pos rfl, htag]
    rfl
  · rw [if_neg htype]
    by_cases hk : k ∈ names
    · exact h k hk htype
    · rw [hfsNames k hk, hnsNames k hk]
      rfl

theorem lookup_eq_none_of_subset {names : List String} {fs : Members Json}
    (h : Map.keys fs ⊆ names) (k : String) (hk : k ∉ names) : fs.lookup k = none :=
  Map.lookup_eq_none.2 fun hmem => hk (h hmem)

section

variable {ns : Members Json} (hns : Map.Sorted ns)

include hns

/-- What is written for a source is what is kept of it, if the fields are there. -/
theorem normalize_source_eq {tag : String} (htag : ns.lookup "type" = some (.string tag))
    (hmem : "type" ∈ sourceMembers tag) {fs : Members Json} (hfs : ("type" :: Map.keys fs).Nodup)
    (hsub : Map.keys fs ⊆ sourceMembers tag)
    (h : ∀ k ∈ sourceMembers tag, k ≠ "type" → (fs.lookup k).map Json.normalize = ns.lookup k) :
    (tagged "type" tag fs).normalize = stripSource (.object ns) := by
  have hlookup := Map.lookup_filter (fun k => decide (k ∈ sourceMembers tag)) ns
  rw [stripSource_object htag]
  refine normalize_tagged_eq hfs (hns.sublist (List.filter_sublist.map Prod.fst)) ?_
    (lookup_eq_none_of_subset hsub) (fun k hk => ?_) fun k hk htype => ?_
  · rw [hlookup, if_pos (decide_eq_true hmem), htag]
  · rw [hlookup, if_neg (by simpa using hk)]
  · rw [hlookup, if_pos (decide_eq_true hk), h k hk htype]

variable {tag : String} (htag : ns.lookup "type" = some (.string tag))

include htag

/-- A source that is read as inline data is written with the three members it is read
    from. -/
theorem normalize_serializeBase64 {mediaType data : String}
    (h : ReadsBase64 .buffered (.object ns) mediaType data) :
    (serializeBase64 mediaType data).normalize = stripSource (.object ns) := by
  obtain ⟨hi, -, hmediaType, hdata⟩ := h
  obtain rfl := ((tagOf_eq_some_iff (by decide) rfl).1 hi).of_string htag
  refine normalize_source_eq hns htag (by decide) (by simp) (by simp [sourceMembers]) ?_
  rw [field?_object] at hmediaType hdata
  simp [sourceMembers, Map.lookup_cons, hmediaType, hdata]

/-- A source that is read as a URL is written with the two members it is read from. -/
theorem normalize_serializeUrl {u : String} (h : ReadsUrl .buffered (.object ns) u) :
    (serializeUrl u).normalize = stripSource (.object ns) := by
  obtain ⟨hi, -, hu⟩ := h
  obtain rfl := ((tagOf_eq_some_iff (by decide) rfl).1 hi).of_string htag
  refine normalize_source_eq hns htag (by decide) (by simp) (by simp [sourceMembers]) ?_
  rw [field?_object] at hu
  simp [sourceMembers, Map.lookup_cons, hu]

theorem ImageSource.normalize_serialize {s : ImageSource}
    (h : read .buffered (.object ns) = some s) :
    s.serialize.normalize = stripSource (.object ns) := by
  rw [read_eq_some (j := .object ns) hns.nodup] at h
  cases s with
  | base64 mediaType data => exact normalize_serializeBase64 hns htag h
  | url u => exact normalize_serializeUrl hns htag h

theorem DocumentSource.normalize_serialize {s : DocumentSource}
    (h : read .buffered (.object ns) = some s) :
    s.serialize.normalize = stripSource (.object ns) := by
  rw [read_eq_some (j := .object ns) hns.nodup] at h
  cases s with
  | base64 mediaType data => exact normalize_serializeBase64 hns htag h
  | url u => exact normalize_serializeUrl hns htag h

end

namespace ContentBlock

/-- What is written for a block is what is kept of it, if the fields are there. -/
theorem normalize_block_eq {tag : String} {ms : Members Json} (hms : Map.Sorted ms)
    (htag : ms.lookup "type" = some (.string tag)) (hmem : "type" ∈ blockMembers tag)
    {fs : Members Json} (hfs : ("type" :: Map.keys fs).Nodup)
    (hsub : Map.keys fs ⊆ blockMembers tag)
    (h : ∀ k ∈ blockMembers tag, k ≠ "type" →
      (fs.lookup k).map Json.normalize = (stripMembers tag ms).lookup k) :
    (tagged "type" tag fs).normalize = strip (.object ms) := by
  rw [strip_object htag]
  -- Nothing but the members of the variant is written, and nothing else is kept.
  refine normalize_tagged_eq hfs (hms.sublist (keys_stripMembers_sublist tag ms)) ?_
    (lookup_eq_none_of_subset hsub) (fun k hk => ?_) h
  · rw [lookup_stripMembers_plain hms.nodup hmem (by decide), htag]
  · rw [lookup_stripMembers tag hms.nodup, Option.bind_eq_none_iff]
    intro x _
    simp [keep, isKept, hk]

/-- The flag of a tool result is written as it is kept. -/
theorem lookup_isError {ms : Members Json} (hms : (Map.keys ms).Nodup) {tag : String}
    (htag : "is_error" ∈ blockMembers tag) {isError : Bool}
    (h : (Json.object ms).readField "is_error" 3 readBool (some false) = some isError) :
    (stripMembers tag ms).lookup "is_error" = if isError then some (.bool true) else none := by
  rw [lookup_stripMembers tag hms]
  rcases Json.readField_eq_some.1 h with ⟨d, hd, hread⟩ | ⟨hnone, hdefault⟩
  · rw [field?_object] at hd
    rw [readBool_eq_some] at hread
    subst hread
    cases isError <;> simp [hd, keep, isKept, htag, isUnset, stripMember]
  · rw [field?_object] at hnone
    cases hdefault
    simp [hnone]

/-- A block that is read is written as what is left of it when stripped. -/
theorem normalize_serialize {b : ContentBlock} (htagged : TaggedForm j) (hj : j.Sorted)
    (h : read r j = some b) : b.serialize.normalize = strip j := by
  induction b generalizing r j with
  | text s =>
    obtain @⟨ms, tag, htag, -, -⟩ := htagged
    obtain ⟨hi, -, hs⟩ := (read_eq_some hj.distinct.names).1 h
    obtain rfl := ((tagOf_iff rfl).1 hi).of_string htag
    have hms : Map.Sorted ms := (Json.names_object.1 hj).1
    rw [field?_object] at hs
    refine normalize_block_eq hms htag (by decide) (by simp) (by simp [blockMembers]) ?_
    simp [blockMembers, lookup_stripMembers_plain hms.nodup, hs, Map.lookup_cons]
  | image source =>
    obtain @⟨ms, tag, htag, hsource, -⟩ := htagged
    obtain ⟨hi, -, d, hd, hread⟩ := (read_eq_some hj.distinct.names).1 h
    obtain rfl := ((tagOf_iff rfl).1 hi).of_string htag
    have hms : Map.Sorted ms := (Json.names_object.1 hj).1
    rw [field?_object] at hd
    -- The source is a tagged object itself.
    obtain ⟨ns, tag, rfl, hns⟩ := hsource (.inl rfl) d hd
    have hsorted : (Json.object ns).Sorted := (Json.names_object.1 hj).2 _ (Map.mem_of_lookup hd)
    have hnormalize :=
      ImageSource.normalize_serialize (Json.names_object.1 hsorted).1 hns hread
    refine normalize_block_eq hms htag (by decide) (by simp) (by simp [blockMembers]) ?_
    simp [blockMembers, lookup_stripMembers_source hms.nodup, hd, Map.lookup_cons, hnormalize]
  | document source =>
    obtain @⟨ms, tag, htag, hsource, -⟩ := htagged
    obtain ⟨hi, -, d, hd, hread⟩ := (read_eq_some hj.distinct.names).1 h
    obtain rfl := ((tagOf_iff rfl).1 hi).of_string htag
    have hms : Map.Sorted ms := (Json.names_object.1 hj).1
    rw [field?_object] at hd
    obtain ⟨ns, tag, rfl, hns⟩ := hsource (.inr rfl) d hd
    have hsorted : (Json.object ns).Sorted := (Json.names_object.1 hj).2 _ (Map.mem_of_lookup hd)
    have hnormalize :=
      DocumentSource.normalize_serialize (Json.names_object.1 hsorted).1 hns hread
    refine normalize_block_eq hms htag (by decide) (by simp) (by simp [blockMembers]) ?_
    simp [blockMembers, lookup_stripMembers_source hms.nodup, hd, Map.lookup_cons, hnormalize]
  | toolUse id name input =>
    obtain @⟨ms, tag, htag, -, -⟩ := htagged
    obtain ⟨hi, -, hid, hname, d, hd, rfl⟩ := (read_eq_some hj.distinct.names).1 h
    obtain rfl := ((tagOf_iff rfl).1 hi).of_string htag
    have hms : Map.Sorted ms := (Json.names_object.1 hj).1
    rw [field?_object] at hid hname hd
    have hsorted : d.Sorted := (Json.names_object.1 hj).2 _ (Map.mem_of_lookup hd)
    refine normalize_block_eq hms htag (by decide) (by simp) (by simp [blockMembers]) ?_
    simp [blockMembers, lookup_stripMembers_plain hms.nodup, hid, hname, hd, Map.lookup_cons,
      Json.normalize_of_sorted hsorted]
  | toolResult id content isError ih =>
    obtain @⟨ms, tag, htag, -, hblocks⟩ := htagged
    obtain ⟨hi, -, hid, ⟨xs, hxs, hcontent⟩, hflag⟩ := (read_eq_some hj.distinct.names).1 h
    obtain rfl := ((tagOf_iff rfl).1 hi).of_string htag
    have hms : Map.Sorted ms := (Json.names_object.1 hj).1
    have hflag := lookup_isError hms.nodup (show _ ∈ blockMembers "tool_result" by decide) hflag
    rw [field?_object] at hid hxs
    have hsorted : (Json.array xs).Sorted := (Json.names_object.1 hj).2 _ (Map.mem_of_lookup hxs)
    -- By induction, every block inside is written as what is kept of its document.
    have hnormalize : xs.map strip = (content.map serialize).map Json.normalize := by
      rw [List.map_map]
      exact map_eq_of_forall₂ hcontent fun x hx b hb hread =>
        (ih b hb (hblocks rfl xs hxs x hx) (Json.names_array.1 hsorted x hx) hread).symm
    refine normalize_block_eq hms htag (by decide) ?_ ?_ ?_
    · cases isError <;> simp [isFalse, memberUnless]
    · cases isError <;> simp [isFalse, memberUnless, blockMembers]
    · -- The flag is written if it is set, and then it is kept.
      cases isError <;> simp [blockMembers, lookup_stripMembers_plain hms.nodup,
        lookup_stripMembers_content hms.nodup, hid, hxs, hflag, isFalse, memberUnless,
        Map.lookup_cons, serializeList_eq, stripContent, stripList_eq, hnormalize]
  | json value =>
    obtain @⟨ms, tag, htag, -, -⟩ := htagged
    obtain ⟨hi, -, d, hd, rfl⟩ := (read_eq_some hj.distinct.names).1 h
    obtain rfl := ((tagOf_iff rfl).1 hi).of_string htag
    have hms : Map.Sorted ms := (Json.names_object.1 hj).1
    rw [field?_object] at hd
    have hsorted : d.Sorted := (Json.names_object.1 hj).2 _ (Map.mem_of_lookup hd)
    refine normalize_block_eq hms htag (by decide) (by simp) (by simp [blockMembers]) ?_
    simp [blockMembers, lookup_stripMembers_plain hms.nodup, hd, Map.lookup_cons,
      Json.normalize_of_sorted hsorted]

/-- A block survives being made a value. -/
theorem fromValue_toValue_self (b : ContentBlock) :
    fromValue deserialize (toValue serialize b) = some b :=
  (fromValue_toValue_of_conforms (S := schemaOf .string .string) (conforms_read .direct _)
    b.distinct_serialize).trans (b.read_serialize .direct)

/-- A block that is read from tagged objects is written as what is kept of them.
    What is not kept makes no difference, and is not missed when what is written
    is read and written again. -/
theorem toValue_eq_strip {v : Value} {b : ContentBlock} (hv : TaggedForm v.tree)
    (h : fromValue deserialize v = some b) :
    (toValue serialize b).tree = strip v.tree ∧
      (∀ v' : Value, strip v'.tree = strip v.tree → fromValue deserialize v' = some b) ∧
      (fromValue deserialize (toValue serialize b)).map (toValue serialize) =
        some (toValue serialize b) := by
  refine ⟨normalize_serialize (r := .direct) hv v.sorted h, fun v' hv' => ?_, ?_⟩
  · calc
      fromValue deserialize v' = read .direct (strip v'.tree) :=
        (read_strip (r := .direct) v'.sorted.distinct).symm
      _ = read .direct (strip v.tree) := by rw [hv']
      _ = some b := (read_strip v.sorted.distinct).trans h
  · rw [fromValue_toValue_self, Option.map_some]

/-- The unknown member of `extendedText` is dropped. -/
theorem toValue_eq_strip_extendedText :
    (toValue serialize (.text "x")).tree = strip extendedText.tree ∧
      (fromValue deserialize (toValue serialize (.text "x"))).map (toValue serialize) =
        some (toValue serialize (.text "x")) :=
  have h := toValue_eq_strip (b := .text "x") taggedForm_extendedText rfl
  ⟨h.1, h.2.2⟩

end ContentBlock

end

end AgentPrimitives
