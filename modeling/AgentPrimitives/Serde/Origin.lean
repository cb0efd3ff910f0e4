import AgentPrimitives.Serde.Document

/-!
# Where what is read comes from

A struct, or a variant of an internally tagged enum, is read from the values in
its document: every field from one of them, or it is missing (`Fields.From`).
This also holds of documents in which names are repeated.
-/

namespace Serde

variable {α τ : Type}

/-- The values in an object or an array. -/
def Json.values : Json → List Json
  | .object ms => ms.map Prod.snd
  | .array xs => xs
  | _ => []

/-- What a document holds is nested less deeply than it. -/
theorem Json.depth_values (j : Json) : ∀ x ∈ j.values, x.depth < j.depth := by
  cases j with
  | array xs => exact fun x => depth_lt_array
  | object ms => exact List.forall_mem_map.2 fun m => depth_lt_object
  | _ => exact fun x hx => absurd hx List.not_mem_nil

/-- Every field is read from a document satisfying `P`, or missing. -/
def Fields.From (P : Json → Prop) : {τ : Type} → Fields Json τ → τ → Prop
  | _, .nil, _ => True
  | _, .cons _ read missing _ rest, (a, t) =>
    ((∃ d, P d ∧ read d = some a) ∨ missing = some a) ∧ rest.From P t

namespace Fields

@[simp] theorem from_nil {P : Json → Prop} (t : Unit) : (nil : Fields Json Unit).From P t := trivial

@[simp] theorem from_cons {P : Json → Prop} {name : String} {read : Json → Option α}
    {missing slot : Option α} {rest : Fields Json τ} {a : α} {t : τ} :
    (cons name read missing slot rest).From P (a, t) ↔
      ((∃ d, P d ∧ read d = some a) ∨ missing = some a) ∧ rest.From P t := Iff.rfl

variable {P : Json → Prop} {fs : Fields Json τ} {t : τ}

/-- Fields read from members come from their values, or are filled in. -/
theorem from_of_lookups (hfs : fs.fresh) {ms : Members Json} (hms : ∀ m ∈ ms, P m.2)
    (h : fs.lookups ms = some t) : fs.From P t := by
  induction fs with
  | nil => trivial
  | cons name read missing slot rest ih =>
    rw [fresh, Bool.and_eq_true, Option.isNone_iff_eq_none] at hfs
    obtain ⟨a, ha, h⟩ := Option.bind_eq_some_iff.1 h
    obtain ⟨t, ht, rfl⟩ := Option.map_eq_some_iff.1 h
    refine ⟨?_, ih hfs.2 ht⟩
    rw [hfs.1, member] at ha
    -- The field is read from the only member with its name, if there is one.
    rcases hmembers : ms.filter (fun m => m.1 = name) with _ | ⟨m, _ | ⟨m', ms'⟩⟩
    · rw [hmembers] at ha
      exact .inr ha
    · rw [hmembers] at ha
      have hm : m ∈ ms := List.mem_of_mem_filter (hmembers ▸ List.mem_cons_self)
      exact .inl ⟨m.2, hms m hm, ha⟩
    · rw [hmembers] at ha
      cases ha

/-- Fields read from elements come from them, or are filled in. -/
theorem from_of_visitSeq {xs : List Json} (hxs : ∀ x ∈ xs, P x) (h : fs.visitSeq xs = some t) :
    fs.From P t := by
  induction fs generalizing xs with
  | nil => trivial
  | cons name read missing slot rest ih =>
    cases xs with
    | nil =>
      obtain ⟨a, ha, h⟩ := Option.bind_eq_some_iff.1 h
      obtain ⟨t, ht, rfl⟩ := Option.map_eq_some_iff.1 h
      exact ⟨.inr ha, ih hxs ht⟩
    | cons x xs =>
      obtain ⟨a, ha, h⟩ := Option.bind_eq_some_iff.1 h
      obtain ⟨t, ht, rfl⟩ := Option.map_eq_some_iff.1 h
      rw [List.forall_mem_cons] at hxs
      exact ⟨.inl ⟨x, hxs.1, ha⟩, ih hxs.2 ht⟩

end Fields

variable {P : Json → Prop} {j : Json}

/-- A struct is read from an array or an object only. -/
theorem depth_pos_of_structOn {fs : Fields Json τ} {t : τ} (h : structOn fs j = some t) :
    0 < j.depth := by
  cases j with
  | array xs => exact Json.depth_array_pos xs
  | object ms => exact Json.depth_object_pos ms
  | _ => cases h

/-- A tagged enum is read from an array or an object only. -/
theorem depth_pos_of_taggedOn {r : Route} {tag : String} {variants : List (Variant α)} {a : α}
    (h : taggedOn r tag variants j = some a) : 0 < j.depth := by
  cases j with
  | array xs => exact Json.depth_array_pos xs
  | object ms => exact Json.depth_object_pos ms
  | _ => cases h

/-- The fields of a struct come from what the document holds. -/
theorem from_of_structOn {fs : Fields Json τ} (hfs : fs.fresh) (hj : ∀ x ∈ j.values, P x) {t : τ}
    (h : structOn fs j = some t) : fs.From P t := by
  cases j with
  | object ms => exact Fields.from_of_lookups hfs (fun m hm => hj m.2 (List.mem_map_of_mem hm)) h
  | array xs => exact Fields.from_of_visitSeq hj h
  | _ => cases h

/-- A tagged enum is read by one of its variants. -/
theorem exists_variant_of_taggedOn {r : Route} {tag : String} {variants : List (Variant α)} {a : α}
    (h : taggedOn r tag variants j = some a) : ∃ v ∈ variants, v.on tag j = some a := by
  rw [taggedOn_eq_selects, Option.bind_eq_some_iff] at h
  obtain ⟨i, -, h⟩ := h
  obtain ⟨v, hv, h⟩ := Option.bind_eq_some_iff.1 h
  exact ⟨v, List.mem_of_getElem? hv, h⟩

/-- The fields of a variant come from what the document holds. -/
theorem from_of_struct_on {tag name : String} {fs : Fields Content τ} {make : τ → α}
    (hnames : fs.names.Nodup) (hfresh : fs.fresh) (hj : ∀ x ∈ j.values, P x) {a : α}
    (h : (Variant.struct name fs make).on tag j = some a) :
    ∃ t, (fs.comap Json.buffer).From P t ∧ make t = a := by
  have hfresh' : (fs.comap Json.buffer).fresh := (Fields.fresh_comap _ _).trans hfresh
  cases j with
  | object ms =>
    rw [Variant.on, Variant.onMembers_struct hnames, Option.map_eq_some_iff] at h
    obtain ⟨t, ht, rfl⟩ := h
    refine ⟨t, Fields.from_of_lookups hfresh' (fun m hm => ?_) ht, rfl⟩
    exact hj m.2 (List.mem_map_of_mem (List.mem_of_mem_filter hm))
  | array xs =>
    cases xs with
    | nil => cases h
    | cons x xs =>
      rw [Variant.on, Variant.onElements_struct hnames, Option.map_eq_some_iff] at h
      obtain ⟨t, ht, rfl⟩ := h
      exact ⟨t, Fields.from_of_visitSeq (fun y hy => hj y (List.mem_cons_of_mem x hy)) ht, rfl⟩
  | _ => cases h

end Serde
