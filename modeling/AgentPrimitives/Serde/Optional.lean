import AgentPrimitives.Serde.Prune
import AgentPrimitives.Serde.Schema

/-!
# Optional fields without default

A variant with a field of type `Option` that has no default (`Variant.structBy`)
makes of an object what the variant makes that reads the field by default, and of
an array what the one makes that requires it. So it is lawful, follows its layout
and obeys its schema if both do.
-/

namespace Serde.Variant

variable {κ α τ : Type} {tag name : String} {onMap onSeq : Fields Content τ} {make : τ → α}

/-- From an array, only the fields for arrays are read. -/
theorem on_structBy_array (xs : List Json) :
    (structBy name onMap onSeq make).on tag (.array xs) =
      (struct name onSeq make).on tag (.array xs) := by
  cases xs <;> rfl

variable (hmap : (tag :: onMap.names).Nodup) (hseq : (tag :: onSeq.names).Nodup) {d : Json}

include hmap hseq

/-- Such a variant is lawful if the fields are for the form of the document. -/
theorem Lawful.structBy {S : κ → Layout κ} {fields : List (String × Shape κ)}
    (h : ∀ ms, d = .object ms → (onMap.comap Json.buffer).Lawful S .buffered d 1 fields)
    (h' : ∀ xs, d = .array xs → (onSeq.comap Json.buffer).Lawful S .buffered d 1 fields) :
    (Variant.structBy name onMap onSeq make).Lawful S d tag (name, fields) := by
  have hobject : ∀ ms, d = .object ms →
      (Variant.struct name onMap make).Lawful S d tag (name, fields) := fun ms hd =>
    .struct hmap (h ms hd)
  have harray : ∀ xs, d = .array xs →
      (Variant.struct name onSeq make).Lawful S d tag (name, fields) := fun xs hd =>
    .struct hseq (h' xs hd)
  constructor
  · rfl
  · intro hd d' hdd'
    cases d with
    | object ms =>
      obtain ⟨ns, ns', rfl, -, -⟩ := Json.reorder_object.1 hdd'
      exact (hobject ms rfl).reorder hd _ hdd'
    | array xs =>
      obtain ⟨ys, rfl, -⟩ := Json.reorder_array.1 hdd'
      rw [on_structBy_array, on_structBy_array]
      exact (harray xs rfl).reorder hd _ hdd'
    | _ => cases hdd'; rfl
  · intro a ha
    cases d with
    | object ms => exact (hobject ms rfl).once a ha
    | array xs =>
      rw [on_structBy_array] at ha
      exact (harray xs rfl).once a ha
    | _ => cases ha

/-- Such a variant follows if the fields do for the form of the document. -/
theorem Follows.structBy {R : Node κ → Json → Prop} {fields : List (String × Shape κ)}
    (h : ∀ ms, d = .object ms → (onMap.comap Json.buffer).Follows R .buffered d 1 fields)
    (h' : ∀ xs, d = .array xs → (onSeq.comap Json.buffer).Follows R .buffered d 1 fields) :
    (Variant.structBy name onMap onSeq make).Follows R d tag (name, fields) := by
  refine ⟨rfl, fun y hform hrel a ha => ?_⟩
  cases d with
  | object ms =>
    have hobject : (Variant.struct name onMap make).Follows R (.object ms) tag (name, fields) :=
      .struct hmap (h ms rfl)
    cases y with
    | object ns => exact hobject.on _ hform hrel a ha
    | _ => cases hform
  | array xs =>
    have harray : (Variant.struct name onSeq make).Follows R (.array xs) tag (name, fields) :=
      .struct hseq (h' xs rfl)
    cases y with
    | array ys =>
      rw [on_structBy_array] at ha ⊢
      exact harray.on _ hform hrel a ha
    | _ => cases hform
  | _ => cases ha

/-- What is demanded of an object may be less than what is demanded of an array. -/
theorem Obeys.structBy {S : κ → Schema κ} {fields : List (FieldCheck κ)}
    (h : ∀ ms, d = .object ms → (onMap.comap Json.buffer).Obeys S .buffered d 1 fields)
    (h' : ∀ xs, d = .array xs → (onSeq.comap Json.buffer).Obeys S .buffered d 1 fields) :
    (Variant.structBy name onMap onSeq make).Obeys S d tag (name, fields) := by
  refine ⟨rfl, fun hd => ?_⟩
  cases d with
  | object ms =>
    have hobject : (Variant.struct name onMap make).Obeys S (.object ms) tag (name, fields) :=
      .struct hmap (h ms rfl)
    exact hobject.on hd
  | array xs =>
    have harray : (Variant.struct name onSeq make).Obeys S (.array xs) tag (name, fields) :=
      .struct hseq (h' xs rfl)
    rw [on_structBy_array]
    exact harray.on hd
  | _ => simp [Variant.on, Json.Fits]

end Serde.Variant
