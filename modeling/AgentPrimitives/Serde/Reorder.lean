import AgentPrimitives.Serde.Document

/-!
# The order of members

Two documents differ in the order of members (`Json.Reorder`) if one is got
from the other by permuting the members of its objects, at any depth. Reading
them as values gives the same, if no object repeats a name
(`Json.Reorder.normalize_eq`); and inserting the members into maps is such a
permutation (`Json.Distinct.reorder_normalize`). A field is looked up in both
alike (`Fields.member_reorder`).
-/

namespace Serde

namespace Json

/-- The members of the objects of a document, at any depth, in another order. -/
inductive Reorder : Json → Json → Prop
  | null : Reorder .null .null
  | bool (b : Bool) : Reorder (.bool b) (.bool b)
  | number (n : Number) : Reorder (.number n) (.number n)
  | string (s : String) : Reorder (.string s) (.string s)
  | array {xs ys : List Json} : List.Forall₂ Reorder xs ys → Reorder (.array xs) (.array ys)
  | object {ms ns ns' : Members Json} : Map.keys ms = Map.keys ns →
      List.Forall₂ Reorder (ms.map Prod.snd) (ns.map Prod.snd) → ns.Perm ns' →
      Reorder (.object ms) (.object ns')

/-- Members with the same names in the same order, and reordered documents. -/
abbrev ReorderMembers : Members Json → Members Json → Prop :=
  List.Forall₂ fun m n => m.1 = n.1 ∧ Reorder m.2 n.2

theorem reorderMembers_iff {ms ns : Members Json} : ReorderMembers ms ns ↔
    Map.keys ms = Map.keys ns ∧ List.Forall₂ Reorder (ms.map Prod.snd) (ns.map Prod.snd) := by
  induction ms generalizing ns with
  | nil => cases ns <;> simp
  | cons m ms ih => cases ns <;> simp [ih, and_assoc, and_left_comm]

theorem reorder_array {xs : List Json} {j : Json} :
    Reorder (.array xs) j ↔ ∃ ys, j = .array ys ∧ List.Forall₂ Reorder xs ys := by
  constructor
  · rintro (_ | _ | _ | _ | h)
    exact ⟨_, rfl, h⟩
  · rintro ⟨ys, rfl, h⟩
    exact .array h

theorem reorder_object {ms : Members Json} {j : Json} :
    Reorder (.object ms) j ↔ ∃ ns ns', j = .object ns' ∧ ReorderMembers ms ns ∧ ns.Perm ns' := by
  constructor
  · rintro (_ | _ | _ | _ | _ | ⟨hks, hxs, hp⟩)
    exact ⟨_, _, rfl, reorderMembers_iff.2 ⟨hks, hxs⟩, hp⟩
  · rintro ⟨ns, ns', rfl, h, hp⟩
    exact .object (reorderMembers_iff.1 h).1 (reorderMembers_iff.1 h).2 hp

/-- A document is a reordering of itself. -/
theorem Reorder.refl (j : Json) : Reorder j j := by
  induction j with
  | null => exact .null
  | bool b => exact .bool b
  | number n => exact .number n
  | string s => exact .string s
  | array xs ih => exact .array (List.forall₂_same.2 ih)
  | object ms ih =>
    exact reorder_object.2 ⟨ms, ms, rfl, List.forall₂_same.2 fun m hm => ⟨rfl, ih m hm⟩, .refl ms⟩

/-- Members whose values are reordered make a reordered object. -/
theorem Reorder.of_members {ms ns : Members Json} (h : ReorderMembers ms ns) :
    Reorder (.object ms) (.object ns) := reorder_object.2 ⟨ns, ns, rfl, h, .refl ns⟩

/-- Reordering does not change the nesting. -/
theorem Reorder.depth_eq {j j' : Json} (h : Reorder j j') : j.depth = j'.depth := by
  induction j generalizing j' with
  | array xs ih =>
    obtain ⟨ys, rfl, hxs⟩ := reorder_array.1 h
    rw [depth_array, depth_array, map_eq_of_forall₂ hxs fun x hx y _ hxy => ih x hx hxy]
  | object ms ih =>
    obtain ⟨ns, ns', rfl, hms, hp⟩ := reorder_object.1 h
    rw [depth_object, depth_object, map_eq_of_forall₂ hms fun m hm n _ hmn => ih m hm hmn.2,
      (hp.map fun n => n.2.depth).foldr_eq' (fun a _ b _ n => max_left_comm b a n)]
  | _ => cases h; rfl

/-- A document without repeated names is a reordering of the map it is read as. -/
theorem Distinct.reorder_normalize {j : Json} (h : j.Distinct) : Reorder j j.normalize := by
  induction h with
  | null => exact .null
  | bool b => exact .bool b
  | number n => exact .number n
  | string s => exact .string s
  | array _ ih =>
    rw [normalize_array]
    exact .array (List.forall₂_map_right_iff.2 (List.forall₂_same.2 ih))
  | @object ms hks _ ih =>
    rw [normalize_object]
    refine reorder_object.2 ⟨Map.mapValues normalize ms, _, rfl, ?_, (Map.collect_perm ?_).symm⟩
    · exact List.forall₂_map_right_iff.2 (List.forall₂_same.2 fun m hm => ⟨rfl, ih m hm⟩)
    · rwa [Map.keys_mapValues]

/-- Reordered documents without repeated names are read as the same value. -/
theorem Reorder.normalize_eq {j j' : Json} (h : Reorder j j') (hj : j.Distinct) :
    j.normalize = j'.normalize := by
  induction hj generalizing j' with
  | @array xs _ ih =>
    obtain ⟨ys, rfl, hxs⟩ := reorder_array.1 h
    rw [normalize_array, normalize_array, map_eq_of_forall₂ hxs fun x hx y _ hxy => ih x hx hxy]
  | @object ms hks _ ih =>
    obtain ⟨ns, ns', rfl, hms, hp⟩ := reorder_object.1 h
    have hns : Map.mapValues normalize ms = Map.mapValues normalize ns :=
      map_eq_of_forall₂ hms fun m hm n _ hmn => Prod.ext hmn.1 (ih m hm hmn.2)
    rw [normalize_object, normalize_object, hns]
    have hks' : (Map.keys (Map.mapValues normalize ns)).Nodup := by rwa [← hns, Map.keys_mapValues]
    rw [Map.collect_eq_of_perm hks' (hp.map _)]
    rfl
  | _ => cases h; rfl

end Json

open Json

/-! ## Reading reordered documents -/

section Readers

variable {α : Type} {x y : Json}

/-- Reordering an object does not change which names its members have, nor how
    often. -/
theorem Json.ReorderMembers.filter {ms ns : Members Json} (h : ReorderMembers ms ns)
    (p : String → Bool) : ReorderMembers (ms.filter fun m => p m.1) (ns.filter fun n => p n.1) := by
  induction h with
  | nil => exact .nil
  | @cons m n ms ns hmn _ ih =>
    rw [List.filter_cons, List.filter_cons, hmn.1]
    split
    · exact .cons hmn ih
    · exact ih

/-- The one member of a field is read alike, and two are too many in any order. -/
theorem Fields.resolve_reorder {read : Json → Option α} {ms ns ns' : Members Json}
    (h : ReorderMembers ms ns) (hp : ns.Perm ns')
    (hread : ∀ m ∈ ms, ∀ y, m.2.Reorder y → read m.2 = read y) (missing slot : Option α) :
    resolve read missing slot ms = resolve read missing slot ns' := by
  cases h with
  | nil => rw [List.nil_perm.1 hp]
  | @cons m n ms ns hmn hms =>
    cases hms with
    | nil =>
      rw [List.perm_singleton.1 hp.symm, resolve, resolve, hread m (by simp) n.2 hmn.2]
    | cons hmn' hms =>
      -- Two members, before and after.
      rcases ns' with _ | ⟨n', _ | ⟨n'', ns'⟩⟩
      · cases hp.length_eq
      · cases hp.length_eq
      · rfl

/-- A field is looked up alike among reordered members. -/
theorem Fields.member_reorder {read : Json → Option α} {ms ns ns' : Members Json}
    (h : ReorderMembers ms ns) (hp : ns.Perm ns') (name : String)
    (hread : ∀ m ∈ ms, m.1 = name → ∀ y, m.2.Reorder y → read m.2 = read y)
    (missing slot : Option α) :
    member name read missing slot ms = member name read missing slot ns' := by
  refine resolve_reorder (h.filter fun k => decide (k = name)) (hp.filter _) (fun m hm => ?_)
    missing slot
  rw [List.mem_filter, decide_eq_true_eq] at hm
  exact hread m hm.1 hm.2

theorem readString_reorder (h : x.Reorder y) : readString x = readString y := by
  cases h <;> rfl

theorem readBool_reorder (h : x.Reorder y) : readBool x = readBool y := by
  cases h <;> rfl

theorem readParsed_reorder [StringCodec α] (h : x.Reorder y) :
    (readParsed x : Option α) = readParsed y := by
  rw [readParsed, readString_reorder h, readParsed]

/-- A payload does not depend on the order of its members, as long as no name is
    repeated: of a repeated one, the last value is kept. -/
theorem readValue_reorder (h : x.Reorder y) (hx : x.Distinct) : readValue x = readValue y :=
  congrArg some (Value.ext (h.normalize_eq hx))

/-- A tag is a string or a number: there is nothing to reorder in it. -/
theorem Route.readTag_reorder (r : Route) (names : List String) (h : x.Reorder y) :
    r.readTag names x = r.readTag names y := by
  cases h with
  | array h => cases r <;> rfl
  | object h => cases r <;> rfl
  | _ => rfl

theorem Route.unit_reorder (r : Route) (h : x.Reorder y) : r.unit x = r.unit y := by
  cases h with
  | array h => cases r <;> rfl
  | @object ms ns ns' hks _ hp =>
    cases r with
    | direct => rfl
    | buffered =>
      -- Only the empty map is the unit, and it stays empty.
      cases ms with
      | nil =>
        cases ns with
        | nil => rw [List.nil_perm.1 hp]
        | cons n ns => cases hks
      | cons m ms =>
        rcases ns' with _ | ⟨n', ns'⟩
        · rw [List.perm_nil.1 hp] at hks
          cases hks
        · rfl
  | _ => rfl

theorem read_readUnitVariant_reorder (r : Route) (variants : Members α) (h : x.Reorder y) :
    r.read (readUnitVariant variants) (readUnitVariant variants) x =
      r.read (readUnitVariant variants) (readUnitVariant variants) y := by
  refine Option.ext fun a => ?_
  rw [read_readUnitVariant_eq_some, read_readUnitVariant_eq_some]
  refine exists_congr fun name => and_congr_right fun _ => ?_
  cases x with
  | object ms =>
    obtain ⟨ns, ns', rfl, hms, hp⟩ := reorder_object.1 h
    -- The name of the only member stays, and its value is reordered.
    refine or_congr (by simp) ⟨?_, ?_⟩
    · rintro ⟨d, hd, hunit⟩
      cases hd
      obtain ⟨⟨_, d'⟩, _, ⟨rfl, hdd'⟩, hnil, rfl⟩ := List.forall₂_cons_left_iff.1 hms
      cases hnil
      rw [List.perm_singleton.1 hp.symm]
      exact ⟨d', rfl, r.unit_reorder hdd' ▸ hunit⟩
    · rintro ⟨d', hd', hunit⟩
      cases hd'
      rw [List.perm_singleton.1 hp] at hms
      obtain ⟨⟨_, d⟩, _, ⟨rfl, hdd'⟩, hnil, rfl⟩ := List.forall₂_cons_right_iff.1 hms
      cases hnil
      exact ⟨d, rfl, r.unit_reorder hdd' ▸ hunit⟩
  | array xs =>
    obtain ⟨ys, rfl, -⟩ := reorder_array.1 h
    simp
  | _ => cases h; exact Iff.rfl

end Readers

end Serde
