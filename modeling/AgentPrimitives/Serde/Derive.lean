import AgentPrimitives.Serde.Deserializer

/-!
# Derived decoders

The decoders `#[derive(Deserialize)]` generates, for any deserializer, from a
description of the type.

* A struct is described by its fields (`Fields`): the name of each, how it is
  read, and what it is when it is missing. It is read from a map, one member
  after the other, into a slot for each field (`Fields.visitMap`), or from a
  sequence, by position (`Fields.visitSeq`).
* An internally tagged enum is described by its tag and its variants
  (`Variant`). The tag is found in a map, wherever it is, while the other
  members are buffered (`tagMembers`), or first in a sequence; the variant it
  selects is read from the buffer (`internallyTagged`).

The loop over the members amounts to looking up every field
(`Fields.visitMap_eq`), and the search for the tag to looking it up
(`tagMembers_eq`).
-/

namespace Serde

/-- The fields of a struct with contents `τ`, read from `δ`, each with the slot
    its contents are read into. A field is required if it is nothing when
    `missing`. -/
inductive Fields (δ : Type) : Type → Type 1
  | nil : Fields δ Unit
  | cons {α τ : Type} (name : String) (read : δ → Option α) (missing slot : Option α)
      (rest : Fields δ τ) : Fields δ (α × τ)

namespace Fields

variable {δ ε α : Type} {τ : Type}

/-- A field without default. -/
abbrev required (name : String) (read : δ → Option α) (rest : Fields δ τ) : Fields δ (α × τ) :=
  .cons name read none none rest

/-- A field with a default. -/
abbrev default (name : String) (read : δ → Option α) (a : α) (rest : Fields δ τ) :
    Fields δ (α × τ) := .cons name read (some a) none rest

/-- The names of the fields, in order. -/
def names {τ : Type} : Fields δ τ → List String
  | .nil => []
  | .cons name _ _ _ rest => name :: rest.names

/-! ## Reading a map -/

/-- Reading the member `key` into its slot, which must be empty. A member that
    is no field is ignored. -/
def store {τ : Type} (key : String) (d : δ) : Fields δ τ → Option (Fields δ τ)
  | .nil => some .nil
  | .cons name read missing slot rest =>
    if key = name then
      if slot.isSome then none else (read d).map fun a => .cons name read missing (some a) rest
    else (rest.store key d).map (.cons name read missing slot)

/-- Reading the members, one after the other. -/
def storeAll (fs : Fields δ τ) : Members δ → Option (Fields δ τ)
  | [] => some fs
  | (key, d) :: ms => (fs.store key d).bind fun fs => fs.storeAll ms

/-- The contents of the slots, the empty ones being missing. -/
def finish {τ : Type} : Fields δ τ → Option τ
  | .nil => some ()
  | .cons _ _ missing slot rest =>
    (slot.or missing).bind fun a => rest.finish.map fun t => (a, t)

/-- `visit_map`. -/
def visitMap (fs : Fields δ τ) (ms : Members δ) : Option τ := (fs.storeAll ms).bind finish

/-! ## Reading a sequence -/

/-- `visit_seq`, and the check that no element remains. -/
def visitSeq {τ : Type} : Fields δ τ → List δ → Option τ
  | .nil, [] => some ()
  | .nil, _ :: _ => none
  | .cons _ _ missing _ rest, [] => missing.bind fun a => (rest.visitSeq []).map fun t => (a, t)
  | .cons _ read _ _ rest, d :: ds => (read d).bind fun a => (rest.visitSeq ds).map fun t => (a, t)

/-! ## Looking up the fields -/

/-- What a slot is in the end, given the members with the name of the field:
    what it was, or what the only member is read as. -/
def resolve (read : δ → Option α) (missing slot : Option α) : Members δ → Option α
  | [] => slot.or missing
  | [m] => if slot.isSome then none else read m.2
  | _ :: _ :: _ => none

/-- The slot of the field `name`, given all members. -/
def member (name : String) (read : δ → Option α) (missing slot : Option α) (ms : Members δ) :
    Option α := resolve read missing slot (ms.filter fun m => m.1 = name)

/-- Every field, looked up among the members. -/
def lookups {τ : Type} : Fields δ τ → Members δ → Option τ
  | .nil, _ => some ()
  | .cons name read missing slot rest, ms =>
    (member name read missing slot ms).bind fun a => (rest.lookups ms).map fun t => (a, t)

@[simp] theorem lookups_nil (ms : Members δ) : (nil : Fields δ Unit).lookups ms = some () := rfl

/-- A member of another name is passed over. -/
theorem member_cons_of_ne {name : String} {m : String × δ} (h : m.1 ≠ name)
    (read : δ → Option α) (missing slot : Option α) (ms : Members δ) :
    member name read missing slot (m :: ms) = member name read missing slot ms := by
  rw [member, List.filter_cons_of_neg (by simpa using h), member]

/-- The first member fills an empty slot; a filled one rejects it. -/
theorem resolve_cons (read : δ → Option α) (missing slot : Option α) (m : String × δ) :
    ∀ ms : Members δ, resolve read missing slot (m :: ms) =
      if slot.isSome then none else (read m.2).bind fun a => resolve read missing (some a) ms
  | [] => by simp [resolve]
  | [_] => by simp [resolve]
  | _ :: _ :: _ => by simp [resolve]

/-- A member of the name fills an empty slot; a filled one rejects it. -/
theorem member_cons_self (read : δ → Option α) (missing slot : Option α) (m : String × δ)
    (ms : Members δ) :
    member m.1 read missing slot (m :: ms) =
      if slot.isSome then none
      else (read m.2).bind fun a => member m.1 read missing (some a) ms := by
  rw [member, List.filter_cons_of_pos (by simp), resolve_cons]
  rfl

/-- An unknown member is passed over. -/
theorem lookups_cons_of_not_mem {fs : Fields δ τ} {m : String × δ} (h : m.1 ∉ fs.names)
    (ms : Members δ) : fs.lookups (m :: ms) = fs.lookups ms := by
  induction fs with
  | nil => rfl
  | cons name read missing slot rest ih =>
    rw [names, List.mem_cons, not_or] at h
    rw [lookups, lookups, member_cons_of_ne h.1, ih h.2]

/-- Reading one member into its slot, then looking up the others, is looking
    them all up. -/
theorem store_bind_lookups {fs : Fields δ τ} (hfs : fs.names.Nodup) (m : String × δ)
    (ms : Members δ) :
    ((fs.store m.1 m.2).bind fun fs => fs.lookups ms) = fs.lookups (m :: ms) := by
  induction fs with
  | nil => rfl
  | cons name read missing slot rest ih =>
    rw [names, List.nodup_cons] at hfs
    rw [store, lookups]
    by_cases hm : m.1 = name
    · -- The member of this field: no later field has its name.
      subst hm
      rw [if_pos rfl, member_cons_self, lookups_cons_of_not_mem hfs.1]
      split_ifs with hslot
      · rfl
      · rw [Option.map_eq_bind, Option.bind_assoc, Option.bind_assoc]
        rfl
    · rw [if_neg hm, member_cons_of_ne hm, ← ih hfs.2]
      cases rest.store m.1 m.2 with
      | none => simp
      | some rest' => rfl

/-- Storing a member fills a slot, and leaves the names as they are. -/
theorem names_store {fs fs' : Fields δ τ} {key : String} {d : δ} (h : fs.store key d = some fs') :
    fs'.names = fs.names := by
  induction fs with
  | nil =>
    cases h
    rfl
  | cons name read missing slot rest ih =>
    rw [store] at h
    split_ifs at h
    · obtain ⟨a, -, rfl⟩ := Option.map_eq_some_iff.1 h
      rfl
    · obtain ⟨rest', hrest, rfl⟩ := Option.map_eq_some_iff.1 h
      rw [names, names, ih hrest]

/-- Reading a map member by member is looking up its fields. -/
theorem visitMap_eq {fs : Fields δ τ} (hfs : fs.names.Nodup) (ms : Members δ) :
    fs.visitMap ms = fs.lookups ms := by
  rw [visitMap]
  induction ms generalizing fs with
  | nil =>
    rw [storeAll, Option.bind_some]
    clear hfs
    -- No member is left: every slot is what it was, or missing.
    induction fs with
    | nil => rfl
    | cons name read missing slot rest ih =>
      rw [finish, lookups, ih]
      cases slot <;> rfl
  | cons m ms ih =>
    rw [storeAll, ← store_bind_lookups hfs, Option.bind_assoc]
    refine Option.bind_congr fun fs' hfs' => ih ?_
    rwa [names_store hfs']

theorem resolve_congr {read read' : δ → Option α} (missing slot : Option α) :
    ∀ {ms : Members δ}, (∀ m ∈ ms, read m.2 = read' m.2) →
      resolve read missing slot ms = resolve read' missing slot ms
  | [], _ => rfl
  | [m], h => by rw [resolve, resolve, h m (List.mem_singleton_self m)]
  | _ :: _ :: _, _ => rfl

/-- A field depends on its decoder only at the members. -/
theorem member_congr (name : String) {read : δ → Option α} (read' : δ → Option α)
    (missing slot : Option α) {ms : Members δ} (h : ∀ m ∈ ms, read m.2 = read' m.2) :
    member name read missing slot ms = member name read' missing slot ms :=
  resolve_congr missing slot fun m hm => h m (List.mem_of_mem_filter hm)

/-- A field is looked up past the members of another name. -/
theorem member_filter {name tag : String} (h : name ≠ tag) (read : δ → Option α)
    (missing slot : Option α) (ms : Members δ) :
    member name read missing slot (ms.filter fun m => m.1 ≠ tag) =
      member name read missing slot ms := by
  rw [member, List.filter_filter, member]
  congr 2
  funext m
  by_cases hm : m.1 = name <;> simp [hm, h]

/-- The fields of a variant do not see the tag. -/
theorem lookups_filter {fs : Fields δ τ} {tag : String} (h : tag ∉ fs.names) (ms : Members δ) :
    fs.lookups (ms.filter fun m => m.1 ≠ tag) = fs.lookups ms := by
  induction fs with
  | nil => rfl
  | cons name read missing slot rest ih =>
    rw [names, List.mem_cons, not_or] at h
    rw [lookups, lookups, member_filter (Ne.symm h.1), ih h.2]

/-! ## Changing the deserializer -/

/-- The same fields, read through `f`. -/
def comap {τ : Type} (f : δ → ε) : Fields ε τ → Fields δ τ
  | .nil => .nil
  | .cons name read missing slot rest =>
    .cons name (fun d => read (f d)) missing slot (rest.comap f)

@[simp] theorem names_comap (f : δ → ε) (fs : Fields ε τ) : (fs.comap f).names = fs.names := by
  induction fs with
  | nil => rfl
  | cons name read missing slot rest ih => rw [comap, names, names, ih]

theorem filter_mapValues (p : String → Bool) (f : δ → ε) (ms : Members δ) :
    (Map.mapValues f ms).filter (fun m => p m.1) =
      Map.mapValues f (ms.filter fun m => p m.1) := by
  rw [Map.mapValues, List.filter_map]
  rfl

theorem resolve_mapValues (read : ε → Option α) (missing slot : Option α) (f : δ → ε) :
    ∀ ms : Members δ, resolve read missing slot (Map.mapValues f ms) =
      resolve (fun d => read (f d)) missing slot ms
  | [] => rfl
  | [_] => rfl
  | _ :: _ :: _ => rfl

theorem member_mapValues (name : String) (read : ε → Option α) (missing slot : Option α)
    (f : δ → ε) (ms : Members δ) :
    member name read missing slot (Map.mapValues f ms) =
      member name (fun d => read (f d)) missing slot ms := by
  rw [member, filter_mapValues fun k => decide (k = name), resolve_mapValues, member]

/-- Fields read mapped members as the fields mapped read the members. -/
theorem lookups_mapValues (fs : Fields ε τ) (f : δ → ε) (ms : Members δ) :
    fs.lookups (Map.mapValues f ms) = (fs.comap f).lookups ms := by
  induction fs with
  | nil => rfl
  | cons name read missing slot rest ih => rw [comap, lookups, lookups, member_mapValues, ih]

/-- Fields read mapped items as the fields mapped read the items. -/
theorem visitSeq_map (fs : Fields ε τ) (f : δ → ε) (ds : List δ) :
    fs.visitSeq (ds.map f) = (fs.comap f).visitSeq ds := by
  induction fs generalizing ds with
  | nil => cases ds <;> rfl
  | cons name read missing slot rest ih =>
    cases ds with
    | nil => rw [List.map_nil, comap, visitSeq, visitSeq, ← ih, List.map_nil]
    | cons d ds => rw [List.map_cons, comap, visitSeq, visitSeq, ih]

end Fields

/-- A struct. -/
def deserializeStruct {δ τ : Type} [Deserializer δ] (fs : Fields δ τ) (d : δ) : Option τ :=
  match any d with
  | .seq ds => fs.visitSeq ds
  | .map ms => fs.visitMap ms
  | _ => none

/-- A struct with a field of type `Option` that has no default: it is nothing when
    it is missing from a map (`missing_field`), but a sequence must have it. The
    fields are given as they are read from either. -/
def deserializeStructBy {δ τ : Type} [Deserializer δ] (onMap onSeq : Fields δ τ) (d : δ) :
    Option τ :=
  match any d with
  | .seq ds => onSeq.visitSeq ds
  | .map ms => onMap.visitMap ms
  | _ => none

/-! ## Internally tagged enums -/

/-- A variant: its name, and how its contents are read from the buffer. -/
structure Variant (α : Type) where
  name : String
  visit : Content → Option α

namespace Variant

variable {α τ : Type}

/-- A variant without fields: the members that are buffered are ignored, but
    nothing may remain of a sequence. -/
def unit (name : String) (a : α) : Variant α where
  name := name
  visit
    | .seq [] => some a
    | .map _ => some a
    | _ => none

/-- A variant with fields. -/
def struct (name : String) (fs : Fields Content τ) (make : τ → α) : Variant α where
  name := name
  visit c := (deserializeStruct fs c).map make

/-- A variant with a field of type `Option` that has no default. -/
def structBy (name : String) (onMap onSeq : Fields Content τ) (make : τ → α) : Variant α where
  name := name
  visit c := (deserializeStructBy onMap onSeq c).map make

end Variant

section Tagged

variable {δ α ν : Type} [Deserializer δ]

/-- The variant an identifier selects among the names: itself or its index. -/
def selectVariant (names : List String) : Ident → Option ℕ
  | .name s => names.idxOf? s
  | .index n => if n.toNat < names.length then some n.toNat else none

/-- Reading the tag, as the index of a variant. -/
def readTag (names : List String) (d : δ) : Option ℕ :=
  (identifier d).bind (selectVariant names)

/-- Reading the contents of the variant with index `i`. -/
def visitVariant (variants : List (Variant α)) (i : ℕ) (c : Content) : Option α :=
  variants[i]?.bind fun v => v.visit c

/-- Searching the members for the tag, which must occur once, and buffering the
    others (`TaggedContentVisitor::visit_map`). -/
def tagMembers (tag : String) (read : δ → Option ν) :
    Members δ → Option ν → Members Content → Option (ν × Members Content)
  | [], found, buffered => found.map fun v => (v, buffered)
  | (key, d) :: ms, found, buffered =>
    if key = tag then
      if found.isSome then none
      else (read d).bind fun v => tagMembers tag read ms (some v) buffered
    else tagMembers tag read ms found (buffered ++ [(key, content d)])

/-- An internally tagged enum. -/
def internallyTagged (tag : String) (variants : List (Variant α)) (d : δ) : Option α :=
  match any d with
  | .seq (t :: ds) => (readTag (variants.map Variant.name) t).bind fun i =>
      visitVariant variants i (.seq (ds.map content))
  | .map ms => (tagMembers tag (readTag (variants.map Variant.name)) ms none []).bind
      fun (i, ms) => visitVariant variants i (.map ms)
  | _ => none

/-- Searching for the tag is looking it up. -/
theorem tagMembers_eq (tag : String) (read : δ → Option ν) (ms : Members δ) (found : Option ν)
    (buffered : Members Content) :
    tagMembers tag read ms found buffered =
      (Fields.member tag read none found ms).map fun v =>
        (v, buffered ++ Map.mapValues content (ms.filter fun m => m.1 ≠ tag)) := by
  induction ms generalizing found buffered with
  | nil => cases found <;> simp [tagMembers, Fields.member, Fields.resolve]
  | cons m ms ih =>
    rw [tagMembers]
    split_ifs with hkey hfound
    · -- The tag was found before.
      rw [← hkey, Fields.member_cons_self, if_pos hfound, Option.map_none]
    · -- The tag is found here: from here on it must not be found again.
      rw [← hkey, Fields.member_cons_self, if_neg hfound, Option.map_bind]
      refine Option.bind_congr fun v _ => ?_
      rw [hkey, ih, Function.comp_apply, List.filter_cons_of_neg (by simpa using hkey)]
    · -- Any other member is buffered.
      rw [Fields.member_cons_of_ne hkey, ih, List.filter_cons_of_pos (by simpa using hkey)]
      simp

end Tagged

/-! ## Encoders -/

/-- The object written for a variant of an internally tagged enum: its tag, then
    its fields. -/
def tagged (tag name : String) (ms : Members Json) : Json := .object ((tag, .string name) :: ms)

/-- A tagged object fits in `n` levels when one is left for it and its values fit in the
    rest. -/
theorem depth_tagged_le_iff {tag name : String} {ms : Members Json} {n : ℕ} :
    (tagged tag name ms).depth ≤ n ↔ 0 < n ∧ ∀ m ∈ ms, m.2.depth < n := by
  rw [tagged, Json.depth_object_le_iff, List.forall_mem_cons]
  exact and_congr_right fun hn => and_iff_right hn

/-- The field `name`, left out when `skip` says so (`skip_serializing_if`). -/
def memberUnless (skip : Bool) (name : String) (j : Json) : Members Json :=
  if skip then [] else [(name, j)]

end Serde
