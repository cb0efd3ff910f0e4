import Mathlib.Data.String.Basic
import AgentPrimitives.Serde.Map

/-!
# JSON documents and values

A *document* (`Json`) is the tree a JSON text denotes: objects are lists of
members in the order they are written, and a name may be repeated. A *value*
(`Value`) is a document as `serde_json::Value` holds it, in which every object
is a sorted map. Reading a document as a value inserts the members of every
object, one after the other, into a map (`Json.toValue`): the order of the
members is forgotten, and of repeated names the last one wins.

Recursions over documents are folds (`Json.fold`); inductions use the
eliminator `Json.ind`, whose hypotheses range over the elements of an array
and the members of an object.
-/

namespace Serde

/-- A binary64 bit pattern is finite: its exponent is not all ones. -/
def IsFinite (bits : UInt64) : Prop := bits &&& 0x7ff0000000000000 ≠ 0x7ff0000000000000

instance (bits : UInt64) : Decidable (IsFinite bits) := inferInstanceAs (Decidable (_ ≠ _))

/-- `serde_json::Number`: an integer that fits in 64 bits, or else a finite
    binary64, given by its bits. -/
inductive Number
  | posInt (n : UInt64)
  | negInt (i : Int64) (neg : i < 0)
  | float (bits : UInt64) (finite : IsFinite bits)
  deriving DecidableEq

namespace Number

/-- `Number::from(i64)`: only negative integers are held as signed. -/
def fromI64 (i : Int64) : Number :=
  if neg : i < 0 then .negInt i neg else .posInt i.toUInt64

/-- `Number::from_f64`: infinities and NaNs are not numbers of JSON. -/
def fromF64 (bits : UInt64) : Option Number :=
  if finite : IsFinite bits then some (.float bits finite) else none

@[simp] theorem fromI64_of_neg {i : Int64} (neg : i < 0) : fromI64 i = .negInt i neg := dif_pos neg

@[simp] theorem fromF64_of_finite {bits : UInt64} (finite : IsFinite bits) :
    fromF64 bits = some (.float bits finite) := dif_pos finite

end Number

/-- A JSON document. -/
inductive Json
  | null
  | bool (b : Bool)
  | number (n : Number)
  | string (s : String)
  | array (xs : List Json)
  | object (ms : List (String × Json))

/-- The members of an object, or of what is made of one. -/
abbrev Members (β : Type*) := List (String × β)

namespace Json

/-! ## Recursion and induction -/

/-- What a fold makes of every form of document, from what it makes of the parts. -/
structure Algebra (β : Type*) where
  null : β
  bool : Bool → β
  number : Number → β
  string : String → β
  array : List β → β
  object : Members β → β

section Fold

variable {β : Type*} (A : Algebra β)

mutual

/-- The fold of a document by an algebra. -/
def fold : Json → β
  | .null => A.null
  | .bool b => A.bool b
  | .number n => A.number n
  | .string s => A.string s
  | .array xs => A.array (foldList xs)
  | .object ms => A.object (foldMembers ms)

/-- The elements of an array, folded. -/
def foldList : List Json → List β
  | [] => []
  | x :: xs => fold x :: foldList xs

/-- The members of an object, their values folded. -/
def foldMembers : Members Json → Members β
  | [] => []
  | (k, x) :: ms => (k, fold x) :: foldMembers ms

end

/-- The fold of a list, written out for the recursion, is a map. -/
theorem foldList_eq (xs : List Json) : foldList A xs = xs.map (fold A) := by
  induction xs with
  | nil => rfl
  | cons x xs ih => rw [foldList, ih, List.map_cons]

theorem foldMembers_eq (ms : Members Json) : foldMembers A ms = Map.mapValues (fold A) ms := by
  induction ms with
  | nil => rfl
  | cons m ms ih => rw [foldMembers, ih, Map.mapValues_cons]

theorem fold_array (xs : List Json) : fold A (.array xs) = A.array (xs.map (fold A)) := by
  rw [fold, foldList_eq]

theorem fold_object (ms : Members Json) :
    fold A (.object ms) = A.object (Map.mapValues (fold A) ms) := by
  rw [fold, foldMembers_eq]

end Fold

/-- Induction over documents, through the elements of arrays and the members
    of objects. -/
@[induction_eliminator]
theorem ind {P : Json → Prop} (null : P .null) (bool : ∀ b, P (.bool b))
    (number : ∀ n, P (.number n)) (string : ∀ s, P (.string s))
    (array : ∀ xs, (∀ x ∈ xs, P x) → P (.array xs))
    (object : ∀ ms : Members Json, (∀ m ∈ ms, P m.2) → P (.object ms)) (j : Json) : P j := by
  refine @Json.rec P (fun xs => ∀ x ∈ xs, P x) (fun ms => ∀ m ∈ ms, P m.2) (fun m => P m.2)
    null bool number string array object ?_ ?_ ?_ ?_ ?_ j
  · exact fun x hx => absurd hx List.not_mem_nil
  · exact fun x xs hx hxs => List.forall_mem_cons.2 ⟨hx, hxs⟩
  · exact fun x hx => absurd hx List.not_mem_nil
  · exact fun m ms hm hms => List.forall_mem_cons.2 ⟨hm, hms⟩
  · exact fun k x hx => hx

/-! ## Nesting -/

/-- The number of arrays and objects that are nested in one another. -/
def depth : Json → ℕ :=
  fold {
    null := 0
    bool := fun _ => 0
    number := fun _ => 0
    string := fun _ => 0
    array := fun ds => ds.foldr max 0 + 1
    object := fun ds => (ds.map Prod.snd).foldr max 0 + 1 }

theorem foldr_max_le {ds : List ℕ} {n : ℕ} : ds.foldr max 0 ≤ n ↔ ∀ d ∈ ds, d ≤ n := by
  induction ds with
  | nil => simp
  | cons d ds ih => rw [List.foldr_cons, Nat.max_le, ih, List.forall_mem_cons]

@[simp] theorem depth_null : depth .null = 0 := rfl
@[simp] theorem depth_bool (b : Bool) : depth (.bool b) = 0 := rfl
@[simp] theorem depth_number (n : Number) : depth (.number n) = 0 := rfl
@[simp] theorem depth_string (s : String) : depth (.string s) = 0 := rfl

theorem depth_array (xs : List Json) : depth (.array xs) = (xs.map depth).foldr max 0 + 1 :=
  fold_array _ xs

theorem depth_object (ms : Members Json) :
    depth (.object ms) = (ms.map fun m => m.2.depth).foldr max 0 + 1 := by
  rw [depth, fold_object]
  simp [Map.mapValues, Function.comp_def]

theorem depth_array_le {xs : List Json} {n : ℕ} :
    depth (.array xs) ≤ n + 1 ↔ ∀ x ∈ xs, x.depth ≤ n := by
  rw [depth_array, Nat.succ_le_succ_iff, foldr_max_le, List.forall_mem_map]

theorem depth_object_le {ms : Members Json} {n : ℕ} :
    depth (.object ms) ≤ n + 1 ↔ ∀ m ∈ ms, m.2.depth ≤ n := by
  rw [depth_object, Nat.succ_le_succ_iff, foldr_max_le, List.forall_mem_map]

/-- The items of an array are nested less deeply than it. -/
theorem depth_lt_array {xs : List Json} {x : Json} (h : x ∈ xs) : x.depth < depth (.array xs) := by
  rw [depth_array, Nat.lt_succ_iff]
  exact foldr_max_le.1 le_rfl _ (List.mem_map_of_mem h)

/-- The values of an object are nested less deeply than it. -/
theorem depth_lt_object {ms : Members Json} {m : String × Json} (h : m ∈ ms) :
    m.2.depth < depth (.object ms) := by
  rw [depth_object, Nat.lt_succ_iff]
  exact foldr_max_le.1 le_rfl _ (List.mem_map_of_mem (f := fun m => m.2.depth) h)

theorem depth_array_pos (xs : List Json) : 0 < depth (.array xs) := by
  rw [depth_array]
  exact Nat.succ_pos _

theorem depth_object_pos (ms : Members Json) : 0 < depth (.object ms) := by
  rw [depth_object]
  exact Nat.succ_pos _

/-- An array fits in `n` levels when one is left for it and its items fit in the rest. -/
theorem depth_array_le_iff {xs : List Json} {n : ℕ} :
    (array xs).depth ≤ n ↔ 0 < n ∧ ∀ x ∈ xs, x.depth < n := by
  cases n with
  | zero => simp [depth_array]
  | succ n => simp only [depth_array_le, Nat.lt_succ_iff, Nat.zero_le, true_and]

/-- An object fits in `n` levels when one is left for it and its values fit in the rest. -/
theorem depth_object_le_iff {ms : Members Json} {n : ℕ} :
    (object ms).depth ≤ n ↔ 0 < n ∧ ∀ m ∈ ms, m.2.depth < n := by
  cases n with
  | zero => simp [depth_object]
  | succ n => simp only [depth_object_le, Nat.lt_succ_iff, Nat.zero_le, true_and]

/-! ## Names -/

/-- Every object of a document, at any depth, has names satisfying `P`. -/
inductive Names (P : List String → Prop) : Json → Prop
  | null : Names P .null
  | bool (b : Bool) : Names P (.bool b)
  | number (n : Number) : Names P (.number n)
  | string (s : String) : Names P (.string s)
  | array {xs : List Json} : (∀ x ∈ xs, Names P x) → Names P (.array xs)
  | object {ms : Members Json} : P (Map.keys ms) → (∀ m ∈ ms, Names P m.2) → Names P (.object ms)

/-- No object of the document repeats a name. -/
abbrev Distinct : Json → Prop := Names List.Nodup

/-- Every object of the document is a sorted map. -/
abbrev Sorted : Json → Prop := Names (List.Pairwise (· < ·))

/-- A weaker condition on the names of every object holds where a stronger one does. -/
theorem Names.imp {P Q : List String → Prop} (h : ∀ ks, P ks → Q ks) {j : Json}
    (hj : j.Names P) : j.Names Q := by
  induction hj with
  | null => exact .null
  | bool b => exact .bool b
  | number n => exact .number n
  | string s => exact .string s
  | array _ ih => exact .array ih
  | object hks _ ih => exact .object (h _ hks) ih

theorem names_array {P : List String → Prop} {xs : List Json} :
    Names P (.array xs) ↔ ∀ x ∈ xs, Names P x :=
  ⟨fun | .array h => h, .array⟩

theorem names_object {P : List String → Prop} {ms : Members Json} :
    Names P (.object ms) ↔ P (Map.keys ms) ∧ ∀ m ∈ ms, Names P m.2 :=
  ⟨fun | .object h hms => ⟨h, hms⟩, fun h => .object h.1 h.2⟩

/-- A tree with sorted objects repeats no name. -/
theorem Sorted.distinct {j : Json} (h : j.Sorted) : j.Distinct :=
  h.imp fun _ hks => hks.imp fun hlt => hlt.ne

/-! ## Numbers -/

/-- Every number of the document satisfies `P`. -/
inductive Numbers (P : Number → Prop) : Json → Prop
  | null : Numbers P .null
  | bool (b : Bool) : Numbers P (.bool b)
  | number {n : Number} : P n → Numbers P (.number n)
  | string (s : String) : Numbers P (.string s)
  | array {xs : List Json} : (∀ x ∈ xs, Numbers P x) → Numbers P (.array xs)
  | object {ms : Members Json} : (∀ m ∈ ms, Numbers P m.2) → Numbers P (.object ms)

theorem numbers_array {P : Number → Prop} {xs : List Json} :
    Numbers P (.array xs) ↔ ∀ x ∈ xs, Numbers P x :=
  ⟨fun | .array h => h, .array⟩

theorem numbers_object {P : Number → Prop} {ms : Members Json} :
    Numbers P (.object ms) ↔ ∀ m ∈ ms, Numbers P m.2 :=
  ⟨fun | .object h => h, .object⟩

/-! ## Reading a document as a value -/

/-- The document with the members of every object inserted into a map. -/
def normalize : Json → Json :=
  fold {
    null := .null
    bool := .bool
    number := .number
    string := .string
    array := .array
    object := fun ms => .object (Map.collect ms) }

@[simp] theorem normalize_null : normalize .null = .null := rfl
@[simp] theorem normalize_bool (b : Bool) : normalize (.bool b) = .bool b := rfl
@[simp] theorem normalize_number (n : Number) : normalize (.number n) = .number n := rfl
@[simp] theorem normalize_string (s : String) : normalize (.string s) = .string s := rfl

@[simp] theorem normalize_array (xs : List Json) :
    normalize (.array xs) = .array (xs.map normalize) := fold_array _ xs

@[simp] theorem normalize_object (ms : Members Json) :
    normalize (.object ms) = .object (Map.collect (Map.mapValues normalize ms)) := fold_object _ ms

/-- A normalized tree is one that a `Value` holds. -/
theorem sorted_normalize (j : Json) : (normalize j).Sorted := by
  induction j with
  | null => exact .null
  | bool b => exact .bool b
  | number n => exact .number n
  | string s => exact .string s
  | array xs ih => exact normalize_array xs ▸ names_array.2 (List.forall_mem_map.2 ih)
  | object ms ih =>
    refine normalize_object ms ▸ .object (Map.sorted_collect _) fun m hm => ?_
    obtain ⟨m', hm', rfl⟩ := List.mem_map.1 (Map.mem_of_mem_collect hm)
    exact ih m' hm'

/-- A tree that a `Value` holds is normalized already. -/
theorem normalize_of_sorted {j : Json} (h : j.Sorted) : normalize j = j := by
  induction h with
  | null => rfl
  | bool b => rfl
  | number n => rfl
  | string s => rfl
  | array _ ih => rw [normalize_array, List.map_congr_left ih, List.map_id']
  | @object ms hks _ ih =>
    have hms : Map.mapValues normalize ms = ms := by
      rw [Map.mapValues_congr (g := id) ih]
      exact List.map_id ms
    rw [normalize_object, hms, Map.collect_of_sorted hks]

/-- The numbers of a tree are kept, or dropped, by its normalization. -/
theorem Numbers.normalize {P : Number → Prop} {j : Json} (h : j.Numbers P) :
    j.normalize.Numbers P := by
  induction h with
  | null => exact .null
  | bool b => exact .bool b
  | number hn => exact .number hn
  | string s => exact .string s
  | array _ ih => exact normalize_array _ ▸ .array (List.forall_mem_map.2 ih)
  | object _ ih =>
    refine normalize_object _ ▸ .object fun m hm => ?_
    obtain ⟨m', hm', rfl⟩ := List.mem_map.1 (Map.mem_of_mem_collect hm)
    exact ih m' hm'

/-- Inserting the members into maps adds no level. -/
theorem depth_normalize_le (j : Json) : j.normalize.depth ≤ j.depth := by
  induction j with
  | array xs ih =>
    rw [normalize_array, depth_array_le_iff]
    refine ⟨depth_array_pos xs, List.forall_mem_map.2 fun x hx => ?_⟩
    exact (ih x hx).trans_lt (depth_lt_array hx)
  | object ms ih =>
    rw [normalize_object, depth_object_le_iff]
    refine ⟨depth_object_pos ms, fun m hm => ?_⟩
    obtain ⟨m', hm', rfl⟩ := List.mem_map.1 (Map.mem_of_mem_collect hm)
    exact (ih m' hm').trans_lt (depth_lt_object hm')
  | _ => exact le_rfl

/-- The map made of an object is determined by what it holds at each name. -/
theorem normalize_object_eq {ms ns : Members Json} (hms : (Map.keys ms).Nodup) (hns : Map.Sorted ns)
    (h : ∀ k, (ms.lookup k).map normalize = ns.lookup k) :
    normalize (.object ms) = .object ns := by
  have hms' : (Map.keys (Map.mapValues normalize ms)).Nodup := by rwa [Map.keys_mapValues]
  rw [normalize_object]
  -- Both are maps, so it is enough that they hold the same at each name.
  refine congrArg object (Map.ext_lookup (Map.sorted_collect _) hns fun k => ?_)
  rw [Map.lookup_collect hms', Map.lookup_mapValues, h]

end Json

/-- A `serde_json::Value`: a document whose objects are sorted maps. -/
@[ext]
structure Value where
  tree : Json
  sorted : tree.Sorted

/-- `Value::Null`. -/
def Value.null : Value := ⟨.null, .null⟩

/-- The value a document is read as. -/
def Json.toValue (j : Json) : Value := ⟨j.normalize, j.sorted_normalize⟩

@[simp] theorem Json.toValue_tree (j : Json) : j.toValue.tree = j.normalize := rfl

/-- Reading back the document of a value gives the value. -/
@[simp] theorem Value.toValue_tree (v : Value) : v.tree.toValue = v :=
  Value.ext (Json.normalize_of_sorted v.sorted)

end Serde
