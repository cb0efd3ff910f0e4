import AgentPrimitives.Serde.Json

/-!
# Buffered content

An internally tagged enum cannot tell how to read its members before it has
seen its tag, which may come last: serde buffers them as `Content` and reads
them again from there. The variants below are those a JSON document is buffered
as (the names of members being strings). A buffered number has lost what made
it a number of JSON, and is checked again when it is read.

Reading a value out of the buffer gives what reading it from the document
gives (`Content.toValue_buffer`).
-/

namespace Serde

/-- `serde::__private::de::Content`. -/
inductive Content
  | unit
  | bool (b : Bool)
  | u64 (n : UInt64)
  | i64 (i : Int64)
  | f64 (bits : UInt64)
  | string (s : String)
  | seq (cs : List Content)
  | map (ms : List (String × Content))

namespace Content

mutual

/-- The number of sequences and maps that are nested in one another. -/
def depth : Content → ℕ
  | .seq cs => depthList cs + 1
  | .map ms => depthMembers ms + 1
  | _ => 0

/-- The depth of the elements of a sequence. -/
def depthList : List Content → ℕ
  | [] => 0
  | c :: cs => max (depth c) (depthList cs)

/-- The depth of the members of a map. -/
def depthMembers : Members Content → ℕ
  | [] => 0
  | (_, c) :: ms => max (depth c) (depthMembers ms)

end

theorem depthList_le {cs : List Content} {n : ℕ} : depthList cs ≤ n ↔ ∀ c ∈ cs, c.depth ≤ n := by
  induction cs with
  | nil => simp [depthList]
  | cons c cs ih => rw [depthList, Nat.max_le, ih, List.forall_mem_cons]

theorem depthMembers_le {ms : Members Content} {n : ℕ} :
    depthMembers ms ≤ n ↔ ∀ m ∈ ms, m.2.depth ≤ n := by
  induction ms with
  | nil => simp [depthMembers]
  | cons m ms ih => rw [depthMembers, Nat.max_le, ih, List.forall_mem_cons]

theorem depth_seq_le {cs : List Content} {n : ℕ} :
    depth (.seq cs) ≤ n + 1 ↔ ∀ c ∈ cs, c.depth ≤ n := by
  rw [depth, Nat.succ_le_succ_iff, depthList_le]

theorem depth_map_le {ms : Members Content} {n : ℕ} :
    depth (.map ms) ≤ n + 1 ↔ ∀ m ∈ ms, m.2.depth ≤ n := by
  rw [depth, Nat.succ_le_succ_iff, depthMembers_le]

mutual

/-- The document `serde_json` makes of buffered content, with its members
    inserted into maps (the visitor of `Value`). A number that is not finite
    becomes `null`. -/
def normalize : Content → Json
  | .unit => .null
  | .bool b => .bool b
  | .u64 n => .number (.posInt n)
  | .i64 i => .number (.fromI64 i)
  | .f64 bits => ((Number.fromF64 bits).map Json.number).getD .null
  | .string s => .string s
  | .seq cs => .array (normalizeList cs)
  | .map ms => .object (Map.collect (normalizeMembers ms))

/-- The documents of the elements of a sequence. -/
def normalizeList : List Content → List Json
  | [] => []
  | c :: cs => normalize c :: normalizeList cs

/-- The documents of the members of a map. -/
def normalizeMembers : Members Content → Members Json
  | [] => []
  | (k, c) :: ms => (k, normalize c) :: normalizeMembers ms

end

theorem normalizeList_eq (cs : List Content) : normalizeList cs = cs.map normalize := by
  induction cs with
  | nil => rfl
  | cons c cs ih => rw [normalizeList, ih, List.map_cons]

theorem normalizeMembers_eq (ms : Members Content) :
    normalizeMembers ms = Map.mapValues normalize ms := by
  induction ms with
  | nil => rfl
  | cons m ms ih => rw [normalizeMembers, ih, Map.mapValues_cons]

/-- Induction over buffered content. -/
@[induction_eliminator]
theorem ind {P : Content → Prop} (unit : P .unit) (bool : ∀ b, P (.bool b))
    (u64 : ∀ n, P (.u64 n)) (i64 : ∀ i, P (.i64 i)) (f64 : ∀ bits, P (.f64 bits))
    (string : ∀ s, P (.string s)) (seq : ∀ cs, (∀ c ∈ cs, P c) → P (.seq cs))
    (map : ∀ ms : Members Content, (∀ m ∈ ms, P m.2) → P (.map ms)) (c : Content) : P c := by
  refine @Content.rec P (fun cs => ∀ c ∈ cs, P c) (fun ms => ∀ m ∈ ms, P m.2) (fun m => P m.2)
    unit bool u64 i64 f64 string seq map ?_ ?_ ?_ ?_ ?_ c
  · exact fun c hc => absurd hc List.not_mem_nil
  · exact fun c cs hc hcs => List.forall_mem_cons.2 ⟨hc, hcs⟩
  · exact fun c hc => absurd hc List.not_mem_nil
  · exact fun m ms hm hms => List.forall_mem_cons.2 ⟨hm, hms⟩
  · exact fun k c hc => hc

/-- A normalized buffer is one that a `Value` holds. -/
theorem sorted_normalize (c : Content) : (normalize c).Sorted := by
  induction c with
  | unit => exact .null
  | bool b => exact .bool b
  | u64 n => exact .number _
  | i64 i => exact .number _
  | f64 bits =>
    rw [normalize]
    cases Number.fromF64 bits with
    | none => exact .null
    | some n => exact .number n
  | string s => exact .string s
  | seq cs ih =>
    rw [normalize, normalizeList_eq]
    exact .array (List.forall_mem_map.2 ih)
  | map ms ih =>
    rw [normalize, normalizeMembers_eq]
    refine .object (Map.sorted_collect _) fun m hm => ?_
    obtain ⟨m', hm', rfl⟩ := List.mem_map.1 (Map.mem_of_mem_collect hm)
    exact ih m' hm'

/-- The value buffered content is read as. -/
def toValue (c : Content) : Value := ⟨c.normalize, c.sorted_normalize⟩

end Content

/-- How a number is buffered: by the visitor method it calls. -/
def Number.buffer : Number → Content
  | .posInt n => .u64 n
  | .negInt i _ => .i64 i
  | .float bits _ => .f64 bits

/-- The buffered content of a document. -/
def Json.buffer : Json → Content :=
  fold {
    null := .unit
    bool := .bool
    number := Number.buffer
    string := .string
    array := .seq
    object := .map }

namespace Json

@[simp] theorem buffer_null : buffer .null = .unit := rfl
@[simp] theorem buffer_bool (b : Bool) : buffer (.bool b) = .bool b := rfl
@[simp] theorem buffer_number (n : Number) : buffer (.number n) = n.buffer := rfl
@[simp] theorem buffer_string (s : String) : buffer (.string s) = .string s := rfl

@[simp] theorem buffer_array (xs : List Json) : buffer (.array xs) = .seq (xs.map buffer) :=
  fold_array _ xs

@[simp] theorem buffer_object (ms : Members Json) :
    buffer (.object ms) = .map (Map.mapValues buffer ms) := fold_object _ ms

end Json

/-- Buffering keeps the nesting. -/
theorem Content.depth_buffer_le {j : Json} {n : ℕ} : j.buffer.depth ≤ n ↔ j.depth ≤ n := by
  induction j generalizing n with
  | null => exact Iff.rfl
  | bool b => exact Iff.rfl
  | number k => cases k <;> exact Iff.rfl
  | string s => exact Iff.rfl
  | array xs ih =>
    rw [Json.buffer_array]
    cases n with
    | zero => simp [depth, Json.depth_array]
    | succ n =>
      rw [depth_seq_le, Json.depth_array_le, List.forall_mem_map]
      exact forall₂_congr fun x hx => ih x hx
  | object ms ih =>
    rw [Json.buffer_object]
    cases n with
    | zero => simp [depth, Json.depth_object]
    | succ n =>
      rw [depth_map_le, Json.depth_object_le, Map.mapValues, List.forall_mem_map]
      exact forall₂_congr fun m hm => ih m hm

/-- A number comes out of the buffer unchanged. -/
theorem Number.normalize_buffer (n : Number) : n.buffer.normalize = .number n := by
  cases n with
  | posInt n => rfl
  | negInt i neg => rw [buffer, Content.normalize, fromI64_of_neg neg]
  | float bits finite =>
    rw [buffer, Content.normalize, fromF64_of_finite finite, Option.map_some, Option.getD_some]

/-- A document and its buffer are collected into the same `Value`. -/
theorem Content.normalize_buffer (j : Json) : j.buffer.normalize = j.normalize := by
  induction j with
  | null => rfl
  | bool b => rfl
  | number n => exact n.normalize_buffer
  | string s => rfl
  | array xs ih =>
    rw [Json.buffer_array, normalize, normalizeList_eq, Json.normalize_array, List.map_map]
    exact congrArg Json.array (List.map_congr_left ih)
  | object ms ih =>
    rw [Json.buffer_object, normalize, normalizeMembers_eq, Json.normalize_object]
    rw [Map.mapValues_mapValues, Map.mapValues_congr (g := Json.normalize) ih]

/-- A value is read out of the buffer as it is read from the document. -/
@[simp] theorem Content.toValue_buffer (j : Json) : j.buffer.toValue = j.toValue :=
  Value.ext (normalize_buffer j)

end Serde
