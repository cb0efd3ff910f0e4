import AgentPrimitives.Serde.Layout

/-!
# Simulations

A *simulation* (`Simulation`) relates a document, read as some kind, to others
from which the same is read. It is local: what is found at a field of the one
document, if it is found once, is related to what is found there in the other.

A decoder *follows* its layout at a document (`Node.Follows`) if what it makes
of the document it makes of all related ones. As with lawful decoders, a struct
follows its layout if its fields do (`Node.Follows.structOn`), and an enum if
its variants do (`Node.Follows.taggedOn`).

Making a document a value is a simulation (`simulation_normalize`): so whatever
is read from a document, is read from its value.
-/

namespace Serde

variable {κ α τ : Type}

/-- The fields that are read, the tag being the first. -/
def Layout.entries (r : Route) (d : Json) : Layout κ → List (String × Shape κ)
  | .tagged tag variants => (tag, .scalar) :: (tagged tag variants).fields r d
  | l => l.fields r d

theorem Layout.keys_entries (l : Layout κ) (r : Route) (d : Json) :
    Map.keys (l.entries r d) = l.names r d := by
  cases l <;> rfl

/-- What a field of some shape may be read from, in related documents. -/
inductive Shape.Rel (R : Node κ → Json → Prop) (r : Route) : Shape κ → Json → Json → Prop
  | scalar (x : Json) : Rel R r .scalar x x
  | normalize (x : Json) : Rel R r .scalar x x.normalize
  | one {k : κ} {x y : Json} : R ⟨r, k, x⟩ y → Rel R r (.one k) x y
  | null (k : κ) : Rel R r (.optional k) .null .null
  | optional {k : κ} {x y : Json} : x ≠ .null → y ≠ .null → R ⟨r, k, x⟩ y →
      Rel R r (.optional k) x y
  | many {k : κ} {xs ys : List Json} : List.Forall₂ (fun x y => R ⟨r, k, x⟩ y) xs ys →
      Rel R r (.many k) (.array xs) (.array ys)
  | other {k : κ} {x : Json} (y : Json) : (∀ xs, x ≠ .array xs) → Rel R r (.many k) x y

/-- Fields, the first of them at `i`, that are found once in the one document are
    related to what is found in the other. -/
def FieldsRel (R : Node κ → Json → Prop) (r : Route) (d d' : Json) :
    ℕ → List (String × Shape κ) → Prop
  | _, [] => True
  | i, (name, s) :: fields =>
    ((d.candidates name i).length ≤ 1 →
      List.Forall₂ (s.Rel R r) (d.candidates name i) (d'.candidates name i)) ∧
    FieldsRel R r d d' (i + 1) fields

/-- The layout is that of a struct or an enum. -/
def Layout.Structured : Layout κ → Prop
  | .struct _ => True
  | .tagged _ _ => True
  | _ => False

instance Layout.decidableStructured : (l : Layout κ) → Decidable l.Structured
  | .struct _ | .tagged _ _ => .isTrue trivial
  | .value | .scalar => .isFalse id

/-- Two objects, or two arrays of the same length; other documents are not read
    as structs or enums. -/
def Json.SameForm : Json → Json → Prop
  | .object _, .object _ => True
  | .array xs, .array ys => xs.length = ys.length
  | .object _, _ => False
  | .array _, _ => False
  | _, _ => True

/-- Related documents show the same values and scalars, and have related parts. -/
structure Simulation (S : κ → Layout κ) (R : Node κ → Json → Prop) : Prop where
  value : ∀ {n y}, R n y → S n.kind = .value → n.doc.normalize = y.normalize
  scalar : ∀ {n y}, R n y → S n.kind = .scalar → y = n.doc ∨ y = n.doc.normalize
  form : ∀ {n y}, R n y → (S n.kind).Structured → n.doc.SameForm y
  entries : ∀ {n y}, R n y → FieldsRel R ((S n.kind).route n.route) n.doc y 0
    ((S n.kind).entries n.route n.doc)

/-- What is read from a document is read from those that are related to it. -/
def Node.Follows (R : Node κ → Json → Prop) (n : Node κ) (read : Json → Option α) : Prop :=
  ∀ y, R n y → ∀ a, read n.doc = some a → read y = some a

/-- What a field of this shape is read as, it is in related documents. -/
def Shape.Follows (R : Node κ → Json → Prop) (r : Route) (s : Shape κ) (x : Json)
    (read : Json → Option α) : Prop := ∀ y, s.Rel R r x y → ∀ a, read x = some a → read y = some a

/-- Fields, the first of them at `i`, each of which follows its layout wherever it
    may be read from. -/
inductive Fields.Follows (R : Node κ → Json → Prop) (r : Route) (d : Json) :
    {τ : Type} → ℕ → Fields Json τ → List (String × Shape κ) → Prop
  | nil {i : ℕ} : Follows R r d i .nil []
  | cons {i : ℕ} {α τ : Type} {name : String} {read : Json → Option α} {missing : Option α}
      {rest : Fields Json τ} {s : Shape κ} {fields : List (String × Shape κ)} :
      (∀ x ∈ d.candidates name i, s.Follows R r x read) → Follows R r d (i + 1) rest fields →
      Follows R r d i (.cons name read missing none rest) ((name, s) :: fields)

/-! ## Fields -/

namespace Fields

variable {S : κ → Layout κ} {R : Node κ → Json → Prop} {r : Route} {i : ℕ} {fs : Fields Json τ}
  {fields : List (String × Shape κ)}

/-- A field that is looked up in an object is looked up in a related one. -/
theorem member_of_forall₂ {name : String} {read : Json → Option α} {missing : Option α}
    {ms ns : Members Json} {Q : Json → Json → Prop}
    (hrel : ((Json.object ms).candidates name i).length ≤ 1 →
      List.Forall₂ Q ((Json.object ms).candidates name i) ((Json.object ns).candidates name i))
    (hread : ∀ x ∈ (Json.object ms).candidates name i, ∀ y, Q x y → ∀ a, read x = some a →
      read y = some a) {a : α} (h : member name read missing none ms = some a) :
    member name read missing none ns = some a := by
  rw [member] at h ⊢
  rw [Json.candidates, Json.candidates] at hrel
  rw [Json.candidates] at hread
  generalize ms.filter (fun m => decide (m.1 = name)) = l at h hrel hread
  generalize ns.filter (fun m => decide (m.1 = name)) = l' at hrel ⊢
  rcases l with _ | ⟨m, _ | ⟨m', l⟩⟩
  · rw [List.map_eq_nil_iff.1 (List.forall₂_nil_left_iff.1 (hrel (Nat.zero_le 1)))]
    exact h
  · obtain ⟨y, _, hmy, hnil, hl'⟩ := List.forall₂_cons_left_iff.1 (hrel le_rfl)
    rw [List.forall₂_nil_left_iff.1 hnil] at hl'
    obtain ⟨n, rfl, rfl⟩ := List.map_eq_singleton_iff.1 hl'
    exact hread m.2 List.mem_cons_self n.2 hmy a h
  · cases h

/-- Fields that follow are looked up as well among related members. -/
theorem Follows.lookups {ms ns : Members Json} (h : fs.Follows R r (.object ms) i fields)
    (hrel : FieldsRel R r (.object ms) (.object ns) i fields) {t : τ}
    (ht : fs.lookups ms = some t) : fs.lookups ns = some t := by
  induction h with
  | nil => exact ht
  | cons hx _ ih =>
    obtain ⟨a, ha, hmap⟩ := Option.bind_eq_some_iff.1 ht
    obtain ⟨t', ht', rfl⟩ := Option.map_eq_some_iff.1 hmap
    rw [Fields.lookups, member_of_forall₂ hrel.1 hx ha, Option.bind_some, ih hrel.2 ht',
      Option.map_some]

/-- Fields that follow are read as well from related elements. -/
theorem Follows.visitSeq {xs ys : List Json} (h : fs.Follows R r (.array xs) i fields)
    (hlength : xs.length = ys.length) (hrel : FieldsRel R r (.array xs) (.array ys) i fields)
    {t : τ} (ht : fs.visitSeq (xs.drop i) = some t) : fs.visitSeq (ys.drop i) = some t := by
  induction h with
  | @nil i =>
    have hxs : xs.drop i = [] := by
      cases hdrop : xs.drop i with
      | nil => rfl
      | cons x xs' =>
        rw [hdrop] at ht
        cases ht
    rw [List.drop_eq_nil_iff, hlength, ← List.drop_eq_nil_iff] at hxs
    rw [hxs]
    rfl
  | @cons i α τ name read missing rest s fields hx _ ih =>
    obtain ⟨hhead, hrest⟩ := hrel
    rw [Json.candidates, Json.candidates] at hhead
    -- Either no element is left for this field, in both arrays, or there is one.
    rcases hxs : xs[i]? with _ | x
    · have hi : xs.length ≤ i := List.getElem?_eq_none_iff.1 hxs
      have hi' : ys.length ≤ i := hlength ▸ hi
      have hnext := @ih hrest
      rw [List.drop_eq_nil_of_le (Nat.le_succ_of_le hi),
        List.drop_eq_nil_of_le (Nat.le_succ_of_le hi')] at hnext
      rw [List.drop_eq_nil_of_le hi] at ht
      rw [List.drop_eq_nil_of_le hi']
      obtain ⟨a, ha, hmap⟩ := Option.bind_eq_some_iff.1 ht
      obtain ⟨t', ht', rfl⟩ := Option.map_eq_some_iff.1 hmap
      rw [Fields.visitSeq, ha, Option.bind_some, hnext ht', Option.map_some]
    · rw [hxs, Option.toList_some] at hhead
      obtain ⟨y, _, hxy, hnil, hys⟩ := List.forall₂_cons_left_iff.1 (hhead le_rfl)
      rw [List.forall₂_nil_left_iff.1 hnil, Option.toList_eq_singleton_iff] at hys
      rw [List.drop_eq_getElem?_toList_append, hxs, Option.toList_some, List.singleton_append,
        Fields.visitSeq] at ht
      obtain ⟨a, ha, hmap⟩ := Option.bind_eq_some_iff.1 ht
      obtain ⟨t', ht', rfl⟩ := Option.map_eq_some_iff.1 hmap
      have hmem : x ∈ (Json.array xs).candidates name i := by rw [Json.candidates, hxs]; simp
      rw [List.drop_eq_getElem?_toList_append, hys, Option.toList_some, List.singleton_append,
        Fields.visitSeq, hx x hmem y hxy a ha, Option.bind_some, ih hrest ht', Option.map_some]

end Fields

/-! ## Scalars -/

section Scalar

variable {x : Json}

theorem readString_normalize {s : String} (h : readString x = some s) :
    readString x.normalize = some s := by
  rw [readString_eq_some] at h
  rw [h]
  rfl

theorem readBool_normalize {b : Bool} (h : readBool x = some b) :
    readBool x.normalize = some b := by
  rw [readBool_eq_some] at h
  rw [h]
  rfl

theorem readParsed_normalize [StringCodec α] {a : α} (h : readParsed x = some a) :
    readParsed x.normalize = some a := by
  obtain ⟨s, hs, ha⟩ := Option.bind_eq_some_iff.1 h
  rw [readParsed, readString_normalize hs, Option.bind_some, ha]

/-- A unit is still one in its `Value`. -/
theorem Route.unit_normalize {r : Route} (h : r.unit x = some ()) :
    r.unit x.normalize = some () := by
  rw [unit_eq_some] at h ⊢
  rcases h with rfl | ⟨hr, rfl⟩
  · exact .inl rfl
  · exact .inr ⟨hr, rfl⟩

/-- A unit variant is still one in its `Value`. -/
theorem readUnitVariant_normalize {r : Route} {variants : Members α} {a : α}
    (h : r.read (readUnitVariant variants) (readUnitVariant variants) x = some a) :
    r.read (readUnitVariant variants) (readUnitVariant variants) x.normalize = some a := by
  rw [read_readUnitVariant_eq_some] at h ⊢
  obtain ⟨name, hname, rfl | ⟨d, rfl, hd⟩⟩ := h
  · exact ⟨name, hname, .inl rfl⟩
  · exact ⟨name, hname, .inr ⟨d.normalize, Json.normalize_object _, Route.unit_normalize hd⟩⟩

theorem Route.readTag_normalize {r : Route} {names : List String} {i : ℕ}
    (h : r.readTag names x = some i) : r.readTag names x.normalize = some i := by
  cases x with
  | array xs => cases r <;> cases h
  | object ms => cases r <;> cases h
  | _ => exact h

end Scalar

/-! ## Shapes -/

section Shape

variable {S : κ → Layout κ} {R : Node κ → Json → Prop} {r : Route} {k : κ} {x : Json}
  {read : Json → Option α}

/-- A payload is read from related documents, since they have the same `Value`. -/
theorem Node.Follows.value (hR : Simulation S R) {n : Node κ} (hS : S n.kind = .value) :
    n.Follows R readValue := by
  intro y hy v hv
  rw [readValue_eq_some] at hv ⊢
  exact (Value.ext (hR.value hy hS).symm).trans hv

theorem Node.Follows.scalar (hR : Simulation S R) {n : Node κ} (hS : S n.kind = .scalar)
    (h : ∀ a, read n.doc = some a → read n.doc.normalize = some a) : n.Follows R read := by
  intro y hy a ha
  rcases hR.scalar hy hS with rfl | rfl
  exacts [ha, h a ha]

theorem Shape.Follows.scalar (h : ∀ a, read x = some a → read x.normalize = some a) :
    (scalar : Shape κ).Follows R r x read := by
  rintro y (_ | _) a ha
  exacts [ha, h a ha]

theorem Shape.Follows.one (h : (⟨r, k, x⟩ : Node κ).Follows R read) :
    (one k).Follows R r x read := by
  intro y hxy a ha
  cases hxy with
  | one hxy => exact h y hxy a ha

theorem Shape.Follows.optional (h : (⟨r, k, x⟩ : Node κ).Follows R read) :
    (optional k).Follows R r x (readOption read) := by
  intro y hxy a ha
  cases hxy with
  | null => exact ha
  | optional hx hy hxy =>
    rw [readOption_of_ne_null hx] at ha
    obtain ⟨b, hb, rfl⟩ := Option.map_eq_some_iff.1 ha
    rw [readOption_of_ne_null hy, h y hxy b hb, Option.map_some]

/-- A sequence follows if its items do, which are nested less deeply than it. -/
theorem Shape.Follows.many
    (h : ∀ y : Json, y.depth < x.depth → (⟨r, k, y⟩ : Node κ).Follows R read) :
    (many k).Follows R r x (readVec read) := by
  intro y hxy as has
  rw [readVec_eq_some] at has ⊢
  obtain ⟨xs, rfl, hxs⟩ := has
  cases hxy with
  | @many _ _ ys hxys =>
    refine ⟨ys, rfl, List.forall₂_iff_get.2 ⟨hxys.length_eq.symm.trans hxs.length_eq, ?_⟩⟩
    intro i hi hi'
    have hi'' : i < xs.length := hxys.length_eq ▸ hi
    exact h _ (Json.depth_lt_array (List.get_mem xs ⟨i, hi''⟩)) _ (hxys.get hi'' hi) _
      (hxs.get hi'' hi')
  | other _ hne => exact absurd rfl (hne xs)

end Shape

/-! ## Structs and enums -/

section Follows

variable {S : κ → Layout κ} {R : Node κ → Json → Prop} {n : Node κ}

theorem Node.Follows.map {β : Type} {read : Json → Option α} (h : n.Follows R read) (f : α → β) :
    n.Follows R fun d => (read d).map f := by
  intro y hy b hb
  obtain ⟨a, ha, rfl⟩ := Option.map_eq_some_iff.1 hb
  exact Option.map_eq_some_iff.2 ⟨a, h y hy a ha, rfl⟩

/-- A struct whose fields follow their layout does. -/
theorem Node.Follows.structOn (hR : Simulation S R) {fields : List (String × Shape κ)}
    (hS : S n.kind = .struct fields) {fs : Fields Json τ}
    (h : fs.Follows R n.route n.doc 0 fields) : n.Follows R (structOn fs) := by
  obtain ⟨r, k, d⟩ := n
  intro y hy t ht
  have hform := hR.form hy (by rw [hS]; trivial)
  have hentries := hR.entries hy
  rw [hS] at hentries
  cases d with
  | object ms =>
    cases y with
    | object ns => exact h.lookups hentries ht
    | _ => cases hform
  | array xs =>
    cases y with
    | array ys => exact h.visitSeq hform hentries ht
    | _ => cases hform
  | _ => cases ht

/-- What every variant of an enum does with a document whose tag selects it. -/
structure Variant.Follows (R : Node κ → Json → Prop) (d : Json) (tag : String) (v : Variant α)
    (fields : String × List (String × Shape κ)) : Prop where
  name : v.name = fields.1
  on : ∀ y, d.SameForm y → FieldsRel R .buffered d y 1 fields.2 → ∀ a, v.on tag d = some a →
    v.on tag y = some a

theorem Variant.Follows.unit {d : Json} {tag name : String} {a : α} :
    (Variant.unit name a).Follows R d tag (name, []) where
  name := rfl
  on y hform _ b hb := by
    cases d with
    | object ms =>
      cases y with
      | object ns => exact hb
      | _ => cases hform
    | array xs =>
      cases y with
      | array ys =>
        have hlength : xs.length = ys.length := hform
        rcases xs with _ | ⟨x, xs⟩
        · cases hb
        · rcases ys with _ | ⟨y, ys⟩
          · cases hlength
          · rw [Variant.on, onElements_unit, Option.ite_none_right_eq_some] at hb ⊢
            obtain ⟨rfl, hab⟩ := hb
            exact ⟨List.length_eq_zero_iff.1 (Nat.succ_inj.1 hlength).symm, hab⟩
      | _ => cases hform
    | _ => cases hb

/-- A struct variant follows if its fields do, in the buffer and next to the tag. -/
theorem Variant.Follows.struct {d : Json} {tag name : String} {fs : Fields Content τ}
    (hfs : (tag :: fs.names).Nodup) {make : τ → α} {fields : List (String × Shape κ)}
    (h : (fs.comap Json.buffer).Follows R .buffered d 1 fields) :
    (Variant.struct name fs make).Follows R d tag (name, fields) where
  name := rfl
  on y hform hrel a ha := by
    cases d with
    | object ms =>
      cases y with
      | object ns =>
        rw [on_struct_object hfs, Option.map_eq_some_iff] at ha ⊢
        obtain ⟨t, ht, rfl⟩ := ha
        exact ⟨t, h.lookups hrel ht, rfl⟩
      | _ => cases hform
    | array xs =>
      cases y with
      | array ys =>
        rcases xs with _ | ⟨x, xs⟩
        · cases ha
        · rcases ys with _ | ⟨y, ys⟩
          · cases hform
          · rw [on_struct_array hfs, Option.map_eq_some_iff] at ha ⊢
            obtain ⟨t, ht, rfl⟩ := ha
            exact ⟨t, h.visitSeq hform hrel ht, rfl⟩
      | _ => cases hform
    | _ => cases ha

/-- The tag selects the same variant in related documents. -/
theorem selects_of_rel {r r' : Route} {tag : String} {names : List String} {d y : Json}
    (hform : d.SameForm y)
    (hrel : (d.candidates tag 0).length ≤ 1 → List.Forall₂ ((Shape.scalar : Shape κ).Rel R r')
      (d.candidates tag 0) (y.candidates tag 0)) {i : ℕ} (h : r.selects tag names d = some i) :
    r.selects tag names y = some i := by
  have hread : ∀ x y : Json, (Shape.scalar : Shape κ).Rel R r' x y → ∀ i,
      r.readTag names x = some i → r.readTag names y = some i :=
    fun x y hxy => Shape.Follows.scalar (fun _ => Route.readTag_normalize) y hxy
  cases d with
  | object ms =>
    cases y with
    | object ns => exact Fields.member_of_forall₂ hrel (fun x _ => hread x) h
    | _ => cases hform
  | array xs =>
    cases y with
    | array ys =>
      rcases xs with _ | ⟨x, xs⟩
      · cases h
      · rcases ys with _ | ⟨y, ys⟩
        · cases hform
        · exact hread x y ((List.forall₂_cons.1 (hrel le_rfl)).1) i h
    | _ => cases hform
  | _ => cases h

/-- An enum whose variants follow their layout does. -/
theorem Node.Follows.taggedOn (hR : Simulation S R) {tag : String}
    {vs : List (String × List (String × Shape κ))} (hS : S n.kind = .tagged tag vs)
    {variants : List (Variant α)}
    (h : List.Forall₂ (fun v fields => v.Follows R n.doc tag fields) variants vs) :
    n.Follows R (taggedOn n.route tag variants) := by
  have hnames : variants.map Variant.name = Map.keys vs :=
    map_eq_of_forall₂ h fun v _ fields _ hv => hv.name
  intro y hy a ha
  have hform := hR.form hy (by rw [hS]; trivial)
  have hentries := hR.entries hy
  rw [hS] at hentries
  rw [taggedOn_eq_selects, hnames, Option.bind_eq_some_iff] at ha
  obtain ⟨i, hi, ha⟩ := ha
  obtain ⟨v, hv, ha⟩ := Option.bind_eq_some_iff.1 ha
  obtain ⟨fields, hfields, hfollows⟩ := exists_getElem?_of_forall₂ h hv
  have hselected : (Layout.tagged tag vs).fields n.route n.doc = fields.2 := by
    rw [Layout.fields, hi, Option.bind_some, hfields]
    rfl
  -- The same variant is selected, and its fields are related.
  have hi' := selects_of_rel hform hentries.1 hi
  have hrel : FieldsRel R .buffered n.doc y 1 fields.2 := hselected ▸ hentries.2
  rw [taggedOn_eq_selects, hnames, hi', Option.bind_some, hv, Option.bind_some]
  exact hfollows.on y hform hrel a ha

end Follows

/-! ## Values -/

section Normalize

variable {S : κ → Layout κ}

/-- What is found once is found in the value. -/
theorem Json.candidates_normalize {d : Json} {name : String} {i : ℕ}
    (h : (d.candidates name i).length ≤ 1) :
    d.normalize.candidates name i = (d.candidates name i).map normalize := by
  cases d with
  | array xs =>
    rw [normalize_array, candidates, candidates, List.getElem?_map, Option.toList_map]
  | object ms =>
    rw [candidates, List.length_map] at h
    rw [normalize_object, candidates, candidates,
      Map.filter_eq_lookup (Map.sorted_collect _).nodup, Map.lookup_collect_eq_getLast?,
      Fields.filter_mapValues fun k => decide (k = name)]
    generalize ms.filter (fun m => decide (m.1 = name)) = l at h ⊢
    rcases l with _ | ⟨m, _ | ⟨m', l⟩⟩
    · rfl
    · rfl
    · exact absurd h (by simp)
  | _ => rfl

theorem Shape.rel_normalize {r : Route} (s : Shape κ) (x : Json) :
    s.Rel (fun n y => y = n.doc.normalize) r x x.normalize := by
  cases s with
  | scalar => exact .normalize x
  | one k => exact .one rfl
  | optional k =>
    cases x with
    | null => exact .null k
    | array xs => exact .optional (by simp) (by simp) rfl
    | object ms => exact .optional (by simp) (by simp) rfl
    | _ => exact .optional (by simp) (by simp) rfl
  | many k =>
    cases x with
    | array xs =>
      rw [Json.normalize_array]
      exact .many (List.forall₂_map_right_iff.2 (List.forall₂_same.2 fun x _ => rfl))
    | _ => exact .other _ (by simp)

/-- Making a document a value. -/
theorem simulation_normalize (S : κ → Layout κ) :
    Simulation S fun n y => y = n.doc.normalize where
  value := by
    rintro n y rfl _
    exact (Json.normalize_of_sorted n.doc.sorted_normalize).symm
  scalar := by
    rintro n y rfl _
    exact .inr rfl
  form := by
    rintro ⟨r, k, d⟩ y rfl _
    cases d with
    | array xs => simp [Json.SameForm]
    | object ms => simp [Json.SameForm]
    | _ => trivial
  entries := by
    rintro n y rfl
    generalize (S n.kind).entries n.route n.doc = fields
    generalize 0 = i
    induction fields generalizing i with
    | nil => trivial
    | cons field fields ih =>
      refine ⟨fun hlength => ?_, ih (i + 1)⟩
      rw [Json.candidates_normalize hlength]
      exact List.forall₂_map_right_iff.2 (List.forall₂_same.2 fun x _ => field.2.rel_normalize x)

/-- What a decoder that follows the layout reads from a document, it reads from its
    value. -/
theorem fromValue_of_follows {α : Type} {k : κ} {read : Json → Option α} {d : Json}
    (h : ∀ R : Node κ → Json → Prop, Simulation S R → (⟨.direct, k, d⟩ : Node κ).Follows R read)
    {a : α} (ha : read d = some a) : fromValue read d.toValue = some a :=
  h _ (simulation_normalize S) d.normalize rfl a ha

end Normalize

end Serde
