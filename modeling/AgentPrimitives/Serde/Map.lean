import Mathlib.Data.List.Lookmap
import Mathlib.Data.List.Sort
import Mathlib.Order.Basic

/-!
# Sorted maps as association lists

A map is the list of its members in strictly increasing order of their keys,
which is how a `BTreeMap` is iterated. Lists in any order, and with repeated
keys, become maps by inserting their members one after the other, the later
ones replacing the earlier (`Map.collect`).

* `Map.collect_perm`: without repeated keys, nothing is lost: the map holds the
  members of the list, in another order;
* `Map.collect_eq_of_perm`: so the order of the list does not matter;
* `Map.ext_lookup`: a map is determined by what it holds at each key.
-/

namespace Serde.Map

variable {κ β γ : Type*}

/-- The keys of an association list, in order. -/
def keys (l : List (κ × β)) : List κ := l.map Prod.fst

@[simp] theorem keys_nil : keys ([] : List (κ × β)) = [] := rfl

@[simp] theorem keys_cons (m : κ × β) (l : List (κ × β)) : keys (m :: l) = m.1 :: keys l := rfl

@[simp] theorem mem_keys {k : κ} {l : List (κ × β)} : k ∈ keys l ↔ ∃ v, (k, v) ∈ l := by
  simp [keys]

theorem mem_keys_of_mem {m : κ × β} {l : List (κ × β)} (h : m ∈ l) : m.1 ∈ keys l :=
  List.mem_map_of_mem h

/-- Transforming the values of an association list. -/
def mapValues (f : β → γ) (l : List (κ × β)) : List (κ × γ) := l.map fun m => (m.1, f m.2)

@[simp] theorem mapValues_nil (f : β → γ) : mapValues f ([] : List (κ × β)) = [] := rfl

@[simp] theorem mapValues_cons (f : β → γ) (m : κ × β) (l : List (κ × β)) :
    mapValues f (m :: l) = (m.1, f m.2) :: mapValues f l := rfl

@[simp] theorem keys_mapValues (f : β → γ) (l : List (κ × β)) :
    keys (mapValues f l) = keys l := by
  simp [keys, mapValues, Function.comp_def]

theorem mapValues_mapValues {δ : Type*} (g : γ → δ) (f : β → γ) (l : List (κ × β)) :
    mapValues g (mapValues f l) = mapValues (g ∘ f) l := by
  simp [mapValues, Function.comp_def]

/-- Functions that agree on the values give the same members. -/
theorem mapValues_congr {f g : β → γ} {l : List (κ × β)} (h : ∀ m ∈ l, f m.2 = g m.2) :
    mapValues f l = mapValues g l :=
  List.map_congr_left fun m hm => by rw [h m hm]

section Lookup

variable [DecidableEq κ]

theorem lookup_cons (k : κ) (m : κ × β) (l : List (κ × β)) :
    (m :: l).lookup k = if k = m.1 then some m.2 else l.lookup k := by
  rw [List.lookup_cons]
  split <;> simp_all

/-- What is looked up is a member. -/
theorem mem_of_lookup {l : List (κ × β)} {k : κ} {v : β} (h : l.lookup k = some v) :
    (k, v) ∈ l := by
  obtain ⟨l₁, l₂, rfl, -⟩ := List.lookup_eq_some_iff.1 h
  simp

/-- With distinct keys, every member is what is looked up under its key. -/
theorem lookup_of_mem {l : List (κ × β)} (hl : (keys l).Nodup) {k : κ} {v : β}
    (h : (k, v) ∈ l) : l.lookup k = some v := by
  induction l with
  | nil => simp at h
  | cons m l ih =>
    rw [keys_cons, List.nodup_cons] at hl
    rw [lookup_cons]
    rcases List.mem_cons.1 h with rfl | h
    · exact if_pos rfl
    · have hk : k ≠ m.1 := fun hk => hl.1 (hk ▸ mem_keys_of_mem h)
      rw [if_neg hk, ih hl.2 h]

theorem lookup_eq_some {l : List (κ × β)} (hl : (keys l).Nodup) {k : κ} {v : β} :
    l.lookup k = some v ↔ (k, v) ∈ l :=
  ⟨mem_of_lookup, lookup_of_mem hl⟩

/-- Only an absent key is looked up in vain. -/
theorem lookup_eq_none {l : List (κ × β)} {k : κ} : l.lookup k = none ↔ k ∉ keys l := by
  induction l with
  | nil => simp
  | cons m l ih =>
    rw [lookup_cons, keys_cons, List.mem_cons, not_or, ← ih]
    split_ifs with hk <;> simp [hk]

/-- A filter on the keys hides the keys it drops, and no other. -/
theorem lookup_filter (p : κ → Bool) (l : List (κ × β)) (k : κ) :
    (l.filter fun m => p m.1).lookup k = if p k then l.lookup k else none := by
  induction l with
  | nil => simp
  | cons m l ih =>
    rw [List.filter_cons, lookup_cons]
    by_cases hk : k = m.1
    · subst hk
      by_cases hp : p m.1 = true
      · rw [if_pos hp, if_pos hp, lookup_cons, if_pos rfl, if_pos rfl]
      · rw [if_neg hp, if_neg hp, ih, if_neg hp]
    · rw [if_neg hk, ← ih]
      split_ifs
      · rw [lookup_cons, if_neg hk]
      · rfl

/-- A value is looked up before or after it is mapped. -/
theorem lookup_mapValues (f : β → γ) (l : List (κ × β)) (k : κ) :
    (mapValues f l).lookup k = (l.lookup k).map f := by
  induction l with
  | nil => rfl
  | cons m l ih =>
    rw [mapValues_cons, lookup_cons, lookup_cons, ih]
    split_ifs <;> rfl

/-- With distinct keys, the order of the members does not matter to a lookup. -/
theorem lookup_perm {l l' : List (κ × β)} (h : l.Perm l') (hl : (keys l).Nodup) (k : κ) :
    l.lookup k = l'.lookup k := by
  ext v
  rw [lookup_eq_some hl, lookup_eq_some ((h.map Prod.fst).nodup hl), h.mem_iff]

/-- The members at one key, when keys are not repeated. -/
theorem filter_eq_lookup {l : List (κ × β)} (hl : (keys l).Nodup) (k : κ) :
    l.filter (fun m => decide (m.1 = k)) = ((l.lookup k).map (Prod.mk k)).toList := by
  induction l with
  | nil => rfl
  | cons m l ih =>
    rw [keys_cons, List.nodup_cons] at hl
    rw [lookup_cons, List.filter_cons, ih hl.2]
    by_cases hk : k = m.1
    · have hnone : l.lookup k = none := lookup_eq_none.2 (hk ▸ hl.1)
      simp [hk, hk ▸ hnone]
    · simp [hk, Ne.symm hk]

end Lookup

variable [LinearOrder κ]

/-- The keys are in strictly increasing order. -/
def Sorted (l : List (κ × β)) : Prop := (keys l).Pairwise (· < ·)

instance (l : List (κ × β)) : Decidable (Sorted l) :=
  inferInstanceAs (Decidable (List.Pairwise _ _))

/-- Sorted keys are distinct. -/
theorem Sorted.nodup {l : List (κ × β)} (h : Sorted l) : (keys l).Nodup :=
  h.imp fun hlt => hlt.ne

/-- A map is determined by its members. -/
theorem eq_of_perm {l l' : List (κ × β)} (h : Sorted l) (h' : Sorted l') (hp : l.Perm l') :
    l = l' := by
  have hasymm : ∀ a b : κ × β, a ∈ l → b ∈ l' → a.1 < b.1 → b.1 < a.1 → a = b :=
    fun a b _ _ hab hba => absurd hab hba.asymm
  exact List.Perm.eq_of_pairwise hasymm (List.pairwise_map.1 h) (List.pairwise_map.1 h') hp

/-- A map is determined by what it holds at each key. -/
theorem ext_lookup {l l' : List (κ × β)} (h : Sorted l) (h' : Sorted l')
    (he : ∀ k, l.lookup k = l'.lookup k) : l = l' := by
  refine eq_of_perm h h' ((List.perm_ext_iff_of_nodup h.nodup.of_map h'.nodup.of_map).2 ?_)
  rintro ⟨k, v⟩
  rw [← lookup_eq_some h.nodup, ← lookup_eq_some h'.nodup, he]

/-- Inserting a member, replacing the one there is at its key. -/
def insert (k : κ) (v : β) : List (κ × β) → List (κ × β)
  | [] => [(k, v)]
  | m :: l =>
    if k < m.1 then (k, v) :: m :: l
    else if k = m.1 then (k, v) :: l
    else m :: insert k v l

/-- An insertion adds its key, and keeps the others. -/
theorem mem_keys_insert {k j : κ} {v : β} {l : List (κ × β)} :
    j ∈ keys (insert k v l) ↔ j = k ∨ j ∈ keys l := by
  induction l with
  | nil => simp [insert]
  | cons m l ih =>
    rw [insert]
    split_ifs with hlt heq
    · simp only [keys_cons, List.mem_cons]
    · simp only [keys_cons, List.mem_cons, heq, or_self_left]
    · simp only [keys_cons, List.mem_cons, ih]
      tauto

/-- An insertion keeps a map sorted. -/
theorem sorted_insert (k : κ) (v : β) {l : List (κ × β)} (h : Sorted l) :
    Sorted (insert k v l) := by
  induction l with
  | nil => simp [insert, Sorted]
  | cons m l ih =>
    rw [Sorted, keys_cons, List.pairwise_cons] at h
    rw [insert]
    split_ifs with hlt heq
    · rw [Sorted, keys_cons, keys_cons, List.pairwise_cons, List.pairwise_cons]
      refine ⟨fun j hj => ?_, h⟩
      rcases List.mem_cons.1 hj with rfl | hj
      exacts [hlt, hlt.trans (h.1 j hj)]
    · rw [Sorted, keys_cons, List.pairwise_cons, heq]
      exact h
    · rw [Sorted, keys_cons, List.pairwise_cons]
      -- The new key is above the first one, like those it is inserted among.
      refine ⟨fun j hj => ?_, ih h.2⟩
      rcases mem_keys_insert.1 hj with rfl | hj
      exacts [lt_of_le_of_ne (not_lt.1 hlt) (Ne.symm heq), h.1 j hj]

/-- Inserting a new key adds one member, somewhere. -/
theorem insert_perm {k : κ} {l : List (κ × β)} (hk : k ∉ keys l) (v : β) :
    (insert k v l).Perm ((k, v) :: l) := by
  induction l with
  | nil => simp [insert]
  | cons m l ih =>
    rw [keys_cons, List.mem_cons, not_or] at hk
    rw [insert]
    split_ifs with hlt heq
    · exact .refl _
    · exact absurd heq hk.1
    · exact ((ih hk.2).cons m).trans (.swap _ _ _)

/-- Inserting the members of a list into the map `l`, one after the other. -/
def insertAll (l : List (κ × β)) (ms : List (κ × β)) : List (κ × β) :=
  ms.foldl (fun l m => insert m.1 m.2 l) l

@[simp] theorem insertAll_nil (l : List (κ × β)) : insertAll l [] = l := rfl

@[simp] theorem insertAll_cons (l : List (κ × β)) (m : κ × β) (ms : List (κ × β)) :
    insertAll l (m :: ms) = insertAll (insert m.1 m.2 l) ms := rfl

/-- The map of the members of a list: of those with the same key, the last. -/
def collect (ms : List (κ × β)) : List (κ × β) := insertAll [] ms

theorem sorted_insertAll {l : List (κ × β)} (h : Sorted l) (ms : List (κ × β)) :
    Sorted (insertAll l ms) := by
  induction ms generalizing l with
  | nil => exact h
  | cons m ms ih => exact ih (sorted_insert m.1 m.2 h)

/-- A collected map is sorted, whatever the members. -/
theorem sorted_collect (ms : List (κ × β)) : Sorted (collect ms) :=
  sorted_insertAll (show Sorted [] from List.Pairwise.nil) ms

/-- Inserting new, distinct keys keeps every member. -/
theorem insertAll_perm {l ms : List (κ × β)} (h : (keys (ms ++ l)).Nodup) :
    (insertAll l ms).Perm (ms ++ l) := by
  induction ms generalizing l with
  | nil => exact .refl _
  | cons m ms ih =>
    rw [List.cons_append, keys_cons, List.nodup_cons] at h
    have hm : (insert m.1 m.2 l).Perm (m :: l) :=
      insert_perm (fun hk => h.1 (by simp only [keys, List.map_append, List.mem_append] at hk ⊢
                                     exact .inr hk)) m.2
    have hp : (ms ++ insert m.1 m.2 l).Perm (m :: (ms ++ l)) :=
      (hm.append_left ms).trans List.perm_middle
    have hn : (keys (m :: (ms ++ l))).Nodup := List.nodup_cons.2 h
    exact (ih ((hp.map Prod.fst).nodup_iff.2 hn)).trans hp

/-- Without repeated keys, collecting a list into a map loses nothing. -/
theorem collect_perm {ms : List (κ × β)} (h : (keys ms).Nodup) : (collect ms).Perm ms := by
  have hperm := @insertAll_perm κ β _ [] ms (by rwa [List.append_nil])
  rwa [List.append_nil] at hperm

/-- With distinct keys, the order of the members is forgotten when they are collected. -/
theorem collect_eq_of_perm {ms ms' : List (κ × β)} (h : (keys ms).Nodup) (hp : ms.Perm ms') :
    collect ms = collect ms' :=
  eq_of_perm (sorted_collect ms) (sorted_collect ms')
    ((collect_perm h).trans (hp.trans (collect_perm ((hp.map Prod.fst).nodup h)).symm))

/-- Collecting a map gives it back. -/
theorem collect_of_sorted {ms : List (κ × β)} (h : Sorted ms) : collect ms = ms :=
  eq_of_perm (sorted_collect ms) h (collect_perm h.nodup)

/-- Collecting one more member is inserting it. -/
theorem collect_cons {k : κ} {ms : List (κ × β)} (h : (k :: keys ms).Nodup) (v : β) :
    collect ((k, v) :: ms) = insert k v (collect ms) := by
  have hms : (keys ms).Nodup := (List.nodup_cons.1 h).2
  -- The key of the new member is not among those collected.
  have hk : k ∉ keys (collect ms) := fun hmem =>
    (List.nodup_cons.1 h).1 (((collect_perm hms).map Prod.fst).mem_iff.1 hmem)
  have hcons : (collect ((k, v) :: ms)).Perm ((k, v) :: ms) := collect_perm (by simpa using h)
  exact eq_of_perm (sorted_collect _) (sorted_insert k v (sorted_collect ms))
    (hcons.trans (((collect_perm hms).symm.cons (k, v)).trans (insert_perm hk v).symm))

/-- With distinct keys, collecting the members changes no lookup. -/
theorem lookup_collect {ms : List (κ × β)} (h : (keys ms).Nodup) (k : κ) :
    (collect ms).lookup k = ms.lookup k :=
  lookup_perm (collect_perm h) (sorted_collect ms).nodup k

/-- A member of the map is one of the list, also when keys are repeated. -/
theorem mem_of_mem_insertAll {l ms : List (κ × β)} {m : κ × β} (h : m ∈ insertAll l ms) :
    m ∈ ms ∨ m ∈ l := by
  have hins : ∀ {k : κ} {v : β} {l : List (κ × β)}, m ∈ insert k v l → m = (k, v) ∨ m ∈ l := by
    intro k v l
    induction l with
    | nil => simp [insert]
    | cons a l ih =>
      rw [insert]
      split_ifs with hlt heq
      · simp
      · exact fun h => (List.mem_cons.1 h).imp_right (List.mem_cons_of_mem a)
      · intro h
        rcases List.mem_cons.1 h with rfl | h
        · exact .inr List.mem_cons_self
        · exact (ih h).imp_right (List.mem_cons_of_mem a)
  induction ms generalizing l with
  | nil => exact .inr h
  | cons a ms ih =>
    rcases ih h with h | h
    · exact .inl (List.mem_cons_of_mem a h)
    · exact (hins h).imp_left fun he : m = a => he ▸ List.mem_cons_self

/-- Nothing is made up by collecting the members. -/
theorem mem_of_mem_collect {ms : List (κ × β)} {m : κ × β} (h : m ∈ collect ms) : m ∈ ms :=
  (mem_of_mem_insertAll h).resolve_right List.not_mem_nil

/-- An insertion is seen under its key, and nowhere else. -/
theorem lookup_insert (k : κ) (v : β) (l : List (κ × β)) (j : κ) :
    (insert k v l).lookup j = if j = k then some v else l.lookup j := by
  induction l with
  | nil => rw [insert, lookup_cons]
  | cons m l ih =>
    rw [insert, lookup_cons]
    by_cases hlt : k < m.1
    · rw [if_pos hlt, lookup_cons, lookup_cons]
    by_cases heq : k = m.1
    · rw [if_neg hlt, if_pos heq, lookup_cons, ← heq]
      split_ifs <;> rfl
    · rw [if_neg hlt, if_neg heq, lookup_cons, ih]
      by_cases hj : j = m.1
      · rw [if_pos hj, if_pos hj, if_neg (hj ▸ Ne.symm heq)]
      · rw [if_neg hj, if_neg hj]

/-- The last member of each key is collected. -/
theorem lookup_collect_eq_getLast? (ms : List (κ × β)) (k : κ) :
    (collect ms).lookup k = ((ms.filter fun m => decide (m.1 = k)).getLast?).map Prod.snd := by
  have hall : ∀ l : List (κ × β), (insertAll l ms).lookup k =
      (((ms.filter fun m => decide (m.1 = k)).getLast?).map Prod.snd).or (l.lookup k) := by
    induction ms with
    | nil => exact fun l => rfl
    | cons m ms ih =>
      intro l
      rw [insertAll_cons, ih, lookup_insert]
      by_cases hk : k = m.1
      · rw [if_pos hk, List.filter_cons_of_pos (by simp [hk]), List.getLast?_cons]
        cases (ms.filter fun m => decide (m.1 = k)).getLast? <;> rfl
      · rw [if_neg hk, List.filter_cons_of_neg (by simp [Ne.symm hk])]
  rw [collect, hall, List.lookup_nil, Option.or_none]

end Serde.Map
