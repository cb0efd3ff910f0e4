import AgentPrimitives.Serde.Text

/-!
# What the reader of texts has seen

A reader is *local* if what it has read does not depend on what follows. All but
that of numbers are: more digits may follow a number. As a bracket or a comma
ends the numbers in an array or an object, the text of an object that is cut off
somewhere is not read at all (`parse_cutOff`).

Besides, a document that is read is not nested deeper than the levels that the
reader had left (`depth_le_of_parseUpTo`), and one that is written is written in
a single line (`not_isControl_print`).
-/

namespace Serde.Text

/-! ## Reading a prefix -/

section Local

variable {α : Type} {parse : List Char → Option (α × List Char)}

/-- What is read does not depend on what follows. -/
def Local (parse : List Char → Option (α × List Char)) : Prop :=
  ∀ ⦃cs x rest⦄, parse cs = some (x, rest) → ∀ ds, parse (cs ++ ds) = some (x, rest ++ ds)

/-- What is read does not depend on what follows, if something does; and
    something is read. -/
structure LocalInside (parse : List Char → Option (α × List Char)) : Prop where
  nil : parse [] = none
  append : ∀ ⦃cs x rest⦄, parse cs = some (x, rest) → rest ≠ [] → ∀ ds,
    parse (cs ++ ds) = some (x, rest ++ ds)

/-- What is taken from a list, and what is left, if something is left. -/
theorem takeWhile_append_of_dropWhile {p : Char → Bool} {cs : List Char} (h : cs.dropWhile p ≠ [])
    (ds : List Char) : (cs ++ ds).takeWhile p = cs.takeWhile p ∧
      (cs ++ ds).dropWhile p = cs.dropWhile p ++ ds := by
  induction cs with
  | nil => exact absurd rfl h
  | cons c cs ih =>
    by_cases hc : p c
    · rw [List.dropWhile_cons_of_pos hc] at h
      simp [hc, ih h]
    · simp [hc]

/-- Blanks end where something else is, whatever follows. -/
theorem skipBlank_append {cs : List Char} (h : skipBlank cs ≠ []) (ds : List Char) :
    skipBlank (cs ++ ds) = skipBlank cs ++ ds := (takeWhile_append_of_dropWhile h ds).2

theorem local_parseHex : Local parseHex := by
  intro cs x rest h ds
  rcases cs with _ | ⟨a, _ | ⟨b, _ | ⟨c, _ | ⟨d, cs⟩⟩⟩⟩
  · cases h
  · cases h
  · cases h
  · cases h
  · simp only [List.cons_append, parseHex, Option.bind_eq_bind, Option.bind_eq_some_iff,
      Option.pure_def, Option.some_inj, Prod.mk.injEq] at h ⊢
    obtain ⟨a, ha, b, hb, c, hc, d, hd, rfl, rfl⟩ := h
    exact ⟨a, ha, b, hb, c, hc, d, hd, rfl, rfl⟩

theorem local_parseCode : Local parseCode := by
  intro cs x rest h ds
  simp only [parseCode, Option.bind_eq_bind, Option.bind_eq_some_iff, Prod.exists] at h ⊢
  obtain ⟨n, cs', hn, h⟩ := h
  refine ⟨n, cs' ++ ds, local_parseHex hn ds, ?_⟩
  split_ifs at h ⊢ with hcode
  · cases h
    rfl
  · -- The second half of a pair of surrogates.
    split at h
    · simp only [List.cons_append, Option.bind_eq_some_iff, Prod.exists] at h ⊢
      obtain ⟨m, cs'', hm, h⟩ := h
      refine ⟨m, cs'' ++ ds, local_parseHex hm ds, ?_⟩
      rw [Option.ite_none_right_eq_some] at h ⊢
      simp only [Option.pure_def, Option.some_inj, Prod.mk.injEq] at h ⊢
      exact ⟨h.1, h.2.1, by rw [h.2.2]⟩
    · cases h

theorem local_parseChar : Local parseChar := by
  intro cs x rest h ds
  rw [parseChar.eq_def] at h
  split at h
  · rw [List.cons_append, List.cons_append, parseChar]
    exact local_parseCode h ds
  · rename_i e cs' hu
    rw [List.cons_append, List.cons_append, parseChar]
    · obtain ⟨m, hm, h⟩ := Option.map_eq_some_iff.1 h
      cases h
      rw [hm]
      rfl
    · simpa using hu
  · rename_i c cs' _ _
    rw [Option.ite_none_left_eq_some, Option.some_inj, Prod.mk.injEq] at h
    obtain ⟨hquote, rfl, rfl⟩ := h
    -- Any other character stands for itself, so it is not the one that escapes.
    have hescape : c ≠ '\\' := by
      rintro rfl
      exact hquote (by simp)
    rw [List.cons_append, parseChar]
    · rw [if_neg hquote]
    · exact fun _ h => absurd h hescape
    · exact fun _ _ h => absurd h hescape
  · cases h

/-- A string that is closed is read alike, whatever follows and with more fuel. -/
theorem parseChars_append {n : ℕ} {cs s rest : List Char} (h : parseChars n cs = some (s, rest))
    {m : ℕ} (hm : n ≤ m) (ds : List Char) : parseChars m (cs ++ ds) = some (s, rest ++ ds) := by
  induction n generalizing cs s m with
  | zero => cases h
  | succ n ih =>
    obtain ⟨m, rfl⟩ := Nat.exists_eq_succ_of_ne_zero (Nat.ne_zero_of_lt hm)
    rw [parseChars] at h ⊢
    rcases cs with _ | ⟨c, cs⟩
    · simp [parseChar] at h
    · rw [List.cons_append, List.head?_cons] at *
      split_ifs at h ⊢ with hc
      · cases h
        rfl
      · simp only [Option.bind_eq_bind, Option.bind_eq_some_iff, Prod.exists] at h ⊢
        obtain ⟨x, cs', hx, s', rest', hs', h⟩ := h
        cases h
        exact ⟨x, cs' ++ ds, local_parseChar hx ds, s', rest ++ ds,
          ih hs' (Nat.le_of_succ_le_succ hm), rfl⟩

theorem local_parseString : Local parseString := by
  intro cs x rest h ds
  rw [parseString, Option.map_eq_some_iff] at h ⊢
  obtain ⟨⟨s, rest⟩, hs, ⟨⟩⟩ := h
  exact ⟨(s, rest ++ ds), parseChars_append hs (by simp) ds, rfl⟩

theorem local_parseLiteral (name : List Char) (j : Json) : Local (parseLiteral name j) := by
  intro cs x rest h ds
  rw [parseLiteral, Option.ite_none_right_eq_some, List.isPrefixOf_iff_prefix] at h ⊢
  obtain ⟨⟨t, rfl⟩, h⟩ := h
  rw [List.drop_left] at h
  cases h
  exact ⟨⟨rest ++ ds, (List.append_assoc _ _ _).symm⟩, by rw [List.append_assoc, List.drop_left]⟩

/-- A number may go on with what follows it, unless something else does. -/
theorem localInside_parseNumber : LocalInside parseNumber where
  nil := by decide
  append cs x rest h hrest ds := by
    rcases cs with _ | ⟨c, cs⟩
    · cases h
    -- The digits end in the text that is read already.
    have hunsigned : (if c = '-' then cs ++ ds else c :: (cs ++ ds)) =
        (if c = '-' then cs else c :: cs) ++ ds := by
      split_ifs <;> rfl
    simp only [parseNumber, List.cons_append, List.head?_cons, Option.some_inj, List.tail_cons,
      Option.ite_none_left_eq_some, Option.map_eq_some_iff, Prod.mk.injEq] at h ⊢
    obtain ⟨hexp, n, hn, rfl, rfl⟩ := h
    obtain ⟨htake, hdrop⟩ := takeWhile_append_of_dropWhile hrest ds
    rw [hunsigned, htake, hdrop]
    refine ⟨?_, n, hn, rfl, rfl⟩
    rwa [List.head?_append_of_ne_nil _ hrest]

section Items

variable {close : Char}

/-- Items that are closed are read alike, whatever follows and with more fuel. -/
theorem parseItems_append (hparse : LocalInside parse) {n : ℕ} {cs rest : List Char} {xs : List α}
    (h : parseItems parse close n cs = some (xs, rest)) {m : ℕ} (hm : n ≤ m) (ds : List Char) :
    parseItems parse close m (cs ++ ds) = some (xs, rest ++ ds) := by
  induction n generalizing cs xs m with
  | zero => cases h
  | succ n ih =>
    obtain ⟨m, rfl⟩ := Nat.exists_eq_succ_of_ne_zero (Nat.ne_zero_of_lt hm)
    simp only [parseItems, Option.bind_eq_bind, Option.bind_eq_some_iff, Prod.exists] at h ⊢
    obtain ⟨x, cs', hx, h⟩ := h
    split at h
    · cases h
    · rename_i c cs'' hcs'
      have hskip : skipBlank cs ≠ [] := fun hnil => by
        rw [hnil, hparse.nil] at hx
        cases hx
      have hskip' : skipBlank cs' ≠ [] := by simp [hcs']
      have hne : cs' ≠ [] := by
        rintro rfl
        cases hcs'
      refine ⟨x, cs' ++ ds, ?_, ?_⟩
      · rw [skipBlank_append hskip]
        exact hparse.append hx hne ds
      · rw [skipBlank_append hskip', hcs', List.cons_append]
        dsimp only
        split_ifs at h ⊢ with hclose hcomma
        · cases h
          rfl
        · simp only [Option.bind_eq_some_iff, Prod.exists] at h ⊢
          obtain ⟨xs', rest', hxs', h⟩ := h
          cases h
          exact ⟨xs', rest ++ ds, ih hxs' (Nat.le_of_succ_le_succ hm), rfl⟩

/-- A list ends at its closing character, even if its items are only local inside. -/
theorem local_parseMany (hparse : LocalInside parse) : Local (parseMany parse close) := by
  intro cs xs rest h ds
  rw [parseMany] at h ⊢
  -- An array or an object is at least closed.
  have hskip : skipBlank cs ≠ [] := by
    intro hnil
    rw [hnil, if_neg (by simp)] at h
    cases cs with
    | nil => cases h
    | cons c cs => simp [parseItems, hnil, hparse.nil] at h
  rw [skipBlank_append hskip, List.head?_append_of_ne_nil _ hskip, List.tail_append_of_ne_nil hskip]
  split_ifs at h ⊢
  · cases h
    rfl
  · exact parseItems_append hparse h (by simp) ds

/-- A member is as local as its value: it may end in a number. -/
theorem localInside_parseMember (hparse : LocalInside parse) : LocalInside (parseMember parse) where
  nil := rfl
  append cs x rest h hrest ds := by
    rw [parseMember.eq_def] at h
    split at h
    · rename_i cs
      simp only [List.cons_append, parseMember, Option.bind_eq_bind, Option.bind_eq_some_iff,
        Prod.exists] at h ⊢
      obtain ⟨k, cs', hk, h⟩ := h
      refine ⟨k, cs' ++ ds, local_parseString hk ds, ?_⟩
      split at h
      · rename_i cs'' hcolon
        have hskip : skipBlank cs' ≠ [] := by simp [hcolon]
        simp only [Option.bind_eq_some_iff, Prod.exists] at h
        obtain ⟨y, rest', hy, h⟩ := h
        cases h
        have hskip' : skipBlank cs'' ≠ [] := fun hnil => by
          rw [hnil, hparse.nil] at hy
          cases hy
        rw [skipBlank_append hskip, hcolon, List.cons_append]
        change (parse (skipBlank (cs'' ++ ds))).bind _ = _
        rw [skipBlank_append hskip', hparse.append hy hrest ds]
        rfl
      · cases h
    · cases h

end Items

section Document

variable {inside : Option (List Char → Option (Json × List Char))}
  (hinside : ∀ parse ∈ inside, LocalInside parse)

include hinside

/-- What is read of an object does not depend on what follows. -/
theorem parseWith_object_append {cs rest : List Char} {j : Json}
    (h : parseWith inside ('\x7b' :: cs) = some (j, rest)) (ds : List Char) :
    parseWith inside ('\x7b' :: cs ++ ds) = some (j, rest ++ ds) := by
  rw [List.cons_append]
  simp only [parseWith, Option.bind_eq_some_iff, Option.map_eq_some_iff] at h ⊢
  obtain ⟨parse, hparse, ⟨ms, rest⟩, hms, ⟨⟩⟩ := h
  have hmember := localInside_parseMember (hinside parse hparse)
  exact ⟨parse, hparse, (ms, rest ++ ds), local_parseMany hmember hms ds, rfl⟩

theorem localInside_parseWith : LocalInside (parseWith inside) where
  nil := by
    rw [parseWith, localInside_parseNumber.nil]
    rfl
    all_goals simp
  append cs x rest h hrest ds := by
    rw [parseWith.eq_def] at h
    split at h
    · exact local_parseLiteral _ _ h ds
    · exact local_parseLiteral _ _ h ds
    · exact local_parseLiteral _ _ h ds
    · obtain ⟨⟨s, rest⟩, hs, ⟨⟩⟩ := Option.map_eq_some_iff.1 h
      rw [List.cons_append, parseWith, local_parseString hs ds]
      rfl
    · rw [Option.bind_eq_some_iff] at h
      obtain ⟨parse, hparse, h⟩ := h
      obtain ⟨⟨xs, rest⟩, hxs, ⟨⟩⟩ := Option.map_eq_some_iff.1 h
      rw [List.cons_append, parseWith, hparse, Option.bind_some,
        local_parseMany (hinside parse hparse) hxs ds]
      rfl
    · exact parseWith_object_append hinside h ds
    · -- Whatever else it starts with, with more text after it, it starts with the same.
      rename_i hnull htrue hfalse hstring harray hobject
      obtain ⟨⟨n, rest⟩, hn, ⟨⟩⟩ := Option.map_eq_some_iff.1 h
      rcases cs with _ | ⟨c, cs⟩
      · cases hn
      · have hfirst {c' : Char} (hc' : ∀ es, c :: cs = c' :: es → False) (es : List Char)
            (h : c :: (cs ++ ds) = c' :: es) : False := hc' cs (by rw [(List.cons.inj h).1])
        rw [List.cons_append, parseWith, ← List.cons_append,
          localInside_parseNumber.append hn hrest ds]
        · rfl
        exacts [hfirst hnull, hfirst htrue, hfirst hfalse, hfirst hstring, hfirst harray,
          hfirst hobject]

end Document

/-- A document is local but for the number it may be. -/
theorem localInside_parseUpTo (n : ℕ) : LocalInside (parseUpTo n) := by
  induction n with
  | zero => exact localInside_parseWith nofun
  | succ n ih => exact localInside_parseWith fun _ h => by cases h; exact ih

end Local

/-- An object that is cut off somewhere is not read. -/
theorem parse_cutOff (formatFloat : UInt64 → List Char) {ms : Members Json}
    (hms : (Json.object ms).IntegerOnly) {cs : List Char}
    (hcs : cs <+: print formatFloat (.object ms)) (hne : cs ≠ print formatFloat (.object ms)) :
    parse cs = none := by
  have hprint : ∃ ds, print formatFloat (.object ms) = '\x7b' :: ds :=
    ⟨_, by rw [print, Json.fold_object]; rfl⟩
  obtain ⟨ds, hds⟩ := hprint
  have hend : Delimited [] := fun c hc => absurd hc (Option.not_mem_none c)
  have hfull := parseUpTo_print formatFloat hms recursionLimit hend
  rw [List.append_nil] at hfull
  rcases cs with _ | ⟨c, cs⟩
  · rfl
  by_contra hread
  obtain ⟨j, hj⟩ := Option.ne_none_iff_exists'.1 hread
  obtain ⟨es, hes⟩ := hcs
  have hc : c = '\x7b' := by
    rw [hds, List.cons_append] at hes
    exact (List.cons.inj hes).1
  subst hc
  simp only [parse, skipBlank_of_not_blank (show isBlank '\x7b' = false from rfl),
    Option.bind_eq_bind, Option.bind_eq_some_iff, Prod.exists] at hj
  obtain ⟨j', rest, hj', -⟩ := hj
  -- What is read of a part is read of the whole, with the rest left over.
  have happend : parseUpTo recursionLimit ('\x7b' :: cs ++ es) = some (j', rest ++ es) :=
    parseWith_object_append (fun _ h => by cases h; exact localInside_parseUpTo _) hj' es
  rw [hes, hfull, Option.ite_none_right_eq_some, Option.some_inj, Prod.mk.injEq] at happend
  obtain ⟨-, -, hnil⟩ := happend
  rw [(List.append_eq_nil_iff.1 hnil.symm).2, List.append_nil] at hes
  exact hne hes

/-! ## Levels -/

section Items

variable {α : Type} {parse : List Char → Option (α × List Char)} {close : Char} {P : α → Prop}

/-- What holds of every item that is parsed holds of the items of a list. -/
theorem forall_of_parseItems (hparse : ∀ cs x rest, parse cs = some (x, rest) → P x) {n : ℕ}
    {cs rest : List Char} {xs : List α} (h : parseItems parse close n cs = some (xs, rest)) :
    ∀ x ∈ xs, P x := by
  induction n generalizing cs xs with
  | zero => cases h
  | succ n ih =>
    simp only [parseItems, Option.bind_eq_bind, Option.bind_eq_some_iff, Prod.exists] at h
    obtain ⟨x, cs', hx, h⟩ := h
    split at h
    · cases h
    · split_ifs at h
      · cases h
        exact List.forall_mem_singleton.2 (hparse _ _ _ hx)
      · simp only [Option.bind_eq_some_iff, Prod.exists] at h
        obtain ⟨xs, rest', hxs, ⟨⟩⟩ := h
        exact List.forall_mem_cons.2 ⟨hparse _ _ _ hx, ih hxs⟩

/-- What holds of every item that is parsed holds of an array. -/
theorem forall_of_parseMany (hparse : ∀ cs x rest, parse cs = some (x, rest) → P x)
    {cs rest : List Char} {xs : List α} (h : parseMany parse close cs = some (xs, rest)) :
    ∀ x ∈ xs, P x := by
  rw [parseMany] at h
  split_ifs at h
  · cases h
    exact fun _ hx => absurd hx List.not_mem_nil
  · exact forall_of_parseItems hparse h

/-- What holds of every value that is parsed holds of that of a member. -/
theorem of_parseMember (hparse : ∀ cs x rest, parse cs = some (x, rest) → P x)
    (cs : List Char) (m : String × α) (rest : List Char)
    (h : parseMember parse cs = some (m, rest)) : P m.2 := by
  rw [parseMember.eq_def] at h
  split at h
  · simp only [Option.bind_eq_bind, Option.bind_eq_some_iff, Prod.exists] at h
    obtain ⟨k, cs', -, h⟩ := h
    split at h
    · simp only [Option.bind_eq_some_iff, Prod.exists] at h
      obtain ⟨x, rest', hx, ⟨⟩⟩ := h
      exact hparse _ _ _ hx
    · cases h
  · cases h

end Items

/-- A document is nested one level more than what is parsed inside. -/
theorem depth_le_of_parseWith {inside : Option (List Char → Option (Json × List Char))} {n : ℕ}
    (hinside : ∀ parse ∈ inside, ∃ m, n = m + 1 ∧
      ∀ cs x rest, parse cs = some (x, rest) → x.depth ≤ m)
    {cs rest : List Char} {j : Json} (h : parseWith inside cs = some (j, rest)) : j.depth ≤ n := by
  have hliteral {name cs : List Char} {x : Json} (hx : x.depth = 0)
      (h : parseLiteral name x cs = some (j, rest)) : j.depth ≤ n := by
    rw [parseLiteral, Option.ite_none_right_eq_some] at h
    obtain ⟨-, ⟨⟩⟩ := h
    exact hx.le.trans (Nat.zero_le n)
  rw [parseWith.eq_def] at h
  split at h
  · exact hliteral rfl h
  · exact hliteral rfl h
  · exact hliteral rfl h
  · obtain ⟨⟨s, rest⟩, -, ⟨⟩⟩ := Option.map_eq_some_iff.1 h
    exact Nat.zero_le n
  · -- What is read inside an array or an object spends one level less.
    obtain ⟨parse, hparse, h⟩ := Option.bind_eq_some_iff.1 h
    obtain ⟨⟨xs, rest⟩, hxs, ⟨⟩⟩ := Option.map_eq_some_iff.1 h
    obtain ⟨m, rfl, hm⟩ := hinside parse hparse
    exact Json.depth_array_le.2 (forall_of_parseMany hm hxs)
  · obtain ⟨parse, hparse, h⟩ := Option.bind_eq_some_iff.1 h
    obtain ⟨⟨ms, rest⟩, hms, ⟨⟩⟩ := Option.map_eq_some_iff.1 h
    obtain ⟨m, rfl, hm⟩ := hinside parse hparse
    exact Json.depth_object_le.2 (forall_of_parseMany (of_parseMember hm) hms)
  · obtain ⟨⟨k, rest⟩, -, ⟨⟩⟩ := Option.map_eq_some_iff.1 h
    exact Nat.zero_le n

/-- A document that is read has at most as many levels as there were left. -/
theorem depth_le_of_parseUpTo {n : ℕ} {cs rest : List Char} {j : Json}
    (h : parseUpTo n cs = some (j, rest)) : j.depth ≤ n := by
  induction n generalizing cs rest j with
  | zero => exact depth_le_of_parseWith (fun _ hparse => by cases hparse) h
  | succ n ih =>
    refine depth_le_of_parseWith (fun parse hparse => ⟨n, rfl, ?_⟩) h
    cases hparse
    exact fun _ _ _ => ih

/-- No document that is parsed is nested more deeply than the limit. -/
theorem depth_le_of_parse {cs : List Char} {j : Json} (h : parse cs = some j) :
    j.depth ≤ recursionLimit := by
  simp only [parse, Option.bind_eq_bind, Option.bind_eq_some_iff, Prod.exists] at h
  obtain ⟨j', rest, hj', h⟩ := h
  rw [Option.ite_none_right_eq_some] at h
  obtain ⟨-, ⟨⟩⟩ := h
  exact depth_le_of_parseUpTo hj'

/-! ## Characters that are not written -/

theorem not_isControl_of_isDigit {c : Char} (h : c.isDigit = true) : isControl c = false := by
  have hle : 48 ≤ c.toNat := by
    rw [Char.isDigit, Bool.and_eq_true, decide_eq_true_eq] at h
    exact UInt32.le_iff_toNat_le.1 h.1
  rw [isControl, decide_eq_false_iff_not]
  omega

theorem not_isControl_digitChar : ∀ n < 16, isControl n.digitChar = false := by decide

/-- No control character is written in a string, only its escape. -/
theorem not_isControl_printChar (c : Char) : ∀ d ∈ printChar c, isControl d = false := by
  rw [printChar]
  cases h : escapes.lookup c with
  | some e =>
    have hescapes : ∀ m ∈ escapes, isControl m.2 = false := by decide
    simpa using ⟨rfl, hescapes _ (Map.mem_of_lookup h)⟩
  | none =>
    dsimp only
    split_ifs with hc
    · have hc' : c.toNat < 0x20 := by simpa [isControl] using hc
      have hhigh := not_isControl_digitChar (c.toNat / 16) (by omega)
      have hlow := not_isControl_digitChar (c.toNat % 16) (Nat.mod_lt _ (by decide))
      simpa [hhigh, hlow] using ⟨rfl, rfl, rfl⟩
    · simpa using hc

/-- A string is written without control characters, so on one line. -/
theorem not_isControl_printString (s : String) : ∀ d ∈ printString s, isControl d = false := by
  have hquote : isControl '"' = false := rfl
  simp only [printString, List.mem_append, List.mem_cons, List.mem_flatMap, List.not_mem_nil,
    or_false]
  rintro d ((rfl | ⟨c, -, hd⟩) | rfl)
  exacts [hquote, not_isControl_printChar c d hd, hquote]

/-- A separated list has no characters but those of its items, and commas. -/
theorem mem_separate {xs : List (List Char)} {d : Char} (h : d ∈ separate xs) :
    d = ',' ∨ ∃ x ∈ xs, d ∈ x := by
  induction xs with
  | nil => cases h
  | cons x xs ih =>
    cases xs with
    | nil => exact .inr ⟨x, List.mem_cons_self, h⟩
    | cons y ys =>
      rw [separate, List.mem_append, List.mem_cons] at h
      rcases h with h | rfl | h
      · exact .inr ⟨x, List.mem_cons_self, h⟩
      · exact .inl rfl
      · exact (ih h).imp_right (Exists.imp fun z => And.imp_left (List.mem_cons_of_mem x))

/-- No control character is written, so a document is written in a single line. -/
theorem not_isControl_print {formatFloat : UInt64 → List Char}
    (hfloat : ∀ bits, ∀ d ∈ formatFloat bits, isControl d = false) (j : Json) :
    ∀ d ∈ print formatFloat j, isControl d = false := by
  have hdigits (n : ℕ) : ∀ d ∈ Nat.toDigits 10 n, isControl d = false := fun d hd =>
    not_isControl_of_isDigit (Nat.isDigit_of_mem_toDigits (by decide) (by decide) hd)
  have hbrackets (c c' : Char) (hc : isControl c = false) (hc' : isControl c' = false)
      {xs : List (List Char)} (hxs : ∀ x ∈ xs, ∀ d ∈ x, isControl d = false) :
      ∀ d ∈ c :: separate xs ++ [c'], isControl d = false := by
    intro d hd
    simp only [List.mem_append, List.mem_cons, List.not_mem_nil, or_false] at hd
    rcases hd with (rfl | hd) | rfl
    · exact hc
    · rcases mem_separate hd with rfl | ⟨x, hx, hd⟩
      exacts [rfl, hxs x hx d hd]
    · exact hc'
  induction j with
  | null => exact show ∀ d ∈ ['n', 'u', 'l', 'l'], isControl d = false by simp [isControl]
  | bool b =>
    cases b with
    | true => exact show ∀ d ∈ ['t', 'r', 'u', 'e'], isControl d = false by simp [isControl]
    | false => exact show ∀ d ∈ ['f', 'a', 'l', 's', 'e'], isControl d = false by simp [isControl]
  | number n =>
    cases n with
    | posInt n => exact hdigits _
    | negInt i neg => exact List.forall_mem_cons.2 ⟨rfl, hdigits _⟩
    | float bits finite => exact hfloat bits
  | string s => exact not_isControl_printString s
  | array xs ih =>
    rw [print, Json.fold_array]
    exact hbrackets _ _ rfl rfl (List.forall_mem_map.2 ih)
  | object ms ih =>
    rw [print, Json.fold_object]
    refine hbrackets _ _ rfl rfl (List.forall_mem_map.2 fun m hm d hd => ?_)
    obtain ⟨m', hm', rfl⟩ := List.mem_map.1 hm
    rw [printMember, List.mem_append, List.mem_cons] at hd
    rcases hd with hd | rfl | hd
    exacts [not_isControl_printString _ d hd, rfl, ih m' hm' d hd]

end Serde.Text
