import Mathlib.Data.List.ReduceOption
import AgentPrimitives.Serde.Prefix

/-!
# Logs

A log is a text in which every entry is written in a line of its own. If no text
of an entry has a line break, and none is read when it is cut off
(`LineFormat`), then

* every entry is read back from its line (`readLog_writeLog`);
* from a log that is cut off anywhere, the entries up to there are read, and at
  most the last line is rejected (`readLog_cutOff`);
* what is read from any log can be written as a log again
  (`readLog_writeLog_readLog`).
-/

namespace Serde

/-- A text format that can be used in logs. -/
structure LineFormat extends TextFormat where
  depth_parse : ∀ {t j}, parse t = some j → j.depth ≤ recursionLimit
  newline_notMem_print : ∀ j, '\n' ∉ (print j).toList
  parse_cutOff : ∀ {ms : Members Json} {cs : List Char}, (Json.object ms).IntegerOnly →
    cs <+: (print (.object ms)).toList → cs ≠ (print (.object ms)).toList →
    parse (String.ofList cs) = none

/-- Documents written without blanks are written in a line. -/
def compactLines (formatFloat : UInt64 → List Char)
    (hfloat : ∀ bits, ∀ d ∈ formatFloat bits, Text.isControl d = false) : LineFormat where
  toTextFormat := compact formatFloat
  depth_parse h := Text.depth_le_of_parse h
  newline_notMem_print j h := by
    have := Text.not_isControl_print hfloat j _ (String.toList_ofList ▸ h)
    exact absurd this (by decide)
  parse_cutOff {ms cs} hms hcs hne := by
    simp only [compact, String.toList_ofList] at hcs hne ⊢
    exact Text.parse_cutOff formatFloat hms hcs hne

/-- Entries of logs, which are read in an environment: they are written as
    objects, no deeper than what they are read from, and read back in any
    environment. -/
structure LogCodec (ε α : Type) where
  serialize : α → Json
  deserialize : ε → Json → Option α
  object : ∀ a, ∃ ms, serialize a = .object ms
  deserialize_serialize : ∀ env a, deserialize env (serialize a) = some a
  depth_le : ∀ {env j a}, deserialize env j = some a → (serialize a).depth ≤ j.depth
  integerOnly : ∀ {env} {j : Json} {a}, j.IntegerOnly → deserialize env j = some a →
    (serialize a).IntegerOnly

/-! ## Lines -/

/-- The lines of a text. The last one need not be ended. -/
def lines : List Char → List (List Char)
  | [] => []
  | c :: cs =>
    if c = '\n' then [] :: lines cs
    else match lines cs with
      | [] => [[c]]
      | l :: ls => (c :: l) :: ls

/-- What precedes the first newline is the first line. -/
theorem lines_append_cons {l : List Char} (hl : '\n' ∉ l) (cs : List Char) :
    lines (l ++ '\n' :: cs) = l :: lines cs := by
  induction l with
  | nil => rfl
  | cons c l ih =>
    rw [List.mem_cons, not_or] at hl
    rw [List.cons_append, lines, if_neg (Ne.symm hl.1), ih hl.2]

/-- A text without a newline is one line, unless it is empty. -/
theorem lines_of_notMem {l : List Char} (hl : '\n' ∉ l) (hne : l ≠ []) : lines l = [l] := by
  induction l with
  | nil => exact absurd rfl hne
  | cons c l ih =>
    rw [List.mem_cons, not_or] at hl
    rw [lines, if_neg (Ne.symm hl.1)]
    by_cases hnil : l = []
    · rw [hnil, lines]
    · rw [ih hl.2 hnil]

/-! ## Writing and reading logs -/

section Log

variable {ε α : Type} (F : LineFormat) (C : LogCodec ε α)

/-- The log of the given entries. -/
def writeLog : List α → List Char
  | [] => []
  | a :: as => (F.toStr C.serialize a).toList ++ '\n' :: writeLog as

/-- What is read from the lines of a log, each in an environment of its own. -/
def readLog (envs : ℕ → ε) (cs : List Char) : List (Option α) :=
  (lines cs).mapIdx fun i l => F.fromStr (C.deserialize (envs i)) (String.ofList l)

/-- What is read from the line of an entry. -/
def entryOf (a : α) : Option α := if (C.serialize a).depth ≤ recursionLimit then some a else none

variable {F C}

/-- What is written on a line stays on it. -/
theorem newline_notMem_toStr (a : α) : '\n' ∉ (F.toStr C.serialize a).toList :=
  F.newline_notMem_print _

/-- A line is read as what was written on it, or rejected when it is too deep. -/
theorem fromStr_toStr_entry {a : α} (ha : (C.serialize a).IntegerOnly) (env : ε) :
    F.fromStr (C.deserialize env) (F.toStr C.serialize a) = entryOf C a := by
  rw [F.fromStr_toStr ha, fromDocument, C.deserialize_serialize, entryOf]

/-- A text without its last character is no entry. -/
theorem fromStr_cutOff {a : α} (ha : (C.serialize a).IntegerOnly) {cs : List Char}
    (hcs : cs <+: (F.toStr C.serialize a).toList) (hne : cs ≠ (F.toStr C.serialize a).toList)
    (env : ε) : F.fromStr (C.deserialize env) (String.ofList cs) = none := by
  obtain ⟨ms, hms⟩ := C.object a
  rw [TextFormat.toStr, hms] at hcs hne
  rw [TextFormat.fromStr, F.parse_cutOff (hms ▸ ha) hcs hne, Option.bind_none]

/-- The first line is read in the first environment, the others in the next ones. -/
theorem readLog_append {l : List Char} (hl : '\n' ∉ l) (envs : ℕ → ε) (cs : List Char) :
    readLog F C envs (l ++ '\n' :: cs) =
      F.fromStr (C.deserialize (envs 0)) (String.ofList l) ::
        readLog F C (fun i => envs (i + 1)) cs := by
  rw [readLog, lines_append_cons hl, List.mapIdx_cons, readLog]

/-- A last line without its newline is a line still. -/
theorem readLog_singleton {l : List Char} (hl : '\n' ∉ l) (hne : l ≠ []) (envs : ℕ → ε) :
    readLog F C envs l = [F.fromStr (C.deserialize (envs 0)) (String.ofList l)] := by
  rw [readLog, lines_of_notMem hl hne, List.mapIdx_singleton]

/-- Every entry of a log is read back from its line, or rejected if it is nested
    too deeply. -/
theorem readLog_writeLog {as : List α} (has : ∀ a ∈ as, (C.serialize a).IntegerOnly)
    (envs : ℕ → ε) : readLog F C envs (writeLog F C as) = as.map (entryOf C) := by
  induction as generalizing envs with
  | nil => rfl
  | cons a as ih =>
    rw [List.forall_mem_cons] at has
    rw [writeLog, readLog_append (newline_notMem_toStr a), String.ofList_toList,
      fromStr_toStr_entry has.1, ih has.2, List.map_cons]

/-- What is read from the line of an entry that is cut off, or only lacks its
    end. -/
theorem readLog_line_cutOff {a : α} (ha : (C.serialize a).IntegerOnly) {cs : List Char}
    (hcs : cs <+: (F.toStr C.serialize a).toList) (envs : ℕ → ε) :
    readLog F C envs cs = [] ∨ readLog F C envs cs = [none] ∨
      readLog F C envs cs = [entryOf C a] := by
  have hl : '\n' ∉ cs := fun h => newline_notMem_toStr a (hcs.subset h)
  by_cases hnil : cs = []
  · exact .inl (hnil ▸ rfl)
  · rw [readLog_singleton hl hnil]
    by_cases hwhole : cs = (F.toStr C.serialize a).toList
    · rw [hwhole, String.ofList_toList, fromStr_toStr_entry ha]
      exact .inr (.inr rfl)
    · rw [fromStr_cutOff ha hcs hwhole]
      exact .inr (.inl rfl)

/-- From a log that is cut off, the entries are read whose lines are complete; of
    the line it is cut off in nothing is read, or the whole entry. -/
theorem readLog_cutOff {as : List α} (has : ∀ a ∈ as, (C.serialize a).IntegerOnly)
    {cs : List Char} (hcs : cs <+: writeLog F C as) (envs : ℕ → ε) :
    ∃ last, readLog F C envs cs = (as.take (cs.count '\n')).map (entryOf C) ++ last ∧
      (last = [] ∨ last = [none] ∨
        ∃ a, as[cs.count '\n']? = some a ∧ last = [entryOf C a]) := by
  induction as generalizing cs envs with
  | nil =>
    rw [List.prefix_nil.1 hcs]
    exact ⟨[], rfl, .inl rfl⟩
  | cons a as ih =>
    rw [List.forall_mem_cons] at has
    have hnewline := newline_notMem_toStr (F := F) (C := C) a
    have hcut : cs <+: (F.toStr C.serialize a).toList →
        ∃ last, readLog F C envs cs = ((a :: as).take (cs.count '\n')).map (entryOf C) ++ last ∧
          (last = [] ∨ last = [none] ∨
            ∃ b, (a :: as)[cs.count '\n']? = some b ∧ last = [entryOf C b]) := by
      intro hline
      rw [List.count_eq_zero.2 fun h => hnewline (hline.subset h)]
      exact ⟨_, rfl, (readLog_line_cutOff has.1 hline envs).imp_right
        (Or.imp_right fun h => ⟨a, rfl, h⟩)⟩
    rw [writeLog] at hcs
    -- The log is cut off in the first line, or behind it.
    rcases List.prefix_or_prefix_of_prefix hcs (List.prefix_append _ _) with hline | ⟨ds, rfl⟩
    · exact hcut hline
    · rw [List.prefix_append_right_inj, List.prefix_cons_iff] at hcs
      rcases hcs with rfl | ⟨ds, rfl, hds⟩
      · exact hcut (List.append_nil _ ▸ List.prefix_rfl)
      · obtain ⟨last, hread, hlast⟩ := ih has.2 hds fun i => envs (i + 1)
        refine ⟨last, ?_, ?_⟩
        all_goals rw [List.count_append, List.count_eq_zero.2 hnewline, List.count_cons_self,
          Nat.zero_add]
        · rw [readLog_append hnewline, String.ofList_toList, fromStr_toStr_entry has.1, hread,
            List.take_succ_cons, List.map_cons, List.cons_append]
        · rwa [List.getElem?_cons_succ]

/-! ## Writing what is read -/

/-- The texts of a log have only integers for numbers. -/
def IntegerLog (F : LineFormat) (cs : List Char) : Prop :=
  ∀ l ∈ lines cs, F.IntegerText (String.ofList l)

/-- A log of integers is written as one. -/
theorem integerLog_writeLog {as : List α} (has : ∀ a ∈ as, (C.serialize a).IntegerOnly) :
    IntegerLog F (writeLog F C as) := by
  induction as with
  | nil => exact fun l hl => absurd hl List.not_mem_nil
  | cons a as ih =>
    rw [List.forall_mem_cons] at has
    rw [IntegerLog, writeLog, lines_append_cons (newline_notMem_toStr a), List.forall_mem_cons]
    refine ⟨fun j hj => ?_, ih has.2⟩
    rw [String.ofList_toList, TextFormat.toStr, F.parse_print _ has.1] at hj
    split_ifs at hj
    exact Option.some_inj.1 hj ▸ has.1

/-- What is read from a line is no deeper than lines may be. -/
theorem entryOf_of_fromStr {env : ε} {t : String} {a : α} (ht : F.IntegerText t)
    (h : F.fromStr (C.deserialize env) t = some a) :
    (C.serialize a).IntegerOnly ∧ entryOf C a = some a := by
  obtain ⟨j, hj, ha⟩ := Option.bind_eq_some_iff.1 h
  have hdepth : (C.serialize a).depth ≤ recursionLimit :=
    (C.depth_le ha).trans (F.depth_parse hj)
  exact ⟨C.integerOnly (ht j hj) ha, if_pos hdepth⟩

/-- What is read from a log is read from one of its lines. -/
theorem mem_readLog {envs : ℕ → ε} {cs : List Char} {o : Option α} (h : o ∈ readLog F C envs cs) :
    ∃ l ∈ lines cs, ∃ env, F.fromStr (C.deserialize env) (String.ofList l) = o := by
  rw [readLog, List.mem_mapIdx] at h
  obtain ⟨i, hi, rfl⟩ := h
  exact ⟨_, List.getElem_mem hi, _, rfl⟩

/-- The entries that are read from any log are written as a log from which they
    are all read, in whatever environments. -/
theorem readLog_writeLog_readLog {cs : List Char} (hcs : IntegerLog F cs) (envs envs' : ℕ → ε) :
    readLog F C envs' (writeLog F C (readLog F C envs cs).reduceOption) =
      (readLog F C envs cs).reduceOption.map some := by
  have hentry : ∀ a ∈ (readLog F C envs cs).reduceOption,
      (C.serialize a).IntegerOnly ∧ entryOf C a = some a := by
    intro a ha
    obtain ⟨l, hl, env, hread⟩ := mem_readLog (List.reduceOption_mem_iff.1 ha)
    exact entryOf_of_fromStr (hcs l hl) hread
  rw [readLog_writeLog fun a ha => (hentry a ha).1]
  exact List.map_congr_left fun a ha => (hentry a ha).2

end Log

end Serde
