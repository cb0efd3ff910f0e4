import AgentPrimitives.Nesting
import AgentPrimitives.Serde.Log

/-!
# Streams of events

The agent loop reports its events one a line, and each line is an event of its
own. A consumer reads the lines, and renders what it reads.

* Every event is read back from its line, but for those that are nested too
  deeply; what is rendered is what was reported (`readStream_writeStream`).
* From a stream that is cut off anywhere, as by a loop that is killed, the
  events up to there are read and rendered (`readStream_cutOff`).
* A stream that is read and written again, by a consumer that keeps it, is read
  as the same events ever after (`readStream_writeStream_readStream`).
* What is read from a text that is not at the limit can be reported
  (`readBack_of_depth`).
-/

namespace AgentPrimitives

open Serde Serde.Json

variable {Uuid DateTime : Type}

/-! ## Rendering -/

/-- What is appended for an event: the text of a delta, and a mark at the end. -/
def AgentEvent.rendered : AgentEvent Uuid DateTime → String
  | .messageDelta _ _ text => text
  | .agentStop _ .completed => "\n[done]"
  | _ => ""

/-- `render`: driving a user interface from a stream of events. -/
def render (stream : List (AgentEvent Uuid DateTime)) : String :=
  stream.foldl (fun out e => out ++ e.rendered) ""

/-- Rendering appends to what was rendered before. -/
theorem foldl_rendered (out : String) (es : List (AgentEvent Uuid DateTime)) :
    es.foldl (fun out e => out ++ e.rendered) out = out ++ render es := by
  induction es generalizing out with
  | nil => rw [List.foldl_nil, render, List.foldl_nil, String.append_empty]
  | cons e es ih =>
    rw [render, List.foldl_cons, List.foldl_cons, ih, ih ("" ++ e.rendered), String.empty_append,
      String.append_assoc]

@[simp] theorem render_nil : render ([] : List (AgentEvent Uuid DateTime)) = "" := rfl

/-- Events are rendered one after the other. -/
theorem render_cons (e : AgentEvent Uuid DateTime) (es : List (AgentEvent Uuid DateTime)) :
    render (e :: es) = e.rendered ++ render es := by
  rw [render, List.foldl_cons, foldl_rendered, String.empty_append]

/-! ## Writing and reading streams -/

variable [StringCodec Uuid] [StringCodec DateTime]

namespace AgentEvent

/-- Events, as entries of logs. -/
def codec : LogCodec (Env Uuid DateTime) (AgentEvent Uuid DateTime) where
  serialize := serialize
  deserialize := deserialize
  object e := by cases e <;> exact ⟨_, rfl⟩
  deserialize_serialize env e := e.read_serialize env .direct
  depth_le h := depth_serialize_le (r := .direct) h
  integerOnly hj h := numbers_serialize (r := .direct) hj h

/-- The lines of the given events. -/
def writeStream (F : LineFormat) (es : List (AgentEvent Uuid DateTime)) : List Char :=
  writeLog F codec es

/-- What is read from the lines of a text, each with an environment of its own. -/
def readStream (F : LineFormat) (envs : ℕ → Env Uuid DateTime) (cs : List Char) :
    List (Option (AgentEvent Uuid DateTime)) := readLog F codec envs cs

/-- What is read from the line of an event: the event, if it is not nested too
    deeply. -/
def ofLine (e : AgentEvent Uuid DateTime) : Option (AgentEvent Uuid DateTime) :=
  if e.serialize.depth ≤ recursionLimit then some e else none

variable {F : LineFormat} {es : List (AgentEvent Uuid DateTime)}

/-- What is rendered is never nested too deeply. -/
theorem rendered_of_deep {e : AgentEvent Uuid DateTime} (he : e.ofLine = none) :
    e.rendered = "" := by
  rw [ofLine, ite_eq_right_iff] at he
  cases e with
  | messageDelta sessionId messageId text =>
    have hdepth : (messageDelta sessionId messageId text : AgentEvent Uuid DateTime).serialize.depth
        ≤ recursionLimit := by
      simp [serialize, MessageId.serialize, depth_tagged_le_iff, recursionLimit]
    cases he hdepth
  | agentStop sessionId reason =>
    have hdepth : (agentStop sessionId reason : AgentEvent Uuid DateTime).serialize.depth
        ≤ recursionLimit := by
      simp [serialize, reason.depth_serialize, depth_tagged_le_iff, recursionLimit]
    cases he hdepth
  | _ => rfl

/-- The lines that are rejected are not missed in what is rendered. -/
theorem render_ofLine (es : List (AgentEvent Uuid DateTime)) :
    render (es.map ofLine).reduceOption = render es := by
  induction es with
  | nil => rfl
  | cons e es ih =>
    rw [List.map_cons, render_cons]
    cases he : e.ofLine with
    | none => rw [List.reduceOption_cons_of_none, ih, rendered_of_deep he, String.empty_append]
    | some e' =>
      obtain rfl : e = e' := Option.some_inj.1 (Option.ite_none_right_eq_some.1 he).2
      rw [List.reduceOption_cons_of_some, render_cons, ih]

/-- A stream of integers is read back line by line: every event, but for those
    that are nested too deeply. What is rendered is what was reported. -/
theorem readStream_writeStream (hes : ∀ e ∈ es, e.serialize.IntegerOnly)
    (envs : ℕ → Env Uuid DateTime) :
    readStream F envs (writeStream F es) = es.map ofLine ∧
      render (readStream F envs (writeStream F es)).reduceOption = render es := by
  have hread : readStream F envs (writeStream F es) = es.map ofLine :=
    readLog_writeLog (C := codec) hes envs
  exact ⟨hread, hread ▸ render_ofLine es⟩

/-- From a stream that is cut off anywhere, the events are read whose lines are
    complete, and perhaps the one after them; the rest of the last line is dropped
    or rejected. What is rendered is what the events that are read render. -/
theorem readStream_cutOff (hes : ∀ e ∈ es, e.serialize.IntegerOnly) {cs : List Char}
    (hcs : cs <+: writeStream F es) (envs : ℕ → Env Uuid DateTime) :
    ∃ n, cs.count '\n' ≤ n ∧ n ≤ cs.count '\n' + 1 ∧
      (readStream F envs cs = (es.take n).map ofLine ∨
        readStream F envs cs = (es.take n).map ofLine ++ [none]) ∧
      render (readStream F envs cs).reduceOption = render (es.take n) := by
  obtain ⟨last, hread, hlast⟩ := readLog_cutOff (C := codec) hes hcs envs
  change readStream F envs cs = (es.take (cs.count '\n')).map ofLine ++ last at hread
  rcases hlast with rfl | rfl | ⟨e, he, rfl⟩
  · rw [List.append_nil] at hread
    exact ⟨_, le_rfl, Nat.le_succ _, .inl hread, hread ▸ render_ofLine _⟩
  · refine ⟨_, le_rfl, Nat.le_succ _, .inr hread, ?_⟩
    rw [hread, List.reduceOption_append, List.reduceOption_singleton, Option.toList_none,
      List.append_nil, render_ofLine]
  · -- The last line only lacks its end: its event is read as well.
    have htake : es.take (cs.count '\n' + 1) = es.take (cs.count '\n') ++ [e] := by
      rw [List.take_add_one, he, Option.toList_some]
    have hread' : readStream F envs cs = (es.take (cs.count '\n' + 1)).map ofLine := by
      rw [hread, htake, List.map_append]
      rfl
    exact ⟨_, Nat.le_succ _, le_rfl, .inl hread', hread' ▸ render_ofLine _⟩

/-- A text whose lines have only integers for numbers, read as a stream and
    written again: all that was read is read from it, in whatever environments. -/
theorem readStream_writeStream_readStream {cs : List Char} (hcs : IntegerLog F cs)
    (envs envs' : ℕ → Env Uuid DateTime) :
    readStream F envs' (writeStream F (readStream F envs cs).reduceOption) =
      (readStream F envs cs).reduceOption.map some :=
  readLog_writeLog_readLog (C := codec) hcs envs envs'

/-! ## Reporting what is read -/

/-- An event adds a level to what it carries, and no number. -/
theorem readBack_of_carried {F : TextFormat} {e : AgentEvent Uuid DateTime}
    {name sessionId key : String} {d : Json}
    (he : e.serialize = tagged "event" name [("session_id", .string sessionId), (key, d)])
    (hd : d.IntegerOnly) (hdepth : d.depth < recursionLimit) (env : Env Uuid DateTime) :
    readBack F env e = some e := by
  refine (readBack_eq F env ?_ (he ▸ depth_tagged_payload _ _ _ _)).trans (if_pos hdepth)
  simp [he, numbers_tagged, numbers_string, hd]

/-- What is read from a text that leaves a level for it can be reported: the event
    that carries it is read back from its line. The last message of a subagent
    takes two levels. -/
theorem readBack_of_depth {F : TextFormat} {t : String} (ht : F.parse t = some j)
    (hj : j.IntegerOnly) (hdepth : j.depth < recursionLimit) (env env' : Env Uuid DateTime)
    (sessionId : String) :
    (∀ c, F.fromStr ToolCall.deserialize t = some c →
      readBack F env' (.toolCallStart sessionId c) = some (.toolCallStart sessionId c)) ∧
    (∀ x, F.fromStr ToolResult.deserialize t = some x →
      readBack F env' (.toolCallEnd sessionId x) = some (.toolCallEnd sessionId x)) ∧
    (∀ x, F.fromStr (SubagentResult.deserialize env) t = some x →
      readBack F env' (.subagentResult sessionId x) = some (.subagentResult sessionId x)) ∧
    ∀ m, F.fromStr (Message.deserialize env) t = some m →
      readBack F env' (.messageEnd sessionId m) = some (.messageEnd sessionId m) ∧
        (j.depth + 1 < recursionLimit → ∀ id reason,
          readBack F env' (.subagentResult sessionId ⟨id, reason, some m⟩) =
            some (.subagentResult sessionId ⟨id, reason, some m⟩)) := by
  have hdocument : ∀ {α : Type} {deserialize : Json → Option α} {a : α},
      F.fromStr deserialize t = some a → deserialize j = some a := fun h => by
    rwa [TextFormat.fromStr, ht, Option.bind_some] at h
  refine ⟨fun c hc => ?_, fun x hx => ?_, fun x hx => ?_, fun m hm => ⟨?_, fun hm' id reason => ?_⟩⟩
  · have hread : ToolCall.read .direct j = some c := hdocument hc
    exact readBack_of_carried rfl (ToolCall.numbers_serialize hj hread)
      ((ToolCall.depth_serialize_le hread).trans_lt hdepth) env'
  · have hread : ToolResult.read .direct j = some x := hdocument hx
    exact readBack_of_carried rfl (ToolResult.numbers_serialize hj hread)
      ((ToolResult.depth_serialize_le hread).trans_lt hdepth) env'
  · have hread : SubagentResult.read env .direct j = some x := hdocument hx
    exact readBack_of_carried rfl (SubagentResult.numbers_serialize hj hread)
      ((SubagentResult.depth_serialize_le hread).trans_lt hdepth) env'
  · have hread : Message.read env .direct j = some m := hdocument hm
    exact readBack_of_carried rfl (Message.numbers_serialize hj hread)
      ((Message.depth_serialize_le hread).trans_lt hdepth) env'
  · -- The result of the subagent is a level of its own.
    have hread : Message.read env .direct j = some m := hdocument hm
    refine readBack_of_carried rfl ?_ ?_ env'
    · simp [SubagentResult.serialize, numbers_object, numbers_string,
        Message.numbers_serialize hj hread, reason.numbers_serialize]
    · rw [SubagentResult.depth_serialize]
      exact (Nat.succ_le_succ (Message.depth_serialize_le hread)).trans_lt hm'

/-! ## A stream -/

/-- Lines of integers. -/
def integerLines : LineFormat :=
  compactLines (fun _ => []) fun _ _ h => absurd h List.not_mem_nil

/-- A stream with a single delta. -/
def greeting : List (AgentEvent (Canonical isUuid) (Canonical isTimestamp)) :=
  [.messageDelta "s" ⟨epoch.newV4⟩ "hello", .agentStop "s" .completed]

theorem integerOnly_greeting : ∀ e ∈ greeting, e.serialize.IntegerOnly := by
  simp [greeting, serialize, MessageId.serialize, numbers_tagged, numbers_string,
    StopReason.numbers_serialize]

theorem readStream_writeStream_greeting :
    render (readStream integerLines (fun _ => epoch)
      (writeStream integerLines greeting)).reduceOption = "hello\n[done]" :=
  (readStream_writeStream integerOnly_greeting _).2

/-- A stream of a run in which nothing happened. -/
def idleRun : List (AgentEvent (Canonical isUuid) (Canonical isTimestamp)) :=
  [.agentStart "s", .agentStop "s" .completed]

theorem integerOnly_idleRun : ∀ e ∈ idleRun, e.serialize.IntegerOnly := by
  simp [idleRun, serialize, numbers_tagged, numbers_string, StopReason.numbers_serialize]

/-- The idle run, cut off in its second line: the start is read, and what is left of the
    line is rejected. -/
theorem readStream_cutOff_idleRun :
    let cs := (writeStream integerLines idleRun).take 50
    readStream integerLines (fun _ => epoch) cs = [some (.agentStart "s"), none] ∧
      ∃ n, cs.count '\n' ≤ n ∧ n ≤ cs.count '\n' + 1 ∧
        render (readStream integerLines (fun _ => epoch) cs).reduceOption =
          render (idleRun.take n) := by
  intro cs
  have hcs : cs <+: writeStream integerLines idleRun := List.take_prefix 50 _
  have hcount : cs.count '\n' = 1 := by decide +kernel
  have hsome : (readStream integerLines (fun _ => epoch) cs).map Option.isSome = [true, false] := by
    decide +kernel
  obtain ⟨n, hn, hn', hread, hrender⟩ := readStream_cutOff integerOnly_idleRun hcs fun _ => epoch
  refine ⟨?_, n, hn, hn', hrender⟩
  -- One line is complete, so it is read, and the other is rejected.
  rw [hcount] at hn hn'
  obtain rfl | rfl : n = 1 ∨ n = 2 := by omega
  · rcases hread with hread | hread
    · rw [hread] at hsome
      cases hsome
    · exact hread
  · rcases hread with hread | hread
    · rw [hread] at hsome
      cases hsome
    · rw [hread] at hsome
      cases hsome

theorem readStream_writeStream_readStream_greeting :
    readStream integerLines (fun _ => epoch) (writeStream integerLines (readStream integerLines
        (fun _ => epoch) (writeStream integerLines greeting)).reduceOption) =
      (readStream integerLines (fun _ => epoch)
        (writeStream integerLines greeting)).reduceOption.map some :=
  readStream_writeStream_readStream (integerLog_writeLog (C := codec) integerOnly_greeting) _ _

/-- A call with an input of a single level can be reported. -/
theorem readBack_of_depth_nestedCall :
    readBack (compact fun _ => []) epoch (.toolCallStart "s" (nestedCall 1)) =
      some (.toolCallStart "s" (nestedCall 1)) :=
  have hdepth : (nestedCall 1).serialize.depth < recursionLimit := by
    rw [depth_nestedCall]
    decide
  have hparse : (compact fun _ => []).parse ((compact fun _ => []).toStr ToolCall.serialize
      (nestedCall 1)) = some (nestedCall 1).serialize := by
    rw [TextFormat.toStr, TextFormat.parse_print _ _ (integerOnly_nestedCall 1), if_pos hdepth.le]
  (readBack_of_depth hparse (integerOnly_nestedCall 1) hdepth epoch epoch "s").1 (nestedCall 1)
    (fromStr_nestedCall _ (by decide))

end AgentEvent

end AgentPrimitives
