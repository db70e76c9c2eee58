import NPFoundation.Sys.Diagnostics
import Mathlib.Data.List.DropRight

/-!
# What a `Diagnostics` records

A history of calls, and what it should leave behind: the errors since the last `clearError`
and a line for every message. `append(const Message &)` does what it should for every
message. The printf-style members go through the other `append`, which gives up on a text
of length 0 as it does on a failure to format, so they do it for every text but the empty
one.
-/

namespace NPFoundation.Diagnostics

/-! ## Histories -/

/-- The calls that log or forget. A text is what formatting yields. -/
inductive Call where
  | debug (text : String)
  | info (text : String)
  | warning (text : String)
  | error (text : String)
  | append (message : Message)
  | clearError
  deriving DecidableEq, Repr

/-- The message of a printf-style call. -/
def Call.formatted : Call → Option Message
  | .debug text => some ⟨.debug, text⟩
  | .info text => some ⟨.info, text⟩
  | .warning text => some ⟨.warning, text⟩
  | .error text => some ⟨.error, text⟩
  | .append _ => none
  | .clearError => none

/-- The message a call logs, whichever way. -/
def Call.message : Call → Option Message
  | .append message => some message
  | call => call.formatted

def perform (diag : Diagnostics) : Call → Diagnostics
  | .debug text => diag.debug text
  | .info text => diag.info text
  | .warning text => diag.warning text
  | .error text => diag.error text
  | .append message => diag.append message
  | .clearError => diag.clearError

/-- A fresh `Diagnostics` after some calls; `stream` holds what was written there before. -/
def after (stream : Option String) (prefixText : String) (calls : List Call) : Diagnostics :=
  calls.foldl perform ⟨stream, prefixText, []⟩

/-! ## What a history should leave behind -/

def messages (calls : List Call) : List Message := calls.filterMap Call.message

/-- The calls since the last `clearError`. -/
def sinceClear (calls : List Call) : List Call := calls.rtakeWhile (· ≠ .clearError)

/-- The error-level messages logged since the last `clearError`. -/
def loggedErrors (calls : List Call) : List Message :=
  (messages (sinceClear calls)).filter (·.behavior = .error)

def prefixPart (prefixText : String) : String :=
  if prefixText = "" then "" else "[" ++ cString prefixText ++ "] "

/-- A line for every message of every level. -/
def output (prefixText : String) (calls : List Call) : String :=
  String.join ((messages calls).map fun message => prefixPart prefixText ++ message.text ++ "\n")

/-- What a history should have left behind. -/
structure Recorded (stream : Option String) (prefixText : String) (calls : List Call)
    (diag : Diagnostics) : Prop where
  errors : diag.getErrors = loggedErrors calls
  hasError : diag.hasError = true ↔ loggedErrors calls ≠ []
  noError : diag.noError = !diag.hasError
  written : (∀ message ∈ messages calls, '\x00' ∉ message.text.toList) →
    diag.stream = stream.map (· ++ output prefixText calls)

/-! ## One call -/

variable {stream : Option String} {prefixText : String} {calls : List Call} {diag : Diagnostics}

theorem after_snoc (calls : List Call) (call : Call) :
    after stream prefixText (calls ++ [call])
      = (after stream prefixText calls).perform call := by
  rw [after, List.foldl_append]
  rfl

theorem cString_eq {text : String} (h : '\x00' ∉ text.toList) : cString text = text := by
  have hall : text.toList.takeWhile (· ≠ '\x00') = text.toList := by
    rw [List.takeWhile_eq_self_iff]
    intro c hc
    have hne : c ≠ '\x00' := fun he => h (he ▸ hc)
    simpa using hne
  rw [cString, hall, String.ofList_toList]

/-- A call forgets, or it logs a message; a printf-style one by formatting it. -/
theorem perform_cases (diag : Diagnostics) (call : Call) :
    call = .clearError ∨ ∃ message, call.message = some message
      ∧ ((call.formatted = none ∧ diag.perform call = diag.append message)
        ∨ (call.formatted = some message
          ∧ diag.perform call = diag.appendFormatted message.behavior (some message.text))) := by
  cases call with
  | debug text => exact .inr ⟨_, rfl, .inr ⟨rfl, rfl⟩⟩
  | info text => exact .inr ⟨_, rfl, .inr ⟨rfl, rfl⟩⟩
  | warning text => exact .inr ⟨_, rfl, .inr ⟨rfl, rfl⟩⟩
  | error text => exact .inr ⟨_, rfl, .inr ⟨rfl, rfl⟩⟩
  | append message => exact .inr ⟨message, rfl, .inl ⟨rfl, rfl⟩⟩
  | clearError => exact .inl rfl

theorem appendFormatted_nonempty {behavior : Behavior} {text : String} (h : text ≠ "") :
    diag.appendFormatted behavior (some text) = diag.append ⟨behavior, text⟩ := by
  dsimp only [appendFormatted]
  rw [if_neg (by rwa [String.isEmpty_iff])]

theorem appendFormatted_empty (diag : Diagnostics) (behavior : Behavior) :
    diag.appendFormatted behavior (some "") = diag := rfl

/-- The prefix, and whether there is a stream, are never changed. -/
theorem perform_keeps (diag : Diagnostics) (call : Call) :
    (diag.perform call).prefixText = diag.prefixText
      ∧ (diag.perform call).stream.isSome = diag.stream.isSome := by
  rcases perform_cases diag call with rfl | ⟨message, -, ⟨-, heq⟩ | ⟨-, heq⟩⟩
  · exact ⟨rfl, rfl⟩
  · rw [heq]
    exact ⟨rfl, Option.isSome_map⟩
  · rw [heq]
    by_cases h : message.text = ""
    · rw [h, appendFormatted_empty]
      exact ⟨rfl, rfl⟩
    · rw [appendFormatted_nonempty h]
      exact ⟨rfl, Option.isSome_map⟩

theorem after_keeps (stream : Option String) (prefixText : String) (calls : List Call) :
    (after stream prefixText calls).prefixText = prefixText
      ∧ (after stream prefixText calls).stream.isSome = stream.isSome := by
  induction calls using List.reverseRecOn with
  | nil => exact ⟨rfl, rfl⟩
  | append_singleton calls call ih =>
      obtain ⟨hpart, hstream⟩ := perform_keeps (after stream prefixText calls) call
      rw [after_snoc]
      exact ⟨hpart.trans ih.1, hstream.trans ih.2⟩

/-- Nothing is left of an empty text exactly when nothing should be. -/
theorem append_empty_iff (diag : Diagnostics) (behavior : Behavior) :
    diag = diag.append ⟨behavior, ""⟩ ↔ behavior ≠ .error ∧ diag.stream.isSome = false := by
  constructor
  · intro heq
    constructor
    · intro hb
      have hlen := congrArg (fun d => d.errors.length) heq
      simp [append, hb] at hlen
    · rw [Bool.eq_false_iff, ne_eq, Option.isSome_iff_exists]
      intro hsome
      obtain ⟨out, hout⟩ := hsome
      -- the line would end in a newline at least
      have hlen := congrArg (fun d => (d.stream.map String.length).getD 0) heq
      simp [append, hout, line, String.length_append] at hlen
  · intro hquiet
    obtain ⟨hb, hstream⟩ := hquiet
    have hnone : diag.stream = none := by simpa using hstream
    rcases diag with ⟨stream, prefixText, errors⟩
    simp only [append, if_neg hb]
    rw [show stream = none from hnone]
    rfl

/-- A printf-style call does what `append` does with its message, unless the text is empty and
there is something to record. -/
theorem perform_formatted {call : Call} {message : Message} (hm : call.formatted = some message) :
    diag.perform call = diag.append message ↔
      (message.text = "" → message.behavior ≠ .error ∧ diag.stream.isSome = false) := by
  rcases perform_cases diag call with rfl | ⟨message', -, ⟨hnone, -⟩ | ⟨hsome, heq⟩⟩
  · exact absurd hm (by simp [Call.formatted])
  · exact absurd (hnone.symm.trans hm) (by simp)
  · obtain rfl : message = message' := Option.some.inj (hm.symm.trans hsome)
    rw [heq]
    rcases message with ⟨behavior, text⟩
    dsimp only
    by_cases h : text = ""
    · subst h
      rw [appendFormatted_empty, append_empty_iff]
      exact ⟨fun hq _ => hq, fun hq => hq rfl⟩
    · exact iff_of_true (appendFormatted_nonempty h) fun he => absurd he h

/-! ## One call more in the record -/

theorem messages_snoc {call : Call} {message : Message} (hm : call.message = some message)
    (calls : List Call) : messages (calls ++ [call]) = messages calls ++ [message] := by
  rw [messages, List.filterMap_append, List.filterMap_cons_some hm]
  rfl

theorem sinceClear_snoc {call : Call} (h : call ≠ .clearError) (calls : List Call) :
    sinceClear (calls ++ [call]) = sinceClear calls ++ [call] :=
  List.rtakeWhile_concat_pos _ _ _ (by simpa using h)

theorem loggedErrors_snoc {call : Call} {message : Message} (hm : call.message = some message)
    (calls : List Call) : loggedErrors (calls ++ [call])
      = loggedErrors calls ++ if message.behavior = .error then [message] else [] := by
  have hne : call ≠ .clearError := by
    intro hc
    rw [hc] at hm
    exact absurd hm (by simp [Call.message, Call.formatted])
  rw [loggedErrors, sinceClear_snoc hne, messages_snoc hm, List.filter_append, loggedErrors,
    List.filter_singleton]
  simp

theorem append_errors (diag : Diagnostics) (message : Message) : (diag.append message).getErrors
    = diag.getErrors ++ if message.behavior = .error then [message] else [] := by
  rw [getErrors, append, getErrors]
  split
  · rfl
  · exact (List.append_nil _).symm

theorem output_snoc {call : Call} {message : Message} (hm : call.message = some message)
    (prefixText : String) (calls : List Call) : output prefixText (calls ++ [call])
      = output prefixText calls ++ (prefixPart prefixText ++ message.text ++ "\n") := by
  rw [output, messages_snoc hm, List.map_append, String.join_append]
  simp [output]

/-- Whether there is an error is a matter of the list. -/
theorem Recorded.of_lists (herrors : diag.getErrors = loggedErrors calls)
    (hwritten : (∀ message ∈ messages calls, '\x00' ∉ message.text.toList) →
      diag.stream = stream.map (· ++ output prefixText calls)) :
    Recorded stream prefixText calls diag where
  errors := herrors
  hasError := by
    rw [← herrors, getErrors, Diagnostics.hasError]
    simp
  noError := by simp [Diagnostics.noError, Diagnostics.hasError]
  written := hwritten

/-- What `append` does to the record is right for every message. -/
theorem Recorded.append {call : Call} {message : Message}
    (h : Recorded stream prefixText calls diag) (hpart : diag.prefixText = prefixText)
    (hm : call.message = some message) :
    Recorded stream prefixText (calls ++ [call]) (diag.append message) := by
  apply Recorded.of_lists
  · rw [append_errors, h.errors, loggedErrors_snoc hm]
  · intro hnul
    rw [messages_snoc hm] at hnul
    have hbefore := h.written fun m hmem => hnul m (List.mem_append_left _ hmem)
    have htext := cString_eq (hnul message (by simp))
    rw [output_snoc hm, Diagnostics.append]
    dsimp only
    rw [hbefore, line, hpart, htext, Option.map_map]
    congr 1
    funext out
    simp only [Function.comp_apply, prefixPart, String.append_assoc]

theorem Recorded.clearError (h : Recorded stream prefixText calls diag) :
    Recorded stream prefixText (calls ++ [.clearError]) diag.clearError := by
  have hmessages : messages (calls ++ [.clearError]) = messages calls := by
    rw [messages, List.filterMap_append]
    exact List.append_nil _
  apply Recorded.of_lists
  · rw [loggedErrors, sinceClear, List.rtakeWhile_concat_neg _ _ _ (by simp)]
    rfl
  · intro hnul
    rw [hmessages] at hnul
    rw [output, hmessages]
    exact h.written hnul

/-! ## Whole histories -/

theorem recorded_start (stream : Option String) (prefixText : String) :
    Recorded stream prefixText [] (after stream prefixText []) := by
  apply Recorded.of_lists
  · rfl
  · intro _
    cases stream with
    | none => rfl
    | some out => exact congrArg some (String.append_empty).symm

/-- A call keeps the record if it is not a printf-style one that `append` would do better. -/
theorem Recorded.perform {call : Call} (h : Recorded stream prefixText calls diag)
    (hpart : diag.prefixText = prefixText)
    (hdoes : ∀ message, call.formatted = some message →
      diag.perform call = diag.append message) :
    Recorded stream prefixText (calls ++ [call]) (diag.perform call) := by
  rcases perform_cases diag call with rfl | ⟨message, hm, ⟨-, heq⟩ | ⟨hsome, -⟩⟩
  · exact h.clearError
  · rw [heq]
    exact h.append hpart hm
  · rw [hdoes message hsome]
    exact h.append hpart hm

/-- **What a `Diagnostics` records, over whole histories.** From a fresh one, after every initial
segment of the calls the errors are those logged since the last `clearError`, `hasError` and
`noError` say whether there is one, and the stream has a line for every message; and each
printf-style call does what `append` does with its message. That holds exactly when no
printf-style call formats to the empty text, but for those below error level without a
stream. -/
theorem history_recorded_iff (stream : Option String) (prefixText : String) (calls : List Call) :
    ((∀ before, before <+: calls →
        Recorded stream prefixText before (after stream prefixText before))
      ∧ ∀ before call rest message, calls = before ++ call :: rest →
          call.formatted = some message →
          (after stream prefixText before).perform call
            = (after stream prefixText before).append message)
    ↔ ∀ call ∈ calls, ∀ message, call.formatted = some message → message.text = "" →
        message.behavior ≠ .error ∧ stream = none := by
  have hagree : ∀ before {call : Call} {message : Message}, call.formatted = some message →
      ((after stream prefixText before).perform call
          = (after stream prefixText before).append message ↔
        (message.text = "" → message.behavior ≠ .error ∧ stream = none)) := by
    intro before call message hm
    rw [perform_formatted hm, (after_keeps stream prefixText before).2, Option.isSome_eq_false_iff,
      Option.isNone_iff_eq_none]
  constructor
  · intro hrecords call hcall message hm
    have hpaths := hrecords.2
    obtain ⟨before, rest, hsplit⟩ := List.append_of_mem hcall
    exact (hagree before hm).mp (hpaths before call rest message hsplit hm)
  · intro hcalls
    refine ⟨?_, ?_⟩
    · intro before
      induction before using List.reverseRecOn with
      | nil => exact fun _ => recorded_start stream prefixText
      | append_singleton before call ih =>
          intro hbefore
          obtain ⟨rest, hrest⟩ := hbefore
          rw [List.append_assoc] at hrest
          rw [after_snoc]
          refine (ih ⟨_, hrest⟩).perform (after_keeps stream prefixText before).1 ?_
          intro message hm
          have hcall : call ∈ calls := by rw [← hrest]; simp
          exact (hagree before hm).mpr (hcalls call hcall message hm)
    · intro before call rest message hsplit hm
      have hcall : call ∈ calls := by rw [hsplit]; simp
      exact (hagree before hm).mpr (hcalls call hcall message hm)

/-- An error with an empty text is dropped by `error` and kept by `append`. -/
theorem empty_error_dropped :
    (after none "" [.error ""]).hasError = false
      ∧ loggedErrors [.error ""] = [⟨.error, ""⟩]
      ∧ (after none "" [.append ⟨.error, ""⟩]).getErrors = [⟨.error, ""⟩]
      ∧ ¬ Recorded none "" [.error ""] (after none "" [.error ""]) := by
  refine ⟨rfl, by decide, rfl, ?_⟩
  intro h
  exact absurd h.errors (by decide)

end NPFoundation.Diagnostics
