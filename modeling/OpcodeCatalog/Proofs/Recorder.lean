import OpcodeCatalog.Proofs.LookAhead
import OpcodeCatalog.Proofs.Lexing

/-!
# Recorders

A reader stops at the first refusal, and a fault is one as soon as it is fetched.
A recorder does not stop there.  It fetches what a scanner hands out, one thing
after the other, and keeps the first refusal that it is told; a routine on it
gives up or goes on, and behind a fault it goes on too.  `Outcome` says what a
routine comes to if it does as a reader does: what the reader refuses is
recorded, if nothing was before, and the fault that was fetched last is never
left behind.
-/

namespace OpcodeCatalog.Source

open TokenStream

namespace Reading

def kind : Reading → TokenKind
  | .token found => found.lexeme.kind
  | .ending last => if last.fault.isSome then .error else .endOfInput

def location : Reading → Location
  | .token found => found.location
  | .ending last => last.location

/-- What a source is refused for where a fault is read. -/
def refusal? : Reading → Option Refusal
  | .token _ => none
  | .ending last => last.fault.map fun fault => ⟨.lexical fault, last.location⟩

theorem kind_eq_mark_iff {reading : Reading} {mark : Mark} :
    reading.kind = .mark mark ↔ ∃ token, reading = .token token ∧ token.lexeme = .mark mark := by
  cases reading with
  | token found =>
      obtain ⟨lexeme, place⟩ := found
      cases lexeme <;> simp [kind, Lexeme.kind]
  | ending last => cases fault : last.fault <;> simp [kind, fault]

theorem exists_ending_of_kind {reading : Reading} (atEnd : reading.kind = .endOfInput) :
    ∃ place, reading = .ending ⟨none, place⟩ := by
  cases reading with
  | token found =>
      obtain ⟨lexeme, place⟩ := found
      cases lexeme <;> cases atEnd
  | ending last =>
      obtain ⟨fault, place⟩ := last
      cases fault with
      | none => exact ⟨place, rfl⟩
      | some fault => cases atEnd

end Reading

namespace TokenStream

/-- All that is handed out with the stream, in order. -/
def readings (stream : TokenStream) : List Reading :=
  stream.tokens.map .token ++ [.ending stream.ending]

theorem readings_behind (used : List Token) (stream : TokenStream) :
    (stream.behind used).readings = used.map .token ++ stream.readings := by
  rw [readings, readings, behind, List.map_append, List.append_assoc]

theorem front_isPrefix_readings (stream : TokenStream) : [stream.front] <+: stream.readings := by
  obtain ⟨tokens, ending⟩ := stream
  cases tokens with
  | nil => exact List.prefix_rfl
  | cons first tokens => exact List.prefix_append [_] _

end TokenStream

variable {α β σ : Type}

/-- The state of a run over a source. -/
structure Recorder where
  scanner : Scanner
  /-- What was fetched and left behind, in order. -/
  passed : List Reading
  /-- What was fetched last. -/
  current : Reading
  recorded : Option Refusal

namespace Recorder

/-- Fetches what the scanner hands out next.  A fault is recorded, unless something is already. -/
def fetch (scanner : Scanner) (passed : List Reading) (recorded : Option Refusal) : Recorder :=
  let (reading, scanner) := scanner.next
  ⟨scanner, passed, reading, recorded.or reading.refusal?⟩

/-- A recorder that has fetched the first token of a source. -/
def ofSource (file : UInt32) (source : Bytes) : Recorder :=
  fetch (.ofSource file source) [] none

def advance (recorder : Recorder) : Recorder :=
  fetch recorder.scanner (recorder.passed ++ [recorder.current]) recorder.recorded

def record (recorder : Recorder) (refusal : Refusal) : Recorder :=
  { recorder with recorded := recorder.recorded.or (some refusal) }

/-- All that was fetched, in order. -/
def fetched (recorder : Recorder) : List Reading :=
  recorder.passed ++ [recorder.current]

/-- The stream whose front is what was fetched last. -/
def ahead (recorder : Recorder) : TokenStream :=
  match recorder.current with
  | .token token => recorder.scanner.run.1.behind [token]
  | .ending ending => ⟨[], ending⟩

end Recorder

/-- What is done to a recorder: it gives up, or it goes on with a value. -/
abbrev Routine (α : Type) : Type :=
  Recorder → Option α × Recorder

namespace Routine

def pure (value : α) : Routine α := fun recorder => (some value, recorder)

def bind (first : Routine α) (second : α → Routine β) : Routine β := fun recorder =>
  match first recorder with
  | (none, after) => (none, after)
  | (some value, after) => second value after

def failAt (place : Location) (reason : Reason) : Routine α := fun recorder =>
  (none, recorder.record ⟨reason, place⟩)

def fail (reason : Reason) : Routine α := fun recorder =>
  failAt recorder.current.location reason recorder

def location : Routine Location := fun recorder => (some recorder.current.location, recorder)

/-- Leaves the token that was fetched last behind if `pick` makes something of it. -/
def take (wanted : Wanted) (pick : Lexeme → Option (Except Reason α)) : Routine α :=
  fun recorder =>
    match recorder.current with
    | .ending _ => fail (.unexpected wanted recorder.current.kind) recorder
    | .token token =>
      match pick token.lexeme with
      | none => fail (.unexpected wanted recorder.current.kind) recorder
      | some (.error reason) => fail reason recorder
      | some (.ok value) => (some value, recorder.advance)

def takeMark? (mark : Mark) : Routine Bool := fun recorder =>
  if recorder.current.kind = .mark mark then (some true, recorder.advance)
  else (some false, recorder)

def endOfInput : Routine Unit := fun recorder =>
  if recorder.current.kind ≠ .endOfInput then fail .trailingContent recorder
  else (some (), recorder)

/-- Whether a mark was fetched last. -/
def standsAhead (mark : Mark) : Routine Bool := fun recorder =>
  (some (decide (recorder.current.kind = .mark mark)), recorder)

theorem bind_eq_some {first : Routine α} {second : α → Routine β} {recorder last : Recorder}
    {value : β} (ran : first.bind second recorder = (some value, last)) :
    ∃ middle between, first recorder = (some middle, between) ∧
      second middle between = (some value, last) := by
  unfold bind at ran
  split at ran
  · cases ran
  · next middle between early => exact ⟨middle, between, early, ran⟩

theorem endOfInput_eq_some {recorder after : Recorder}
    (ended : endOfInput recorder = (some (), after)) :
    after = recorder ∧ recorder.current.kind = .endOfInput := by
  unfold endOfInput at ended
  split at ended
  · cases ended
  · next last =>
    cases ended
    exact ⟨rfl, not_not.mp last⟩

/-- Where the routine goes on, fewer tokens are ahead. -/
def Advances (routine : Routine α) : Prop :=
  ∀ recorder value after, routine recorder = (some value, after) →
    after.ahead.tokens.length < recorder.ahead.tokens.length

end Routine

/-! ## What recorders fetch -/

namespace Recorder

variable {recorder after : Recorder}

theorem front_ahead (recorder : Recorder) : recorder.ahead.front = recorder.current := by
  unfold ahead
  cases recorder.current <;> rfl

theorem ahead_of_ending {ending : Ending} (ended : recorder.current = .ending ending) :
    recorder.ahead = ⟨[], ending⟩ := by
  rw [ahead, ended]

theorem ahead_of_token {token : Token} (found : recorder.current = .token token) :
    recorder.ahead = recorder.scanner.run.1.behind [token] := by
  rw [ahead, found]

theorem ahead_fetch (scanner : Scanner) (passed : List Reading) (recorded : Option Refusal) :
    (fetch scanner passed recorded).ahead = scanner.run.1 := by
  cases next : scanner.next with
  | mk reading rest =>
      cases reading with
      | token token => rw [Scanner.run_of_token next, fetch, next, ahead]
      | ending ending => rw [Scanner.run_of_ending next, fetch, next, ahead]

theorem kind_ahead (recorder : Recorder) : recorder.ahead.kind = recorder.current.kind := by
  unfold ahead
  cases recorder.current <;> rfl

theorem location_ahead (recorder : Recorder) :
    recorder.ahead.location = recorder.current.location := by
  unfold ahead
  cases recorder.current <;> rfl

theorem checked_ahead (recorder : Recorder) :
    recorder.ahead.checked = match recorder.current.refusal? with
      | none => .ok recorder.ahead
      | some refusal => .error refusal := by
  cases found : recorder.current with
  | token token =>
      rw [ahead_of_token found]
      rfl
  | ending ending =>
      rw [ahead_of_ending found]
      obtain ⟨fault, place⟩ := ending
      cases fault <;> rfl

/-- On the way from one recorder to the other exactly these tokens are left behind. -/
structure Passes (recorder : Recorder) (used : List Token) (after : Recorder) : Prop where
  split : recorder.ahead = after.ahead.behind used
  passed : after.passed = recorder.passed ++ used.map .token

namespace Passes

variable {last : Recorder} {used later : List Token}

theorem nothing (recorder : Recorder) : recorder.Passes [] recorder :=
  ⟨rfl, (List.append_nil _).symm⟩

theorem record (recorder : Recorder) (refusal : Refusal) :
    recorder.Passes [] (recorder.record refusal) :=
  ⟨rfl, (List.append_nil _).symm⟩

theorem advance {token : Token} (found : recorder.current = .token token) :
    recorder.Passes [token] recorder.advance where
  split := by rw [ahead_of_token found, Recorder.advance, ahead_fetch]
  passed := by
    change recorder.passed ++ [recorder.current] = _
    rw [found]
    rfl

theorem trans (first : recorder.Passes used after) (second : after.Passes later last) :
    recorder.Passes (used ++ later) last where
  split := by rw [first.split, second.split, behind_append]
  passed := by rw [second.passed, first.passed, List.map_append, List.append_assoc]

/-- Where nothing is left behind, nothing is fetched. -/
theorem current_eq (passes : recorder.Passes [] after) : after.current = recorder.current := by
  rw [← front_ahead after, ← front_ahead recorder, passes.split]
  rfl

/-- No fault was fetched on the way, nor before it. -/
theorem sound (passes : recorder.Passes used after)
    (before : used = [] → recorder.current.refusal? = none)
    (behind : used ≠ [] → after.current.refusal? = none) : after.current.refusal? = none := by
  by_cases none : used = []
  · subst none
    rw [passes.current_eq]
    exact before rfl
  · exact behind none

/-- Where an ending was fetched, nothing is left behind. -/
theorem of_ending {ending : Ending} (passes : recorder.Passes used after)
    (ended : recorder.current = .ending ending) : used = [] ∧ after.current = recorder.current := by
  have split := passes.split
  rw [ahead_of_ending ended] at split
  have none := (List.append_eq_nil_iff.mp (congrArg tokens split).symm).1
  subst none
  exact ⟨rfl, passes.current_eq⟩

/-- What was fetched comes first in the stream, in the same order. -/
theorem fetched_isPrefix (passes : recorder.Passes used after) (fresh : recorder.passed = []) :
    after.fetched <+: recorder.ahead.readings := by
  rw [fetched, passes.passed, fresh, List.nil_append, passes.split, readings_behind,
    ← front_ahead after]
  exact List.prefix_append_right_inj _ |>.mpr after.ahead.front_isPrefix_readings

/-- Where an ending was fetched, that is all there is. -/
theorem fetched_eq_readings {ending : Ending} (passes : recorder.Passes used after)
    (fresh : recorder.passed = []) (ended : after.current = .ending ending) :
    after.fetched = recorder.ahead.readings := by
  rw [fetched, passes.passed, fresh, List.nil_append, passes.split, readings_behind,
    ahead_of_ending ended, ended]
  rfl

/-- An ending that was fetched was fetched last. -/
theorem current_of_mem_fetched {ending : Ending} (passes : recorder.Passes used after)
    (fresh : recorder.passed = []) (member : .ending ending ∈ after.fetched) :
    after.current = .ending ending := by
  rw [fetched, passes.passed, fresh, List.nil_append, List.mem_append] at member
  rcases member with left | last
  · obtain ⟨token, _, same⟩ := List.mem_map.mp left
    cases same
  · exact (List.mem_singleton.mp last).symm

end Passes

theorem exists_ending_of_refusal? {refusal : Refusal}
    (faulty : recorder.current.refusal? = some refusal) :
    ∃ ending, recorder.current = .ending ending := by
  cases found : recorder.current with
  | token token =>
      rw [found] at faulty
      cases faulty
  | ending ending => exact ⟨ending, rfl⟩

end Recorder

/-! ## What routines come to -/

/-- What a routine comes to where a reader comes to the given outcome.  If it leaves anything
behind and does not fetch a fault then, it gives up just where the reader refuses.  If it does fetch
one, that is the refusal, whether or not it gives up. -/
inductive Outcome (recorder : Recorder) :
    Except Refusal (α × TokenStream) → Option α × Recorder → Prop where
  | read {value : α} {used : List Token} {after : Recorder} :
      recorder.Passes used after →
      (used ≠ [] → after.current.refusal? = none) →
      after.recorded = recorder.recorded →
      Outcome recorder (.ok (value, after.ahead)) (some value, after)
  | refused {refusal : Refusal} {used : List Token} {after : Recorder} :
      recorder.Passes used after →
      (used ≠ [] → after.current.refusal? = none) →
      after.recorded = recorder.recorded.or (some refusal) →
      Outcome recorder (.error refusal) (none, after)
  | spoiled {refusal : Refusal} {used : List Token} {after : Recorder} {result : Option α} :
      recorder.Passes used after →
      used ≠ [] →
      after.current.refusal? = some refusal →
      after.recorded = recorder.recorded.or (some refusal) →
      Outcome recorder (.error refusal) (result, after)

/-- On every recorder the routine comes to what the reader does. -/
def Follows (reader : Reader α) (routine : Routine α) : Prop :=
  ∀ recorder : Recorder, Outcome recorder (reader.run recorder.ahead) (routine recorder)

namespace Outcome

variable {recorder after : Recorder} {used : List Token} {outcome : Except Refusal (α × TokenStream)}
  {ran : Option α × Recorder} {refusal : Refusal}

theorem read_here (value : α) (recorder : Recorder) :
    Outcome recorder (.ok (value, recorder.ahead)) (some value, recorder) :=
  .read (.nothing recorder) (fun nonempty => (nonempty rfl).elim) rfl

theorem refused_here (refusal : Refusal) (recorder : Recorder) :
    Outcome recorder (.error refusal : Except Refusal (α × TokenStream))
      (none, recorder.record refusal) :=
  .refused (.record recorder refusal) (fun nonempty => (nonempty rfl).elim) rfl

/-- Behind tokens with which nothing was wrong. -/
theorem behind (later : Outcome after outcome ran) (passes : recorder.Passes used after)
    (sound : used ≠ [] → after.current.refusal? = none)
    (unchanged : after.recorded = recorder.recorded) : Outcome recorder outcome ran := by
  have soundBehind : ∀ {more : List Token} {last : Recorder}, after.Passes more last →
      (more ≠ [] → last.current.refusal? = none) → used ++ more ≠ [] →
        last.current.refusal? = none := by
    intro more last passesMore soundMore nonempty
    refine passesMore.sound (fun none => sound fun empty => nonempty ?_) soundMore
    rw [empty, none, List.append_nil]
  cases later with
  | read passesMore soundMore recorded =>
      exact .read (passes.trans passesMore) (soundBehind passesMore soundMore)
        (recorded.trans unchanged)
  | refused passesMore soundMore recorded =>
      refine .refused (passes.trans passesMore) (soundBehind passesMore soundMore) ?_
      rw [recorded, unchanged]
  | spoiled passesMore nonempty faulty recorded =>
      refine .spoiled (passes.trans passesMore) (List.append_ne_nil_of_right_ne_nil _ nonempty)
        faulty ?_
      rw [recorded, unchanged]

/-- Behind a fault nothing more is left behind or recorded, whatever the routine comes to. -/
theorem behind_fault (later : Outcome after outcome ran) (passes : recorder.Passes used after)
    (nonempty : used ≠ []) (faulty : after.current.refusal? = some refusal)
    (recorded : after.recorded = recorder.recorded.or (some refusal)) :
    Outcome recorder (.error refusal) ran := by
  obtain ⟨ending, ended⟩ := Recorder.exists_ending_of_refusal? faulty
  have nonemptyBehind : ∀ more : List Token, used ++ more ≠ [] := fun more =>
    List.append_ne_nil_of_left_ne_nil nonempty more
  cases later with
  | read passesMore _ unchanged =>
      obtain ⟨_, same⟩ := passesMore.of_ending ended
      exact .spoiled (passes.trans passesMore) (nonemptyBehind _) (same ▸ faulty)
        (unchanged.trans recorded)
  | refused passesMore _ recordedMore =>
      obtain ⟨_, same⟩ := passesMore.of_ending ended
      refine .spoiled (passes.trans passesMore) (nonemptyBehind _) (same ▸ faulty) ?_
      rw [recordedMore, recorded, Option.or_assoc, Option.some_or]
  | spoiled passesMore nonemptyMore =>
      exact (nonemptyMore (passesMore.of_ending ended).1).elim

theorem exists_passes (came : Outcome recorder outcome ran) :
    ∃ used, recorder.Passes used ran.2 := by
  cases came with
  | read passes => exact ⟨_, passes⟩
  | refused passes => exact ⟨_, passes⟩
  | spoiled passes => exact ⟨_, passes⟩

/-- Nothing gives up without a refusal on record. -/
theorem recorded_of_gaveUp (came : Outcome recorder outcome (none, after)) :
    ∃ refusal, outcome = .error refusal ∧
      after.recorded = recorder.recorded.or (some refusal) := by
  cases came with
  | refused _ _ recorded => exact ⟨_, rfl, recorded⟩
  | spoiled _ _ _ recorded => exact ⟨_, rfl, recorded⟩

/-- What goes on without a fault in front of it has recorded nothing. -/
theorem read_of_wentOn {value : α} (came : Outcome recorder outcome (some value, after))
    (sound : after.current.refusal? = none) :
    outcome = .ok (value, after.ahead) ∧ after.recorded = recorder.recorded := by
  cases came with
  | read _ _ unchanged => exact ⟨rfl, unchanged⟩
  | spoiled _ _ faulty =>
      rw [sound] at faulty
      cases faulty

/-- A fault that is fetched is the refusal, and recorded as such. -/
theorem refused_of_fault (came : Outcome recorder outcome ran)
    (sound : recorder.current.refusal? = none) (faulty : ran.2.current.refusal? = some refusal) :
    outcome = .error refusal ∧ ran.2.recorded = recorder.recorded.or (some refusal) := by
  cases came with
  | read passes soundBehind =>
      rw [passes.sound (fun _ => sound) soundBehind] at faulty
      cases faulty
  | refused passes soundBehind =>
      rw [passes.sound (fun _ => sound) soundBehind] at faulty
      cases faulty
  | spoiled _ _ found recorded =>
      rw [found] at faulty
      cases faulty
      exact ⟨rfl, recorded⟩

theorem bind {first : Reader α} {second : α → Reader β} {routine : Routine α}
    {next : α → Routine β} {recorder : Recorder}
    (early : Outcome recorder (first.run recorder.ahead) (routine recorder))
    (late : ∀ value after, routine recorder = (some value, after) →
      Outcome after ((second value).run after.ahead) (next value after)) :
    Outcome recorder ((first >>= second).run recorder.ahead) (routine.bind next recorder) := by
  unfold Routine.bind
  generalize ran : routine recorder = result at early late
  generalize read : first.run recorder.ahead = outcome at early
  cases early with
  | read passes sound unchanged =>
      rw [Reader.run_bind_of_ok read]
      exact (late _ _ rfl).behind passes sound unchanged
  | refused passes sound recorded =>
      rw [Reader.run_bind_of_error read]
      exact .refused passes sound recorded
  | @spoiled refusal used after result passes nonempty faulty recorded =>
      rw [Reader.run_bind_of_error read]
      cases result with
      | none => exact .spoiled passes nonempty faulty recorded
      -- The routine has not noticed the fault and goes on.
      | some value => exact (late value after rfl).behind_fault passes nonempty faulty recorded

/-- A refusal where the recorder stands, for a reader that comes to one. -/
theorem fail {reason : Reason}
    (refused : outcome = .error ⟨reason, recorder.ahead.location⟩) :
    Outcome recorder outcome (Routine.fail reason recorder) := by
  rw [refused, recorder.location_ahead]
  exact .refused_here _ recorder

/-- Where a token is left behind, the next one is fetched at once. -/
theorem advance {token : Token} {value : α} (found : recorder.current = .token token)
    (proceeds : outcome = recorder.advance.ahead.checked.map (value, ·)) :
    Outcome recorder outcome (some value, recorder.advance) := by
  have passes := Recorder.Passes.advance found
  have recorded : recorder.advance.recorded =
      recorder.recorded.or recorder.advance.current.refusal? := rfl
  rw [proceeds, recorder.advance.checked_ahead]
  cases fault : recorder.advance.current.refusal? with
  | none =>
      rw [fault, Option.or_none] at recorded
      exact .read passes (fun _ => fault) recorded
  | some refusal =>
      rw [fault] at recorded
      exact .spoiled passes (List.cons_ne_nil _ _) fault recorded

end Outcome

namespace Follows

theorem pure (value : α) : Follows (Pure.pure value) (Routine.pure value) := by
  intro recorder
  exact .read_here _ recorder

theorem bind {first : Reader α} {second : α → Reader β} {routine : Routine α}
    {next : α → Routine β} (early : Follows first routine)
    (late : ∀ value, Follows (second value) (next value)) :
    Follows (first >>= second) (routine.bind next) := by
  intro recorder
  exact (early recorder).bind fun value after _ => late value after

theorem refuseAt (place : Location) (reason : Reason) :
    Follows (Reader.refuseAt place reason : Reader α) (Routine.failAt place reason) := by
  intro recorder
  exact .refused_here _ recorder

theorem refuse (reason : Reason) :
    Follows (Reader.refuse reason : Reader α) (Routine.fail reason) := by
  intro recorder
  exact Outcome.fail rfl

theorem location : Follows Reader.location Routine.location := by
  intro recorder
  have read : Reader.location.run recorder.ahead =
      .ok (recorder.current.location, recorder.ahead) := by
    rw [← recorder.location_ahead]
    rfl
  rw [read]
  exact .read_here _ recorder

theorem take (wanted : Wanted) (pick : Lexeme → Option (Except Reason α)) :
    Follows (Reader.take wanted pick) (Routine.take wanted pick) := by
  intro recorder
  unfold Routine.take
  cases found : recorder.current with
  | ending ending =>
      apply Outcome.fail
      rw [← found, ← recorder.kind_ahead, Recorder.ahead_of_ending found]
      rfl
  | token token =>
      have split := (Recorder.Passes.advance found).split
      have place : recorder.ahead.location = token.location := by
        rw [recorder.location_ahead, found]
        rfl
      rw [split, Reader.LooksAhead.take_run_behind]
      cases picked : pick token.lexeme with
      | none =>
          simp only [picked]
          apply Outcome.fail
          rw [place]
          rfl
      | some outcome =>
          cases outcome with
          | error reason =>
              simp only [picked]
              apply Outcome.fail
              rw [place]
          | ok value =>
              simp only [picked]
              exact Outcome.advance found rfl

theorem takeMark? (mark : Mark) : Follows (Reader.takeMark? mark) (Routine.takeMark? mark) := by
  intro recorder
  unfold Routine.takeMark?
  by_cases present : recorder.current.kind = .mark mark
  · obtain ⟨token, found, isMark⟩ := Reading.kind_eq_mark_iff.mp present
    rw [if_pos present, (Recorder.Passes.advance found).split,
      Reader.LooksAhead.takeMark?_run_behind, if_pos isMark]
    exact Outcome.advance found rfl
  · have read : (Reader.takeMark? mark).run recorder.ahead = .ok (false, recorder.ahead) := by
      cases found : recorder.current with
      | ending ending =>
          rw [Recorder.ahead_of_ending found]
          rfl
      | token token =>
          have other : token.lexeme ≠ .mark mark := fun isMark =>
            present (Reading.kind_eq_mark_iff.mpr ⟨token, found, isMark⟩)
          rw [Recorder.ahead_of_token found, Reader.LooksAhead.takeMark?_run_behind, if_neg other]
    rw [if_neg present, read]
    exact .read_here _ recorder

theorem endOfInput : Follows Reader.endOfInput Routine.endOfInput := by
  intro recorder
  change Outcome recorder ((if recorder.ahead.kind ≠ .endOfInput then
    Reader.refuse .trailingContent else Pure.pure ()).run recorder.ahead) _
  rw [recorder.kind_ahead, Routine.endOfInput]
  split
  · exact refuse .trailingContent recorder
  · exact pure () recorder

theorem standsAhead (mark : Mark) :
    Follows (Reader.standsAhead mark) (Routine.standsAhead mark) := by
  intro recorder
  have read : (Reader.standsAhead mark).run recorder.ahead =
      .ok (decide (recorder.current.kind = .mark mark), recorder.ahead) := by
    rw [← recorder.kind_ahead]
    rfl
  rw [read]
  exact .read_here _ recorder

/-- A routine that follows a reader advances where the reader does: it leaves a token behind in
front of a fault, too. -/
theorem advances {reader : Reader α} {routine : Routine α} (follows : Follows reader routine)
    (advances : reader.Advances) : routine.Advances := by
  intro recorder value after ran
  have outcome := follows recorder
  generalize read : reader.run recorder.ahead = result at outcome
  rw [ran] at outcome
  cases outcome with
  | read => exact advances _ _ _ read
  | @spoiled _ used _ _ passes nonempty =>
      rw [passes.split]
      have positive := List.length_pos_of_ne_nil nonempty
      simp only [behind, List.length_append]
      omega

end Follows

namespace Routine

theorem length_ahead_advance {recorder : Recorder} {mark : Mark}
    (found : recorder.current.kind = .mark mark) :
    recorder.advance.ahead.tokens.length < recorder.ahead.tokens.length := by
  obtain ⟨token, isToken, _⟩ := Reading.kind_eq_mark_iff.mp found
  rw [(Recorder.Passes.advance isToken).split]
  exact Nat.lt_succ_self _

theorem length_ahead_takeMark? {recorder after : Recorder} {mark : Mark}
    (taken : takeMark? mark recorder = (some true, after)) :
    after.ahead.tokens.length < recorder.ahead.tokens.length := by
  unfold takeMark? at taken
  split at taken
  · next found =>
    cases taken
    exact length_ahead_advance found
  · cases taken

/-- Runs items with commas between them until the closing mark was fetched, or until no comma
follows an item. -/
def items (close : Mark) (item : σ → Routine σ) (advances : ∀ state, (item state).Advances)
    (state : σ) : Routine σ := fun recorder =>
  if recorder.current.kind = .mark close then (some state, recorder)
  else
    match _ran : item state recorder with
    | (none, after) => (none, after)
    | (some next, after) =>
      if _comma : after.current.kind = .mark .comma then
        items close item advances next after.advance
      else (some next, after)
termination_by recorder => recorder.ahead.tokens.length
decreasing_by
  exact Nat.lt_trans (length_ahead_advance (by assumption)) (advances _ _ _ _ (by assumption))

/-- `items` as routines put together, the last of which is `items` again. -/
theorem items_eq_bind (close : Mark) (item : σ → Routine σ)
    (advances : ∀ state, (item state).Advances) (state : σ) :
    items close item advances state = (standsAhead close).bind fun closed =>
      if closed then pure state
      else (item state).bind fun next => (takeMark? .comma).bind fun more =>
        if more then items close item advances next else pure next := by
  funext recorder
  rw [items]
  unfold bind standsAhead
  by_cases closed : recorder.current.kind = .mark close
  · simp only [if_pos closed, decide_eq_true closed, if_true]
    rfl
  · rw [if_neg closed, decide_eq_false closed]
    simp only [Bool.false_eq_true, if_false]
    split
    · next ran => rw [ran]
    · next next after ran =>
      simp only [ran, takeMark?]
      by_cases comma : after.current.kind = .mark .comma
      · simp only [comma]
        rfl
      · simp only [comma]
        rfl

end Routine

/-- The induction is on the tokens that are ahead: each item leaves at least one behind. -/
theorem Follows.items {close : Mark} {item : σ → Reader σ} {routine : σ → Routine σ}
    (advances : ∀ state, (item state).Advances)
    (follows : ∀ state, Follows (item state) (routine state)) (state : σ) :
    Follows (Reader.items close item advances state)
      (Routine.items close routine (fun state => (follows state).advances (advances state))
        state) := by
  intro recorder
  generalize bound : recorder.ahead.tokens.length = length
  induction length using Nat.strongRecOn generalizing state recorder with
  | ind length induction =>
      subst bound
      rw [Reader.items_eq_bind, Routine.items_eq_bind]
      apply (Follows.standsAhead close recorder).bind
      intro closed same stands
      cases stands
      split
      · exact Follows.pure state recorder
      · apply (follows state recorder).bind
        intro next after ran
        apply (Follows.takeMark? .comma after).bind
        intro more last comma
        cases more with
        | false => exact Follows.pure next last
        | true =>
            have fewer := Nat.lt_trans (Routine.length_ahead_takeMark? comma)
              ((follows state).advances (advances state) _ _ _ ran)
            exact induction _ fewer next last rfl

end OpcodeCatalog.Source
