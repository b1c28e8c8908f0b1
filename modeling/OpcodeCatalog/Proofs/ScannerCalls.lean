import OpcodeCatalog.Proofs.Lexing
import Mathlib.Logic.Function.Iterate

/-!
# Calls of a scanner

A scanner is asked for one reading after the other.  Whatever it was asked
before, a call passes over the front of what is left, and over a byte at least
unless it finds the end of the input.  Once the tokens are over the scanner
stays where it is, so a source is at its end after as many calls as it has bytes.
-/

namespace OpcodeCatalog.Source

namespace Reading

/-- Nothing more stands in the source. -/
def isEndOfInput : Reading → Bool
  | .token _ => false
  | .ending last => last.fault.isNone

/-- The tokens are over, be it with the source or with a fault in it. -/
def isEnding : Reading → Bool
  | .token _ => false
  | .ending _ => true

theorem isEnding_of_isEndOfInput {reading : Reading} (found : reading.isEndOfInput = true) :
    reading.isEnding = true := by
  cases reading with
  | token token => cases found
  | ending last => rfl

end Reading

namespace Scanner

variable {scanner middle after : Scanner} {reading : Reading}

/-- What a call can come to. -/
inductive Call (scanner : Scanner) : Reading → Scanner → Prop where
  | stopped :
      scanner.failed = true →
      Call scanner (.ending ⟨none, scanner.location⟩) scanner
  | finished {gap : Nat} :
      scanner.failed = false →
      scanner.rest.drop gap = [] →
      Call scanner (.ending ⟨none, (scanner.skip gap).location⟩) (scanner.skip gap)
  | unclosed :
      scanner.rest ≠ [] →
      Call scanner (.ending ⟨some .unterminatedComment, scanner.location⟩)
        { scanner.skip scanner.rest.length with failed := true }
  | faulty {fault : LexicalFault} {gap width : Nat} :
      scanner.rest.drop gap ≠ [] →
      0 < width →
      Call scanner (.ending ⟨some fault, (scanner.skip gap).location⟩)
        { scanner.skip (gap + width) with failed := true }
  | token {found : Lexeme} {gap width : Nat} :
      scanner.rest.drop gap ≠ [] →
      0 < width →
      Call scanner (.token ⟨found, (scanner.skip gap).location⟩) (scanner.skip (gap + width))

theorem call_next (scanner : Scanner) : Call scanner scanner.next.1 scanner.next.2 := by
  cases failed : scanner.failed with
  | true =>
      simp only [next, failed, if_true]
      exact .stopped failed
  | false =>
      cases skipped : Gap.width scanner.rest with
      | none =>
          simp only [next, failed, skipped, fail, Bool.false_eq_true, if_false]
          apply Call.unclosed
          intro empty
          rw [empty, Gap.width] at skipped
          cases skipped
      | some gap =>
          cases behind : (scanner.skip gap).rest with
          | nil =>
              simp only [next, failed, skipped, behind, Bool.false_eq_true, if_false]
              exact .finished failed behind
          | cons first rest =>
              have more : scanner.rest.drop gap ≠ [] := by
                change (scanner.skip gap).rest ≠ []
                rw [behind]
                exact List.cons_ne_nil _ _
              have positive := width_lexeme_pos first rest
              cases read : (lexeme first rest).value with
              | ok found =>
                  simp only [next, failed, skipped, behind, read, skip_skip, Bool.false_eq_true,
                    if_false]
                  exact .token more positive
              | error fault =>
                  simp only [next, failed, skipped, behind, read, fail, skip_skip,
                    Bool.false_eq_true, if_false]
                  exact .faulty more positive

/-- On the way from one scanner to the other exactly these bytes are counted. -/
structure Passes (scanner after : Scanner) (used : Bytes) : Prop where
  file : after.file = scanner.file
  rest : scanner.rest = used ++ after.rest
  position : after.position = scanner.position.behind used

namespace Passes

variable {used later : Bytes}

theorem nothing (scanner : Scanner) : scanner.Passes scanner [] :=
  ⟨rfl, rfl, rfl⟩

theorem skip (scanner : Scanner) (width : Nat) :
    scanner.Passes (scanner.skip width) (scanner.rest.take width) :=
  ⟨rfl, (List.take_append_drop _ _).symm, rfl⟩

theorem failed (passes : scanner.Passes after used) :
    scanner.Passes { after with failed := true } used :=
  ⟨passes.file, passes.rest, passes.position⟩

theorem trans (first : scanner.Passes middle used) (second : middle.Passes after later) :
    scanner.Passes after (used ++ later) where
  file := second.file.trans first.file
  rest := by rw [first.rest, second.rest, List.append_assoc]
  position := by rw [second.position, first.position, Position.behind_append]

theorem length_rest_lt (passes : scanner.Passes after used) (nonempty : used ≠ []) :
    after.rest.length < scanner.rest.length := by
  rw [passes.rest, List.length_append]
  have := List.length_pos_of_ne_nil nonempty
  omega

end Passes

namespace Call

theorem take_ne_nil {gap width : Nat} (more : scanner.rest.drop gap ≠ []) (positive : 0 < width) :
    scanner.rest.take (gap + width) ≠ [] := by
  intro none
  rcases List.take_eq_nil_iff.mp none with zero | empty
  · omega
  · rw [empty, List.drop_nil] at more
    exact more rfl

theorem passes (call : scanner.Call reading after) :
    ∃ used, scanner.Passes after used ∧ (reading.isEndOfInput = false → used ≠ []) := by
  cases call with
  | stopped failed => exact ⟨[], .nothing scanner, nofun⟩
  | finished sound empty => exact ⟨_, .skip scanner _, nofun⟩
  | unclosed nonempty =>
      refine ⟨_, (Passes.skip scanner _).failed, fun _ => ?_⟩
      rwa [List.take_length]
  | faulty more positive =>
      exact ⟨_, (Passes.skip scanner _).failed, fun _ => take_ne_nil more positive⟩
  | token more positive => exact ⟨_, .skip scanner _, fun _ => take_ne_nil more positive⟩

end Call

/-- The scanner finds the end of the input where it stands, and stays there. -/
def AtEnd (scanner : Scanner) : Prop :=
  scanner.next = (.ending ⟨none, scanner.location⟩, scanner)

theorem atEnd_of_failed (failed : scanner.failed = true) : scanner.AtEnd := by
  rw [AtEnd, next, failed]
  rfl

theorem atEnd_of_empty (sound : scanner.failed = false) (empty : scanner.rest = []) :
    scanner.AtEnd := by
  have noGap : Gap.width scanner.rest = some 0 := by
    rw [empty, Gap.width]
  have nothing : scanner.skip 0 = scanner := rfl
  rw [AtEnd, next_of_empty_behind sound noGap empty, nothing]

theorem Call.atEnd (call : scanner.Call reading after) (ended : reading.isEnding = true) :
    after.AtEnd := by
  cases call with
  | stopped failed => exact atEnd_of_failed failed
  | finished sound empty => exact atEnd_of_empty sound empty
  | unclosed => exact atEnd_of_failed rfl
  | faulty => exact atEnd_of_failed rfl
  | token => cases ended

/-- The scanner behind so many calls. -/
def called (scanner : Scanner) (calls : Nat) : Scanner :=
  (fun scanner : Scanner => scanner.next.2)^[calls] scanner

theorem called_succ (scanner : Scanner) (calls : Nat) :
    scanner.called (calls + 1) = scanner.next.2.called calls :=
  Function.iterate_succ_apply _ _ _

theorem called_succ' (scanner : Scanner) (calls : Nat) :
    scanner.called (calls + 1) = (scanner.called calls).next.2 :=
  Function.iterate_succ_apply' _ _ _

theorem AtEnd.called (atEnd : scanner.AtEnd) (calls : Nat) : scanner.called calls = scanner := by
  apply Function.iterate_fixed
  rw [atEnd]

theorem AtEnd.isEndOfInput (atEnd : scanner.AtEnd) : scanner.next.1.isEndOfInput = true := by
  rw [atEnd]
  rfl

theorem passes_called (scanner : Scanner) (calls : Nat) :
    ∃ used, scanner.Passes (scanner.called calls) used := by
  induction calls with
  | zero => exact ⟨[], .nothing scanner⟩
  | succ calls induction =>
      obtain ⟨used, before⟩ := induction
      obtain ⟨later, passes, _⟩ := (scanner.called calls).call_next.passes
      rw [called_succ']
      exact ⟨used ++ later, before.trans passes⟩

/-- Behind an ending every further call finds the end of the input and uses nothing up. -/
theorem called_of_isEnding {calls later : Nat}
    (ended : (scanner.called calls).next.1.isEnding = true) (behind : calls < later) :
    scanner.called later = scanner.called (calls + 1) ∧ (scanner.called later).AtEnd := by
  obtain ⟨more, rfl⟩ := Nat.exists_eq_add_of_lt behind
  have atEnd : (scanner.called (calls + 1)).AtEnd := by
    rw [called_succ']
    exact (scanner.called calls).call_next.atEnd ended
  have stays : scanner.called (calls + more + 1) = scanner.called (calls + 1) := by
    rw [Nat.add_right_comm, Nat.add_comm, Scanner.called, Function.iterate_add_apply]
    exact atEnd.called more
  rw [stays]
  exact ⟨rfl, atEnd⟩

/-- The induction is on the bytes that are left: a call that does not find their end uses up some
of them. -/
theorem exists_calls (scanner : Scanner) :
    ∃ count ≤ scanner.rest.length,
      ∀ calls, (scanner.called calls).next.1.isEndOfInput = true ↔ count ≤ calls := by
  generalize bound : scanner.rest.length = length
  induction length using Nat.strongRecOn generalizing scanner with
  | ind length induction =>
      subst bound
      cases found : scanner.next.1.isEndOfInput with
      | true =>
          refine ⟨0, Nat.zero_le _, fun calls => iff_of_true ?_ (Nat.zero_le calls)⟩
          cases calls with
          | zero => exact found
          | succ calls =>
              have ended : (scanner.called 0).next.1.isEnding = true :=
                Reading.isEnding_of_isEndOfInput found
              exact (called_of_isEnding ended (Nat.succ_pos calls)).2.isEndOfInput
      | false =>
          obtain ⟨used, passes, progress⟩ := scanner.call_next.passes
          have shorter := passes.length_rest_lt (progress found)
          obtain ⟨count, few, ends⟩ := induction _ shorter scanner.next.2 rfl
          refine ⟨count + 1, Nat.lt_of_le_of_lt few shorter, fun calls => ?_⟩
          cases calls with
          | zero => exact iff_of_false (Bool.eq_false_iff.mp found) (Nat.not_succ_le_zero count)
          | succ calls =>
              rw [called_succ, ends calls]
              exact Nat.succ_le_succ_iff.symm

end Scanner

end OpcodeCatalog.Source
