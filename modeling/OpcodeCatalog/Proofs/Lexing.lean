import OpcodeCatalog.Proofs.Reading

/-!
# The lexemes of a text

A scanner keeps a position and hands out one token after the other.  What it
hands out depends on the bytes of its source only, so `lexed` lists the lexemes
of a text with the places where they stand, and the tokens of a source are these
lexemes, each located by the text in front of it.
-/

namespace OpcodeCatalog.Source

/-- What stands at the front of a text: behind a gap a lexeme, or a fault, or
nothing more. -/
inductive Front where
  | finished
  | fault (fault : LexicalFault)
  | lexeme (lexeme : Lexeme) (gap width : Nat)

def front (text : Bytes) : Front :=
  match Gap.width text with
  | none => .fault .unterminatedComment
  | some gap =>
    match text.drop gap with
    | [] => .finished
    | first :: rest =>
      let read := lexeme first rest
      match read.value with
      | .ok lexeme => .lexeme lexeme gap read.width
      | .error fault => .fault fault

theorem front_eq_finished_iff {text : Bytes} :
    front text = .finished ↔ ∃ gap, Gap.width text = some gap ∧ text.drop gap = [] := by
  unfold front
  cases skipped : Gap.width text with
  | none => simp
  | some gap =>
      cases behind : text.drop gap with
      | nil => simp only [Option.some.injEq, exists_eq_left', behind]
      | cons first rest =>
          cases read : (lexeme first rest).value <;>
            simp only [Option.some.injEq, exists_eq_left', behind, read, reduceCtorEq]

theorem front_eq_lexeme_iff {text : Bytes} {found : Lexeme} {gap width : Nat} :
    front text = .lexeme found gap width ↔ Gap.width text = some gap ∧
      ∃ first rest, text.drop gap = first :: rest ∧ lexeme first rest = ⟨.ok found, width⟩ := by
  unfold front
  cases skipped : Gap.width text with
  | none => simp
  | some gap' =>
      constructor
      · intro read
        simp only at read
        split at read
        · cases read
        · next first rest behind =>
            split at read
            · next value valued =>
                cases read
                refine ⟨rfl, first, rest, behind, ?_⟩
                rw [← valued]
            · cases read
      · intro found
        obtain ⟨same, first, rest, behind, read⟩ := found
        cases same
        simp [behind, read]

/-- A lexeme with the bytes that it takes up. -/
structure Placed where
  lexeme : Lexeme
  start : Nat
  width : Nat

/-- The lexeme as seen from further to the front of the text. -/
def Placed.after (before : Nat) (placed : Placed) : Placed :=
  { placed with start := before + placed.start }

@[simp] theorem Placed.lexeme_after (before : Nat) (placed : Placed) :
    (placed.after before).lexeme = placed.lexeme := rfl

@[simp] theorem Placed.start_after (before : Nat) (placed : Placed) :
    (placed.after before).start = before + placed.start := rfl

@[simp] theorem Placed.width_after (before : Nat) (placed : Placed) :
    (placed.after before).width = placed.width := rfl

/-- The lexemes of a text up to its end or to the first fault in it. -/
structure Lexed where
  placed : List Placed
  fault : Option LexicalFault

namespace Lexed

def lexemes (lexed : Lexed) : List Lexeme :=
  lexed.placed.map Placed.lexeme

/-- The lexemes as seen from before one more, with the gap in front of that one. -/
def behind (lexeme : Lexeme) (gap width : Nat) (later : Lexed) : Lexed :=
  ⟨⟨lexeme, gap, width⟩ :: later.placed.map (Placed.after (gap + width)), later.fault⟩

@[simp] theorem lexemes_behind (lexeme : Lexeme) (gap width : Nat) (later : Lexed) :
    (later.behind lexeme gap width).lexemes = lexeme :: later.lexemes := by
  simp [lexemes, behind, Function.comp_def]

@[simp] theorem fault_behind (lexeme : Lexeme) (gap width : Nat) (later : Lexed) :
    (later.behind lexeme gap width).fault = later.fault := rfl

end Lexed

theorem width_pos_of_front {text : Bytes} {found : Lexeme} {gap width : Nat}
    (read : front text = .lexeme found gap width) : 0 < width := by
  obtain ⟨_, first, rest, _, scanned⟩ := front_eq_lexeme_iff.mp read
  have positive := width_lexeme_pos first rest
  rwa [scanned] at positive

theorem length_drop_of_front {text : Bytes} {found : Lexeme} {gap width : Nat}
    (read : front text = .lexeme found gap width) :
    (text.drop (gap + width)).length < text.length := by
  obtain ⟨_, first, rest, behind, _⟩ := front_eq_lexeme_iff.mp read
  have positive := width_pos_of_front read
  have inside : 0 < (text.drop gap).length := by
    rw [behind]
    exact Nat.zero_lt_succ _
  simp only [List.length_drop] at inside ⊢
  omega

def lexed (text : Bytes) : Lexed :=
  match _read : front text with
  | .finished => ⟨[], none⟩
  | .fault fault => ⟨[], some fault⟩
  | .lexeme lexeme gap width => (lexed (text.drop (gap + width))).behind lexeme gap width
termination_by text.length
decreasing_by exact length_drop_of_front (by assumption)

theorem lexed_of_finished {text : Bytes} (read : front text = .finished) :
    lexed text = ⟨[], none⟩ := by
  rw [lexed]
  split <;> simp_all

theorem lexed_of_fault {text : Bytes} {fault : LexicalFault} (read : front text = .fault fault) :
    lexed text = ⟨[], some fault⟩ := by
  rw [lexed]
  split <;> simp_all

theorem lexed_of_lexeme {text : Bytes} {found : Lexeme} {gap width : Nat}
    (read : front text = .lexeme found gap width) :
    lexed text = (lexed (text.drop (gap + width))).behind found gap width := by
  rw [lexed]
  split <;> simp_all

/-- Every lexeme takes up a byte. -/
theorem width_pos_of_mem_lexed {text : Bytes} :
    ∀ placed ∈ (lexed text).placed, 0 < placed.width := by
  induction text using lexed.induct with
  | case1 text read => simp [lexed_of_finished read]
  | case2 text reason read => simp [lexed_of_fault read]
  | case3 text found gap width read induction =>
      rw [lexed_of_lexeme read]
      intro placed member
      rcases List.mem_cons.mp member with rfl | later
      · exact width_pos_of_front read
      · obtain ⟨inner, innerMember, rfl⟩ := List.mem_map.mp later
        exact induction inner innerMember

theorem Position.behind_append (position : Position) (first second : Bytes) :
    position.behind (first ++ second) = (position.behind first).behind second :=
  List.foldl_append

namespace Scanner

theorem skip_skip (scanner : Scanner) (first second : Nat) :
    (scanner.skip first).skip second = scanner.skip (first + second) := by
  simp [skip, List.take_add, Position.behind_append]

/-- A scanner that has skipped the whole rest stands where every longer skip ends too. -/
theorem location_skip_of_drop_eq_nil (scanner : Scanner) {width : Nat}
    (empty : scanner.rest.drop width = []) :
    (scanner.skip width).location = (scanner.skip scanner.rest.length).location := by
  have covered : scanner.rest.length ≤ width := List.drop_eq_nil_iff.mp empty
  simp [skip, location, List.take_of_length_le covered]

variable {scanner : Scanner}

theorem next_of_empty_behind {gap : Nat} (sound : scanner.failed = false)
    (skipped : Gap.width scanner.rest = some gap) (empty : scanner.rest.drop gap = []) :
    scanner.next = (.ending ⟨none, (scanner.skip gap).location⟩, scanner.skip gap) := by
  simp [next, sound, skipped, skip, empty]

theorem next_of_finished (sound : scanner.failed = false) (read : front scanner.rest = .finished) :
    ∃ after, scanner.next =
      (.ending ⟨none, (scanner.skip scanner.rest.length).location⟩, after) := by
  obtain ⟨gap, skipped, empty⟩ := front_eq_finished_iff.mp read
  rw [← scanner.location_skip_of_drop_eq_nil empty]
  exact ⟨_, next_of_empty_behind sound skipped empty⟩

theorem next_of_fault {fault : LexicalFault} (sound : scanner.failed = false)
    (read : front scanner.rest = .fault fault) :
    ∃ place after, scanner.next = (.ending ⟨some fault, place⟩, after) := by
  unfold front at read
  unfold next
  rw [sound]
  cases skipped : Gap.width scanner.rest with
  | none =>
      rw [skipped] at read
      cases read
      exact ⟨_, _, rfl⟩
  | some gap =>
      simp only [skipped] at read
      split at read
      · cases read
      · next first rest behind =>
          split at read
          · cases read
          · next value scanned =>
              cases read
              have start : (scanner.skip gap).rest = first :: rest := behind
              simp [start, scanned, fail]

theorem next_of_lexeme {found : Lexeme} {gap width : Nat} (sound : scanner.failed = false)
    (read : front scanner.rest = .lexeme found gap width) :
    scanner.next =
      (.token ⟨found, (scanner.skip gap).location⟩, scanner.skip (gap + width)) := by
  obtain ⟨skipped, first, rest, behind, scanned⟩ := front_eq_lexeme_iff.mp read
  rw [← skip_skip]
  have start : (scanner.skip gap).rest = first :: rest := behind
  simp [next, sound, skipped, start, scanned]

/-- A token that is handed out is the lexeme at the front. -/
theorem exists_lexeme_of_next {token : Token} {after : Scanner} (sound : scanner.failed = false)
    (read : scanner.next = (.token token, after)) :
    ∃ found gap width, front scanner.rest = .lexeme found gap width ∧
      token = ⟨found, (scanner.skip gap).location⟩ ∧ after = scanner.skip (gap + width) := by
  cases atFront : front scanner.rest with
  | finished =>
      obtain ⟨_, ended⟩ := next_of_finished sound atFront
      rw [ended] at read
      cases read
  | fault fault =>
      obtain ⟨_, _, ended⟩ := next_of_fault sound atFront
      rw [ended] at read
      cases read
  | lexeme found gap width =>
      rw [next_of_lexeme sound atFront] at read
      cases read
      exact ⟨found, gap, width, rfl, rfl, rfl⟩

theorem run_of_ending {ending : Ending} {after : Scanner}
    (next : scanner.next = (.ending ending, after)) : scanner.run = (⟨[], ending⟩, after) := by
  rw [run]
  split
  · next read =>
      rw [next] at read
      cases read
      rfl
  · next read =>
      rw [next] at read
      cases read

theorem run_of_token {token : Token} {after : Scanner}
    (next : scanner.next = (.token token, after)) :
    scanner.run.1 = after.run.1.behind [token] := by
  rw [run]
  split
  · next read =>
      rw [next] at read
      cases read
  · next read =>
      rw [next] at read
      cases read
      rfl

/-- What a scanner hands out are the lexemes of its text, each located by the text in
front of it; the end of the text is located behind all of it. -/
theorem run_eq_lexed (sound : scanner.failed = false) :
    scanner.run.1.tokens = ((lexed scanner.rest).placed.map fun placed =>
        ⟨placed.lexeme, (scanner.skip placed.start).location⟩) ∧
      scanner.run.1.ending.fault = (lexed scanner.rest).fault ∧
      ((lexed scanner.rest).fault = none →
        scanner.run.1.ending.location = (scanner.skip scanner.rest.length).location) := by
  generalize text_eq : scanner.rest = text
  induction text using lexed.induct generalizing scanner with
  | case1 text read =>
      subst text_eq
      obtain ⟨after, next⟩ := next_of_finished sound read
      rw [lexed_of_finished read, run_of_ending next]
      exact ⟨rfl, rfl, fun _ => rfl⟩
  | case2 text fault read =>
      subst text_eq
      obtain ⟨place, after, next⟩ := next_of_fault sound read
      rw [lexed_of_fault read, run_of_ending next]
      exact ⟨rfl, rfl, fun faultless => nomatch faultless⟩
  | case3 text found gap width read induction =>
      subst text_eq
      have next := next_of_lexeme sound read
      obtain ⟨tokens, fault, last⟩ := @induction (scanner.skip (gap + width)) sound rfl
      rw [lexed_of_lexeme read, run_of_token next]
      refine ⟨?_, fault, ?_⟩
      · simp [TokenStream.behind, Lexed.behind, tokens, skip_skip, Function.comp_def]
      · intro faultless
        have covered : scanner.rest.drop
            (gap + width + (scanner.skip (gap + width)).rest.length) = [] := by
          rw [← List.drop_drop]
          exact List.drop_length
        have place := location_skip_of_drop_eq_nil scanner covered
        rw [← skip_skip scanner (gap + width)] at place
        exact (last faultless).trans place

end Scanner

theorem TokenStream.fault_ofSource (file : UInt32) (source : Bytes) :
    (TokenStream.ofSource file source).ending.fault = (lexed source).fault :=
  (Scanner.run_eq_lexed rfl).2.1

theorem TokenStream.lexemes_ofSource (file : UInt32) (source : Bytes) :
    (TokenStream.ofSource file source).lexemes = (lexed source).lexemes := by
  have tokens := (@Scanner.run_eq_lexed (Scanner.ofSource file source) rfl).1
  unfold TokenStream.lexemes TokenStream.ofSource Lexed.lexemes
  rw [tokens, List.map_map]
  rfl

end OpcodeCatalog.Source
