import OpcodeCatalog.CommandLine.Arguments

/-!
# Accepted arguments

Words that ask for no help are accepted only if what they ask for fits together.
-/

namespace OpcodeCatalog.CommandLine.Arguments

variable {arguments accepted : Arguments}

/-- What a run can follow: a game, at most one selection in it, queries on a selection only,
and no dump of a selection. -/
structure Fits (arguments : Arguments) : Prop where
  game : arguments.game ≠ []
  oneSelection : arguments.id = none ∨ arguments.name = none
  queries : arguments.queries = true → arguments.selects = true
  dump : arguments.dump = true → arguments.selects = false

theorem check_eq_ok_iff :
    arguments.check = .ok accepted ↔
      accepted = arguments ∧ (arguments.help = true ∨ arguments.Fits) := by
  unfold check
  by_cases help : arguments.help = true
  · rw [if_pos help, Except.ok.injEq]
    exact ⟨fun same => ⟨same.symm, .inl help⟩, fun accepts => accepts.1.symm⟩
  rw [if_neg help]
  have refused (fault : UsageFault) (unfit : ¬arguments.Fits) :
      (.error fault : Except UsageFault Arguments) = .ok accepted ↔
        accepted = arguments ∧ (arguments.help = true ∨ arguments.Fits) := by
    apply iff_of_false
    · intro accepts
      cases accepts
    · exact fun accepts => accepts.2.elim help unfit
  by_cases game : arguments.game = []
  · rw [if_pos game]
    exact refused _ fun fits => fits.game game
  rw [if_neg game]
  by_cases both : (arguments.id.isSome && arguments.name.isSome) = true
  · rw [if_pos both]
    apply refused
    intro fits
    rw [Bool.and_eq_true] at both
    rcases fits.oneSelection with none | none
    · rw [none] at both
      cases both.1
    · rw [none] at both
      cases both.2
  rw [if_neg both]
  by_cases unselected : (!arguments.selects && arguments.queries) = true
  · rw [if_pos unselected]
    apply refused
    intro fits
    rw [Bool.and_eq_true, Bool.not_eq_true'] at unselected
    exact Bool.false_ne_true (unselected.1.symm.trans (fits.queries unselected.2))
  rw [if_neg unselected]
  by_cases selected : (arguments.dump && arguments.selects) = true
  · rw [if_pos selected]
    apply refused
    intro fits
    rw [Bool.and_eq_true] at selected
    exact Bool.false_ne_true ((fits.dump selected.1).symm.trans selected.2)
  rw [if_neg selected]
  have fits : arguments.Fits := by
    constructor
    · exact game
    · cases id : arguments.id <;> simp_all
    · cases asked : arguments.queries <;> simp_all
    · cases dumped : arguments.dump <;> simp_all
  rw [Except.ok.injEq]
  exact ⟨fun same => ⟨same.symm, .inr fits⟩, fun accepts => accepts.1.symm⟩

theorem bind_eq_ok_iff {first : Except ε α} {second : α → Except ε β} {result : β} :
    first >>= second = .ok result ↔ ∃ between, first = .ok between ∧ second between = .ok result := by
  cases first with
  | error => exact iff_of_false nofun nofun
  | ok between =>
      constructor
      · exact fun ran => ⟨between, rfl, ran⟩
      · rintro ⟨_, same, ran⟩
        cases same
        exact ran

theorem ofWords_eq_ok_iff {settings : Settings} {words : List Bytes} :
    ofWords settings words = .ok arguments ↔
      Arguments.read { settings } words = .ok arguments ∧
        (arguments.help = true ∨ arguments.Fits) := by
  rw [ofWords, bind_eq_ok_iff]
  constructor
  · rintro ⟨found, read, checked⟩
    obtain ⟨rfl, fits⟩ := check_eq_ok_iff.mp checked
    exact ⟨read, fits⟩
  · rintro ⟨read, fits⟩
    exact ⟨arguments, read, check_eq_ok_iff.mpr ⟨rfl, fits⟩⟩

/-- What is accepted asks for help, or fits together. -/
theorem fits_of_ofWords {settings : Settings} {words : List Bytes}
    (read : ofWords settings words = .ok arguments) :
    arguments.help = true ∨ arguments.Fits :=
  (ofWords_eq_ok_iff.mp read).2

end OpcodeCatalog.CommandLine.Arguments
