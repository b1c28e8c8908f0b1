import OpcodeCatalog.Proofs.Messages
import Mathlib.Data.List.Perm.Basic
import Mathlib.Data.List.TakeWhile

/-!
# Single substitution

`Filling` says from left to right what becomes of a template.  It reads the template
alone: the text that replaces a key is copied, whatever braces it holds.  A text
stands in that relation exactly where the scanning function returns it, so the words
of a message stay in their places and every value in a finding is shown as it is.
-/

namespace OpcodeCatalog

namespace Template

variable {replacements : List (Bytes × Bytes)} {key value template text rest : Bytes}

/-- The value is the first one that is given for the key. -/
def Gives (replacements : List (Bytes × Bytes)) (key value : Bytes) : Prop :=
  ∃ before after, replacements = before ++ (key, value) :: after ∧
    ∀ earlier ∈ before, earlier.1 ≠ key

/-- What becomes of a template. -/
inductive Filling (replacements : List (Bytes × Bytes)) : Bytes → Bytes → Prop where
  | nil : Filling replacements [] []
  | literal {byte : UInt8} {template text : Bytes} :
      byte ≠ openBrace →
      Filling replacements template text →
      Filling replacements (byte :: template) (byte :: text)
  | replaced {key value template text : Bytes} :
      closeBrace ∉ key →
      Gives replacements key value →
      Filling replacements template text →
      Filling replacements ((Piece.blank key).spelling ++ template) (value ++ text)
  | kept {key template text : Bytes} :
      closeBrace ∉ key →
      (∀ given ∈ replacements, given.1 ≠ key) →
      Filling replacements template text →
      Filling replacements ((Piece.blank key).spelling ++ template)
        ((Piece.blank key).spelling ++ text)
  | unclosed {rest : Bytes} :
      closeBrace ∉ rest →
      Filling replacements (openBrace :: rest) (openBrace :: rest)

theorem lookup_eq_some_iff : replacements.lookup key = some value ↔ Gives replacements key value := by
  rw [List.lookup_eq_some_iff]
  simp only [Gives, bne_iff_ne, ne_comm]

theorem lookup_eq_none_iff :
    replacements.lookup key = none ↔ ∀ given ∈ replacements, given.1 ≠ key := by
  rw [List.lookup_eq_none_iff]
  simp only [bne_iff_ne, ne_comm]

theorem fill_unclosed (unclosed : closeBrace ∉ rest) :
    fill replacements (openBrace :: rest) = openBrace :: rest := by
  have whole : rest.takeWhile (· ≠ closeBrace) = rest := by
    apply List.takeWhile_eq_self_iff.mpr
    intro byte member
    exact decide_eq_true (ne_of_mem_of_not_mem member unclosed)
  rw [fill, if_pos rfl]
  simp only [whole, Nat.lt_irrefl, if_false]

/-- A brace is left open, or opens a key that ends at the first closing brace. -/
theorem unclosed_or_blank (rest : Bytes) :
    closeBrace ∉ rest ∨ ∃ key template, closeBrace ∉ key ∧
      openBrace :: rest = (Piece.blank key).spelling ++ template := by
  by_cases closed : closeBrace ∈ rest
  · obtain ⟨key, template, rfl, plain⟩ := List.eq_append_cons_of_mem closed
    exact .inr ⟨key, template, plain, by simp [Piece.spelling]⟩
  · exact .inl closed

/-- The induction is on the length of the template, as a key is passed over at once. -/
theorem filling_fill (template : Bytes) :
    Filling replacements template (fill replacements template) := by
  match template with
  | [] =>
      rw [fill]
      exact .nil
  | byte :: rest =>
      by_cases opens : byte = openBrace
      · subst opens
        rcases unclosed_or_blank rest with unclosed | ⟨key, later, plain, split⟩
        · rw [fill_unclosed unclosed]
          exact .unclosed unclosed
        · have shorter : later.length < (openBrace :: rest).length := by
            rw [split]
            simp [Piece.spelling]
            omega
          have filling := filling_fill later
          rw [split, fill_blank plain, Piece.filled]
          cases given : replacements.lookup key with
          | some value => exact .replaced plain (lookup_eq_some_iff.mp given) filling
          | none => exact .kept plain (lookup_eq_none_iff.mp given) filling
      · rw [fill, if_neg opens]
        exact .literal opens (filling_fill rest)
termination_by template.length
decreasing_by
  · exact shorter
  · exact Nat.lt_succ_self rest.length

theorem Filling.eq_fill (filling : Filling replacements template text) :
    text = fill replacements template := by
  induction filling with
  | nil => rw [fill]
  | literal opens _ induction => rw [fill, if_neg opens, induction]
  | replaced plain given _ induction =>
      rw [fill_blank plain, Piece.filled, lookup_eq_some_iff.mpr given, Option.getD_some, induction]
  | kept plain missing _ induction =>
      rw [fill_blank plain, Piece.filled, lookup_eq_none_iff.mpr missing, Option.getD_none, induction]
  | unclosed unclosed => exact (fill_unclosed unclosed).symm

theorem filling_iff : Filling replacements template text ↔ text = fill replacements template := by
  constructor
  · exact Filling.eq_fill
  · rintro rfl
    exact filling_fill template

/-! ## Keys that are given once -/

def Piece.key? : Piece → Option Bytes
  | words _ => none
  | blank key => some key

/-- Where no key is given twice, each value is the first one for its key. -/
theorem gives_of_mem (distinct : (replacements.map Prod.fst).Nodup)
    (member : (key, value) ∈ replacements) : Gives replacements key value := by
  obtain ⟨before, after, rfl⟩ := List.append_of_mem member
  refine ⟨before, after, rfl, ?_⟩
  rintro earlier isEarlier rfl
  rw [List.map_append, List.nodup_append] at distinct
  exact distinct.2.2 _ (List.mem_map_of_mem isEarlier) _ List.mem_cons_self rfl

theorem infix_flatMap_filled {pieces : List Piece} (given : Gives replacements key value)
    (member : key ∈ pieces.filterMap Piece.key?) :
    value <:+: pieces.flatMap (Piece.filled replacements) := by
  obtain ⟨piece, isPiece, hasKey⟩ := List.mem_filterMap.mp member
  cases piece with
  | words => cases hasKey
  | blank =>
      cases hasKey
      have shown : (Piece.blank key).filled replacements = value := by
        rw [Piece.filled, lookup_eq_some_iff.mpr given, Option.getD_some]
      rw [← shown, List.flatMap_def]
      exact List.infix_of_mem_flatten (List.mem_map_of_mem isPiece)

end Template

/-! ## Messages of findings -/

def FindingKind.keys (kind : FindingKind) : List Bytes :=
  kind.pieces.filterMap Template.Piece.key?

theorem FindingKind.keys_nodup (kind : FindingKind) : kind.keys.Nodup := by
  cases kind <;> decide

/-- A finding gives each key of its template once, and no other. -/
theorem Finding.keys_replacements (finding : Finding) :
    (finding.replacements.map Prod.fst).Perm finding.kind.keys := by
  cases finding <;> simp only [replacements, List.map_cons, List.map_nil, kind] <;> decide

theorem Finding.infix_message (finding : Finding) (location : Location)
    {replacement : Bytes × Bytes} (given : replacement ∈ finding.replacements) :
    replacement.2 <:+: (finding.diagnostic location).message := by
  have keys := finding.keys_replacements
  have distinct := keys.nodup_iff.mpr finding.kind.keys_nodup
  have member := keys.subset (List.mem_map_of_mem given)
  change _ <:+: finding.kind.message finding.replacements
  rw [FindingKind.message_eq]
  exact Template.infix_flatMap_filled (Template.gives_of_mem distinct given) member

/-- For every template and all replacements, a message is what reading the template once from left
to right makes of it: its words as they are and in order, with what is given first for a key in
place of the key.  So every text in a finding is a part of its message. -/
theorem FindingKind.message_fills_once :
    (∀ (kind : FindingKind) (replacements : List (Bytes × Bytes)) (text : Bytes),
        Template.Filling replacements kind.template text ↔ text = kind.message replacements) ∧
      (∀ (kind : FindingKind) (replacements : List (Bytes × Bytes)),
        kind.message replacements = kind.pieces.flatMap (Template.Piece.filled replacements) ∧
          ∀ piece ∈ kind.pieces, piece.Plain) ∧
      ∀ (finding : Finding) (location : Location), ∀ replacement ∈ finding.replacements,
        replacement.2 <:+: (finding.diagnostic location).message := by
  refine ⟨?_, ?_, ?_⟩
  · intro kind replacements text
    exact Template.filling_iff
  · intro kind replacements
    exact ⟨kind.message_eq replacements, kind.plain_of_mem_pieces⟩
  · intro finding location replacement given
    exact finding.infix_message location given

theorem FindingKind.message_fills_once_braces :
    let finding := Finding.noAssociatedValue (ascii "\x7bslot\x7d\x7d") 7
    finding.diagnostic.message =
        ascii "no value associated with name '\x7bslot\x7d\x7d' for argument 7" ∧
      (ascii "name", ascii "\x7bslot\x7d\x7d") ∈ finding.replacements ∧
      ascii "\x7bslot\x7d\x7d" <:+: finding.diagnostic.message := by
  intro finding
  have given : (ascii "name", ascii "\x7bslot\x7d\x7d") ∈ finding.replacements := by decide
  refine ⟨by decide +kernel, given, ?_⟩
  exact FindingKind.message_fills_once.2.2 finding {} _ given

end OpcodeCatalog
