import OpcodeCatalog.Diagnostic.Finding

/-!
# Filled templates

The template of a kind of finding is a list of pieces, written with braces around
its keys.  Filling it goes back to the pieces: words stay as they are, and each
blank takes the replacement of its key.
-/

namespace OpcodeCatalog

namespace Template

variable {replacements : List (Bytes × Bytes)}

/-- A piece that no brace within could be taken for the start or the end of. -/
def Piece.Plain : Piece → Prop
  | words text => openBrace ∉ text
  | blank key => closeBrace ∉ key

instance (piece : Piece) : Decidable piece.Plain :=
  match piece with
  | .words text => inferInstanceAs (Decidable (openBrace ∉ text))
  | .blank key => inferInstanceAs (Decidable (closeBrace ∉ key))

/-- A piece with the replacement of its key in its place, if there is one. -/
def Piece.filled (replacements : List (Bytes × Bytes)) : Piece → Bytes
  | words text => text
  | blank key => (replacements.lookup key).getD (blank key).spelling

theorem fill_words {text : Bytes} (plain : openBrace ∉ text) (rest : Bytes) :
    fill replacements (text ++ rest) = text ++ fill replacements rest := by
  induction text with
  | nil => rfl
  | cons byte text induction =>
      rw [List.mem_cons, not_or] at plain
      rw [List.cons_append, fill, if_neg (Ne.symm plain.1), induction plain.2, List.cons_append]

theorem fill_blank {key : Bytes} (plain : closeBrace ∉ key) (rest : Bytes) :
    fill replacements ((Piece.blank key).spelling ++ rest) =
      (Piece.blank key).filled replacements ++ fill replacements rest := by
  have front : (key ++ closeBrace :: rest).takeWhile (· ≠ closeBrace) = key := by
    rw [List.takeWhile_append_of_pos]
    · rw [List.takeWhile_cons_of_neg (by simp), List.append_nil]
    · intro byte member
      exact decide_eq_true (ne_of_mem_of_not_mem member plain)
  have closed : key.length < (key ++ closeBrace :: rest).length := by simp
  have behind : (key ++ closeBrace :: rest).drop (key.length + 1) = rest := by
    rw [← List.drop_drop, List.drop_left]
    rfl
  have spelling :
      (Piece.blank key).spelling ++ rest = openBrace :: (key ++ closeBrace :: rest) := by
    simp [Piece.spelling]
  rw [spelling, fill, if_pos rfl]
  simp only [front, if_pos closed, behind]
  rfl

theorem fill_ofPieces {pieces : List Piece} (plain : ∀ piece ∈ pieces, piece.Plain) :
    fill replacements (ofPieces pieces) = pieces.flatMap (Piece.filled replacements) := by
  induction pieces with
  | nil => rw [ofPieces, List.flatMap_nil, List.flatMap_nil, fill]
  | cons piece pieces induction =>
      rw [List.forall_mem_cons] at plain
      have rest := induction plain.2
      rw [ofPieces] at rest ⊢
      rw [List.flatMap_cons, List.flatMap_cons, ← rest]
      cases piece with
      | words text => exact fill_words plain.1 _
      | blank key => exact fill_blank plain.1 _

end Template

namespace FindingKind

theorem plain_of_mem_pieces (kind : FindingKind) : ∀ piece ∈ kind.pieces, piece.Plain := by
  cases kind <;> decide +kernel

theorem message_eq (kind : FindingKind) (replacements : List (Bytes × Bytes)) :
    kind.message replacements =
      kind.pieces.flatMap (Template.Piece.filled replacements) :=
  Template.fill_ofPieces kind.plain_of_mem_pieces

end FindingKind

theorem Finding.message_sourceNotFound (path : Bytes) :
    (sourceNotFound path).diagnostic.message = ascii "game database not found: " ++ path := by
  change FindingKind.sourceNotFound.message [(ascii "path", path)] = _
  rw [FindingKind.message_eq]
  exact congrArg _ (List.append_nil path)

end OpcodeCatalog
