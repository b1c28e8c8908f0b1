import OpcodeCatalog.Source.Lexeme
import OpcodeCatalog.Source.Span

/-!
# Raw strings

A raw string is the letter `r`, any number of hashes, and a text between quotes
in which no byte is interpreted.  It ends at the first quote that as many hashes
follow.
-/

namespace OpcodeCatalog.Source.RawString

/-- Whether a raw string stands at the front rather than a word with an `r`. -/
def opens (text : Bytes) : Bool :=
  match text with
  | first :: second :: _ =>
    first == 'r'.toUInt8 && (second == Ascii.quote || second == Ascii.hash)
  | _ => false

/-- Whether at least so many hashes stand at the front. -/
def startsWithHashes : Nat → Bytes → Bool
  | 0, _ => true
  | _ + 1, [] => false
  | count + 1, byte :: rest => byte == Ascii.hash && startsWithHashes count rest

theorem startsWithHashes_iff {count : Nat} {text : Bytes} :
    startsWithHashes count text = true ↔ List.replicate count Ascii.hash <+: text := by
  fun_induction startsWithHashes count text with
  | case1 text =>
    exact iff_of_true rfl (List.nil_prefix)
  | case2 count =>
    exact iff_of_false Bool.false_ne_true (by simp [List.replicate_succ])
  | case3 count byte rest induction =>
    rw [Bool.and_eq_true, beq_iff_eq, induction, List.replicate_succ, List.cons_prefix_cons,
      eq_comm]

/-- The text behind the opening quote, up to and with its closing quote and hashes. -/
def body (hashes : Nat) : Bytes → Span (Except LexicalFault Bytes)
  | [] => ⟨.error .unterminatedRawString, 0⟩
  | byte :: rest =>
    if byte == Ascii.quote && startsWithHashes hashes rest then ⟨.ok [], 1 + hashes⟩
    else ((body hashes rest).map (·.map (byte :: ·))).after 1

/-- The raw string behind its `r`. -/
def scan (text : Bytes) : Span (Except LexicalFault Bytes) :=
  let hashes := (text.takeWhile (· == Ascii.hash)).length
  match text.drop hashes with
  | [] => ⟨.error .malformedRawString, hashes⟩
  | opening :: rest =>
    if opening = Ascii.quote then (body hashes rest).after (hashes + 1)
    else ⟨.error .malformedRawString, hashes + 1⟩

end OpcodeCatalog.Source.RawString
