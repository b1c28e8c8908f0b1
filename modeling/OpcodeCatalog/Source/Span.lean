import OpcodeCatalog.Bytes

/-!
# Spans

A span is what was read at the front of a text, with the number of bytes that
the reading used up.  The rest of the text is what follows that many bytes, so
nothing of a text can be lost or read twice.
-/

namespace OpcodeCatalog.Source

structure Span (α : Type) where
  value : α
  width : Nat
  deriving DecidableEq

namespace Span

def map (change : α → β) (span : Span α) : Span β :=
  ⟨change span.value, span.width⟩

/-- The span as seen from further to the front of the text. -/
def after (before : Nat) (span : Span α) : Span α :=
  ⟨span.value, before + span.width⟩

@[simp] theorem value_map (change : α → β) (span : Span α) :
    (span.map change).value = change span.value := rfl

@[simp] theorem width_map (change : α → β) (span : Span α) :
    (span.map change).width = span.width := rfl

@[simp] theorem value_after (before : Nat) (span : Span α) :
    (span.after before).value = span.value := rfl

@[simp] theorem width_after (before : Nat) (span : Span α) :
    (span.after before).width = before + span.width := rfl

theorem width_after_pos {before : Nat} (positive : 0 < before) (span : Span α) :
    0 < (span.after before).width :=
  Nat.add_pos_left positive span.width

end Span

end OpcodeCatalog.Source
