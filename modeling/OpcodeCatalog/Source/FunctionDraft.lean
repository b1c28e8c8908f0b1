import OpcodeCatalog.Source.Refusal

/-!
# Function drafts

A draft collects the fields of a function, which may come in any order.  It is
complete once all six fields are there.
-/

namespace OpcodeCatalog.Source

structure FunctionDraft where
  id : Option UInt32 := none
  size : Option UInt32 := none
  args : Option Bytes := none
  name : Option Bytes := none
  codeBlock : Option CodeBlock := none
  namedValues : Option NamedValues := none

namespace FunctionDraft

def has (draft : FunctionDraft) : FunctionField → Bool
  | .id => draft.id.isSome
  | .size => draft.size.isSome
  | .args => draft.args.isSome
  | .name => draft.name.isSome
  | .codeBlock => draft.codeBlock.isSome
  | .namedValues => draft.namedValues.isSome

/-- The declared instruction, or the first field that is missing. -/
def complete (draft : FunctionDraft) : Except FunctionField Instruction :=
  match draft with
  | { id := none, .. } => .error .id
  | { size := none, .. } => .error .size
  | { args := none, .. } => .error .args
  | { name := none, .. } => .error .name
  | { codeBlock := none, .. } => .error .codeBlock
  | { namedValues := none, .. } => .error .namedValues
  | ⟨some id, some size, some descriptor, some name, some block, some values⟩ =>
    .ok { id, size, descriptor, name, block, values }

end FunctionDraft

end OpcodeCatalog.Source
