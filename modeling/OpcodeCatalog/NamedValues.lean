import Std.Data.ExtTreeMap
import OpcodeCatalog.Bytes

/-!
# Named operand values

An entry binds the value of one operand slot to the name of a slot, usually the
same one.  The entries are kept under both sides: no two entries share a value
of a slot, and no two share a name of a slot, so each side determines the other.
-/

namespace OpcodeCatalog

/-- A raw value that an operand slot may hold. -/
structure SlotValue where
  slot : UInt32
  value : Int32
  deriving DecidableEq

/-- A symbolic name within an operand slot. -/
structure SlotName where
  slot : UInt32
  name : Bytes
  deriving DecidableEq

/-- By slot, then by signed value. -/
def SlotValue.order : SlotValue → SlotValue → Ordering :=
  compareLex (compareOn slot) (compareOn value)

/-- By slot, then by the bytes of the name. -/
def SlotName.order : SlotName → SlotName → Ordering :=
  compareLex (compareOn slot) (compareOn name)

instance : Std.TransCmp SlotValue.order :=
  Std.instTransCmpCompareLex

instance : Std.TransCmp SlotName.order :=
  Std.instTransCmpCompareLex

instance : Std.LawfulEqCmp SlotValue.order where
  eq_of_compare {left right} same := by
    obtain ⟨slots, values⟩ := Ordering.then_eq_eq.mp same
    cases left; cases right
    rw [SlotValue.mk.injEq]
    exact ⟨Std.LawfulEqOrd.eq_of_compare slots, Std.LawfulEqOrd.eq_of_compare values⟩

instance : Std.LawfulEqCmp SlotName.order where
  eq_of_compare {left right} same := by
    obtain ⟨slots, names⟩ := Ordering.then_eq_eq.mp same
    cases left; cases right
    rw [SlotName.mk.injEq]
    exact ⟨Std.LawfulEqOrd.eq_of_compare slots, Std.LawfulEqOrd.eq_of_compare names⟩

/-- One binding of a value to a name. -/
structure NamedValue where
  value : SlotValue
  name : SlotName
  deriving DecidableEq

/-- What became of an entry offered to a collection of named values. -/
inductive InsertOutcome where
  | inserted
  | duplicateValue
  | duplicateName
  deriving DecidableEq

structure NamedValues where
  byValue : Std.ExtTreeMap SlotValue SlotName SlotValue.order := ∅
  byName : Std.ExtTreeMap SlotName SlotValue SlotName.order := ∅

namespace NamedValues

def empty : NamedValues := {}

/-- An entry is refused if its value is already named, and otherwise if its name
is already bound. -/
def insert (values : NamedValues) (entry : NamedValue) : InsertOutcome × NamedValues :=
  if entry.value ∈ values.byValue then (.duplicateValue, values)
  else if entry.name ∈ values.byName then (.duplicateName, values)
  else (.inserted,
    { byValue := values.byValue.insert entry.value entry.name
      byName := values.byName.insert entry.name entry.value })

/-- Binds a value and a name within one slot. -/
def insertWithin (values : NamedValues) (slot : UInt32) (value : Int32) (name : Bytes) :
    InsertOutcome × NamedValues :=
  values.insert ⟨⟨slot, value⟩, ⟨slot, name⟩⟩

/-- The entries offered one after the other, leaving out those refused. -/
def insertAll (values : NamedValues) (entries : List NamedValue) : NamedValues :=
  entries.foldl (fun values entry => (values.insert entry).2) values

/-- The entries by slot and signed value. -/
def entries (values : NamedValues) : List NamedValue :=
  values.byValue.toList.map fun (value, name) => ⟨value, name⟩

def size (values : NamedValues) : Nat :=
  values.byValue.size

def isEmpty (values : NamedValues) : Bool :=
  values.byValue.isEmpty

def nameOf? (values : NamedValues) (slot : UInt32) (value : Int32) : Option Bytes :=
  values.byValue[(⟨slot, value⟩ : SlotValue)]?.map SlotName.name

def valueOf? (values : NamedValues) (slot : UInt32) (name : Bytes) : Option Int32 :=
  values.byName[(⟨slot, name⟩ : SlotName)]?.map SlotValue.value

/-- Collections are compared by what their values are named. -/
instance : BEq NamedValues where
  beq left right := left.byValue == right.byValue

end NamedValues

end OpcodeCatalog
