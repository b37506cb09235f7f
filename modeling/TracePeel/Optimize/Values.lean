import TracePeel.Operation

/-! What is known of values.

Each value has a slot, and every box and constant met stands for one; boxes that
turned out equal stand for the same. A slot holds the operand that is emitted for
the value, what is known of it, and, while an allocation is held back, the virtual
object: its allocation and the last value written to each field, in the order of
first writing. Forcing a virtual object emits its allocation and its fields'
writes, the objects in its fields first, and leaves an ordinary value. -/
namespace TracePeel

abbrev ValueId := Nat

/-- How much is known of a value; it only rises. -/
inductive Level where
  | unknown
  | nonNull
  | constant
  deriving Repr, DecidableEq

def Level.name : Level → String
  | unknown => "Unknown"
  | nonNull => "NonNull"
  | constant => "Constant"

/-- An allocation held back and what was written to its fields. -/
structure Virtual where
  allocation : Operation
  fields : Bindings String ValueId := {}
  deriving Repr, DecidableEq

structure Slot where
  /-- What is emitted for the value. -/
  operand : Operand
  level : Level
  /-- Whether the value exists before the loop goes round. -/
  fromStart : Bool := false
  knownClass : Option Const := none
  virtual : Option Virtual := none
  deriving Repr, DecidableEq

namespace Slot

def isConstant (s : Slot) : Bool :=
  s.level == .constant

def isVirtual (s : Slot) : Bool :=
  s.virtual.isSome

def constant? (s : Slot) : Option Const :=
  if s.isConstant then s.operand.const? else none

/-- Whether the value is known to be other than null. -/
def isNonNull (s : Slot) : Bool :=
  match s.level with
  | .constant => s.constant?.any Const.isTrue
  | .nonNull => true
  | .unknown => false

/-- Whether the value is known to be null. -/
def isNull (s : Slot) : Bool :=
  s.constant?.any (!·.isTrue)

/-- Whether the value may be handed to the loop instead of being computed again:
a constant needs no hand-over, and a virtual object is cheaper to build again. -/
def isSafeToForce (s : Slot) : Bool :=
  !s.isConstant && !s.isVirtual

/-- What stands at an id that was never given out. -/
def vacant : Slot :=
  { operand := .const (.int 0), level := .unknown }

end Slot

/-- The slots, the slot that each box and constant stands for, and how many
virtual objects were forced. -/
structure Values where
  slots : Array Slot := #[]
  index : Bindings Operand ValueId := {}
  forced : Nat := 0
  deriving Repr, DecidableEq

namespace Values

def slot (v : Values) (id : ValueId) : Slot :=
  v.slots.getD id Slot.vacant

def modifySlot (v : Values) (id : ValueId) (f : Slot → Slot) : Values :=
  {v with slots := v.slots.modify id f}

/-- The slot of a box that was met. -/
def lookup (v : Values) (b : Box) : Option ValueId :=
  v.index.get? (.box b)

/-- The slot of an operand, a new one if it was not met before. -/
def valueOf (v : Values) (a : Operand) : ValueId × Values :=
  match v.index.get? a with
  | some id => (id, v)
  | none =>
    let level : Level := if a.isConst then .constant else .unknown
    (v.slots.size, {v with
      slots := v.slots.push { operand := a, level }
      index := v.index.set a v.slots.size})

/-- Lets a box stand for a value from now on. -/
def forward (v : Values) (b : Box) (id : ValueId) : Values :=
  {v with index := v.index.set (.box b) id}

def makeConstant (v : Values) (id : ValueId) (c : Const) : Values :=
  v.modifySlot id fun s => {s with operand := .const c, level := .constant, virtual := none}

def makeNonNull (v : Values) (id : ValueId) : Values :=
  v.modifySlot id fun s => if s.level = .unknown then {s with level := .nonNull} else s

def setClass (v : Values) (id : ValueId) (c : Const) : Values :=
  v.modifySlot id fun s => {s with knownClass := some c}

/-- Holds an allocation back; one without a result is not taken. -/
def makeVirtual (v : Values) (op : Operation) : Option ValueId × Values :=
  match op.result with
  | none => (none, v)
  | some r =>
    let (id, v) := v.valueOf (.box r)
    (some id, v.modifySlot id fun s =>
      {s with level := .nonNull, virtual := some { allocation := op }})

/-- Writes a field of a virtual object; of any other value, nothing. -/
def setField (v : Values) (id : ValueId) (name : String) (value : ValueId) : Values :=
  v.modifySlot id fun s =>
    {s with virtual := s.virtual.map fun o => {o with fields := o.fields.set name value}}

/-- What was last written to a field of a virtual object. -/
def field? (v : Values) (id : ValueId) (name : String) : Option ValueId :=
  (v.slot id).virtual.bind (·.fields.get? name)

/-- The table after the allocation of `id` was emitted. -/
def materialize (v : Values) (id : ValueId) : Values :=
  {v.modifySlot id fun s => {s with virtual := none} with forced := v.forced + 1}

/-- Forcing, through at most `depth` nested objects. -/
def forceWithin : Nat → ValueId → Values × Array Operation → Values × Array Operation
  | 0, _, s => s
  | depth + 1, id, (v, out) =>
    match (v.slot id).virtual with
    | none => (v, out)
    | some object =>
      object.fields.entries.foldl
        (fun s (name, value) =>
          let (v', out) := forceWithin depth value s
          (v', out.push (.setField (v.slot id).operand name (v'.slot value).operand)))
        (v.materialize id, out.push object.allocation)

/-- Makes a value an ordinary one and gives the operand emitted for it. An object
once forced is virtual no more, so there is no deeper nest than there are slots. -/
def force (v : Values) (id : ValueId) (out : Array Operation) :
    Operand × Values × Array Operation :=
  let (v, out) := forceWithin v.slots.size id (v, out)
  ((v.slot id).operand, v, out)

/-- Marks as from-start the values that exist now and can be handed to the loop. -/
def markFromStart (v : Values) : Values :=
  {v with slots := v.slots.map fun s => {s with fromStart := s.isSafeToForce}}

def fromStartCount (v : Values) : Nat :=
  v.slots.countP (·.fromStart)

end Values
end TracePeel
