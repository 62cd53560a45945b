import HotSwap.Redefinition.Version

/-! # Equal up to the numbering of constants

Two instructions are equivalent if they have the same opcode and operands that mean the
same: constants that stand for the same thing, and otherwise equal numbers. Two versions
are equivalent if their instructions are, one for one. -/

namespace HotSwap

/-- Whether two things are both there and are equal. -/
def agree {α : Type} [DecidableEq α] : Option α → Option α → Bool
  | some first, some second => first == second
  | _, _ => false

/-- Whether two indices load the same value. One that is still to be computed equals no other. -/
def sameLoadable (first second : Option Loadable) : Bool :=
  first != some .dynamic && agree first second

namespace Operands

/-- Whether operands that are no jumps mean the same. -/
def sameMeaning (old new : Symbols) : Operands → Operands → Bool
  | none, none => true
  | classRef i, classRef j => agree (old.className? i) (new.className? j)
  | arrayClass i m, arrayClass j n => agree (old.className? i) (new.className? j) && m == n
  | member i, member j => agree (old.member? i) (new.member? j)
  | interfaceMember i _, interfaceMember j _ => agree (old.member? i) (new.member? j)
  | callSite _, callSite _ => true
  | constant i, constant j => sameLoadable (old.loadable? i) (new.loadable? j)
  | byte m, byte n => m == n
  | short m, short n => m == n
  | elementType _, elementType _ => true
  | slot i, slot j => i == j
  | increment i m, increment j n => i == j && m == n
  | _, _ => false

end Operands

namespace Instruction

/-- Whether two instructions have the same opcode, both with or both without a wide prefix. -/
def sameKind (old new : Instruction) : Bool :=
  old.opcode == new.opcode && old.wide == new.wide

/-- Whether operands mean the same at the same position. Switches are compared byte by byte. -/
def sameInPlace (oldSymbols newSymbols : Symbols) (old new : Instruction) : Bool :=
  match old.operands, new.operands with
  | .jump m, .jump n => m == n
  | .tableSwitch .., .tableSwitch .. => old.encoding == new.encoding
  | .lookupSwitch .., .lookupSwitch .. => old.encoding == new.encoding
  | first, second => first.sameMeaning oldSymbols newSymbols second

def equivalent (oldSymbols newSymbols : Symbols) (old new : Instruction) : Bool :=
  sameKind old new && sameInPlace oldSymbols newSymbols old new

end Instruction

/-- How walking through two versions side by side ended. -/
inductive WalkEnd
  /-- All instructions are equivalent. -/
  | equivalent
  /-- These two instructions are not equivalent. -/
  | mismatch (old new : Instruction)
  /-- One of the versions has further instructions. -/
  | unpaired
  /-- There is no instruction at some position. -/
  | malformed (fault : Fault)
  deriving DecidableEq, Repr

/-- The end of a code without a fault. -/
def WalkEnd.atEnd (fault : Option Fault) (otherwise : WalkEnd) : WalkEnd :=
  match fault with
  | some fault => malformed fault
  | none => otherwise

/-- Walk through two lists of instructions, after which there may be faults. A fault counts when
it is reached, in the old code first. -/
def walk (old new : Symbols) (oldFault newFault : Option Fault) :
    List Instruction → List Instruction → WalkEnd
  | [], [] => .atEnd oldFault (.atEnd newFault .equivalent)
  | [], _ :: _ => .atEnd oldFault .unpaired
  | _ :: _, [] => .atEnd newFault .unpaired
  | first :: olds, second :: news =>
      if first.equivalent old new second then walk old new oldFault newFault olds news
      else .mismatch first second

namespace Version

/-- Walk through the code of two versions. -/
def walk (old new : Version) : WalkEnd :=
  let oldListing := old.listing
  let newListing := new.listing
  HotSwap.walk old.symbols new.symbols oldListing.fault newListing.fault
    oldListing.instructions newListing.instructions

/-- Whether two versions are the same up to the numbering of constants. -/
def equivalent (old new : Version) : Bool :=
  (Mode.exact.obstacle? old.body new.body).isNone && old.walk new == .equivalent

end Version

end HotSwap
