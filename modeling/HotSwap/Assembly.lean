import HotSwap.Instruction.Decoding
import HotSwap.Wire

/-! # Assembling code

A program is a list of statements: instructions, raw bytes, and labels. Jumps name
the labels that they go to. A draft is the program with a gap for the distance of
every jump; once all labels have their places, the gaps are filled from front to
back. A label that is placed more than once stands where it was placed last. -/

namespace HotSwap

/-- The name of a place in the code. -/
abbrev Label := Nat

/-- Why a program cannot be assembled. -/
inductive AssemblyError
  /-- A jump goes to a label that has no place. -/
  | unplaced (label : Label)
  /-- The distance from a jump to a place does not fit into the instruction. -/
  | outOfRange (origin place : Nat)
  deriving DecidableEq, Repr

/-- The wording of a cause. -/
def AssemblyError.message : AssemblyError → String
  | .unplaced label => s!"l{label}"
  | .outOfRange origin place => s!"from {origin} to {place}"

/-- A part of a program. -/
inductive Statement
  /-- A place for a label. -/
  | label (label : Label)
  /-- An instruction without operands. -/
  | plain (opcode : Opcode)
  | raw (bytes : Bytes)
  | bipush (value : Int8)
  | sipush (value : Int16)
  /-- Load a constant, with a one byte index if that is enough. -/
  | loadConstant (index : UInt16)
  /-- An instruction with the index of a constant. -/
  | constant (opcode : Opcode) (index : UInt16)
  | invokeinterface (index : UInt16) (count : UInt8)
  | invokedynamic (index : UInt16)
  | multianewarray (index : UInt16) (dimensions : UInt8)
  | newarray (code : UInt8)
  /-- An instruction with a local variable slot, with a wide prefix if it is needed. -/
  | slot (opcode : Opcode) (slot : UInt16)
  | wideSlot (opcode : Opcode) (slot : UInt16)
  /-- Add to a local variable slot, with a wide prefix if it is needed. -/
  | increment (slot : UInt16) (amount : Int16)
  | wideIncrement (slot : UInt16) (amount : Int16)
  | jump (opcode : Opcode) (target : Label)
  /-- A switch over the keys from `low` on. -/
  | tableswitch (otherwise : Label) (low : Int32) (targets : List Label)
  /-- A switch over a list of keys, in the order of the list. -/
  | lookupswitch (otherwise : Label) (cases : List (Int32 × Label))
  deriving DecidableEq, Repr

/-- A piece of a draft: bytes, or a gap for the distance from a jump to a label. -/
inductive Piece
  | bytes (content : Bytes)
  | gap (width : Nat) (origin : Nat) (target : Label)
  deriving DecidableEq, Repr

namespace Piece

def size : Piece → Nat
  | bytes content => content.length
  | gap width _ _ => width

/-- The size of some pieces together. -/
def totalSize (pieces : List Piece) : Nat :=
  pieces.foldr (fun piece total => piece.size + total) 0

/-- The bytes of a piece, when the labels have the given places. -/
def fill (places : List (Label × Nat)) : Piece → Except AssemblyError Bytes
  | bytes content => .ok content
  | gap width origin target =>
      match places.lookup target with
      | none => .error (.unplaced target)
      | some place =>
          let distance : Int := place - origin
          if Bytes.FitsInt width distance then .ok (Bytes.ofInt width distance)
          else .error (.outOfRange origin place)

end Piece

namespace Statement

/-- An opcode and operands that are known. -/
def known (opcode : Opcode) (operands : Bytes) : List Piece :=
  [.bytes (opcode.toByte :: operands)]

def wideSlotPieces (opcode : Opcode) (number : UInt16) : List Piece :=
  known .wide (opcode.toByte :: Word.u16.encode number)

def wideIncrementPieces (number : UInt16) (amount : Int16) : List Piece :=
  known .wide (Opcode.iinc.toByte :: Word.u16.encode number ++ Word.i16.encode amount)

/-- The width of the distance in a jump with the given opcode. -/
def distanceWidth (opcode : Opcode) : Nat :=
  if opcode.layout = .fixed .wideJump then 4 else 2

/-- A switch up to its first distance. -/
def switch (position : Nat) (opcode : Opcode) (otherwise : Label) (head : Bytes)
    (rest : List Piece) : List Piece :=
  .bytes (opcode.toByte :: List.replicate (tablePadding position) 0) ::
    .gap 4 position otherwise :: .bytes head :: rest

/-- The pieces of a statement at a position. -/
def pieces (position : Nat) : Statement → List Piece
  | label _ => []
  | plain opcode => known opcode []
  | raw bytes => [.bytes bytes]
  | bipush value => known .bipush [value.toUInt8]
  | sipush value => known .sipush (Word.i16.encode value)
  | loadConstant index =>
      if index.toNat < 256 then known .ldc [index.toUInt8] else known .ldcW (Word.u16.encode index)
  | constant opcode index => known opcode (Word.u16.encode index)
  | invokeinterface index count => known .invokeinterface (Word.u16.encode index ++ [count, 0])
  | invokedynamic index => known .invokedynamic (Word.u16.encode index ++ [0, 0])
  | multianewarray index dimensions => known .multianewarray (Word.u16.encode index ++ [dimensions])
  | newarray code => known .newarray [code]
  | slot opcode number =>
      if number.toNat < 256 then known opcode [number.toUInt8] else wideSlotPieces opcode number
  | wideSlot opcode number => wideSlotPieces opcode number
  | increment number amount =>
      if number.toNat < 256 ∧ Bytes.FitsInt 1 amount.toInt then
        known .iinc (number.toUInt8 :: Bytes.ofInt 1 amount.toInt)
      else wideIncrementPieces number amount
  | wideIncrement number amount => wideIncrementPieces number amount
  | jump opcode target =>
      [.bytes [opcode.toByte], .gap (distanceWidth opcode) position target]
  | tableswitch otherwise low targets =>
      let high := low.toInt + targets.length - 1
      switch position .tableswitch otherwise (Word.i32.encode low ++ Bytes.ofInt 4 high)
        (targets.map (.gap 4 position))
  | lookupswitch otherwise cases =>
      switch position .lookupswitch otherwise (Bytes.ofNat 4 cases.length)
        (cases.flatMap fun (key, target) =>
          [.bytes (Word.i32.encode key), .gap 4 position target])

end Statement

/-- The pieces of the statements so far, of which the last one comes first, their length, and the
places of labels, of which the latest come first. -/
structure Draft where
  pieces : List Piece
  length : Nat
  places : List (Label × Nat)
  deriving DecidableEq, Repr

namespace Draft

def empty : Draft :=
  ⟨[], 0, []⟩

def add (draft : Draft) (statement : Statement) : Draft :=
  let pieces := statement.pieces draft.length
  let places :=
    match statement with
    | .label label => (label, draft.length) :: draft.places
    | _ => draft.places
  ⟨pieces.reverse ++ draft.pieces, draft.length + Piece.totalSize pieces, places⟩

/-- The draft of a program. -/
def ofStatements (program : List Statement) : Draft :=
  program.foldl add empty

/-- Fill the gaps, from front to back. -/
def finish (draft : Draft) : Except AssemblyError Bytes :=
  (draft.pieces.reverse.mapM (Piece.fill draft.places)).map List.flatten

end Draft

/-- The code of a program. -/
def assemble (program : List Statement) : Except AssemblyError Bytes :=
  (Draft.ofStatements program).finish

end HotSwap
