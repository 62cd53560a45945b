import HotSwap.Constant
import HotSwap.SlotArray

/-! # Constant pools

A constant pool holds the constants of a class under indices from one to 65534; a
number of eight bytes takes up two indices. Constants are added at the end. Those
that were asked for by value are remembered, so that asking again gives the same
index. An entry for a class or a string can be resolved: its text is then kept
beside it. -/

namespace HotSwap

structure ConstantPool where
  entries : SlotArray Constant
  /-- The texts of the entries that are resolved, of which the latest come first. -/
  resolved : List (UInt16 × String)
  /-- The constants that were asked for, with the indices that were given out. -/
  interned : List (Constant × UInt16)
  deriving Repr

namespace ConstantPool

/-- A pool without entries. The first index is one. -/
def empty : ConstantPool :=
  ⟨SlotArray.empty 1, [], []⟩

/-- The number of entries. -/
def size (pool : ConstantPool) : Nat :=
  pool.entries.size

/-- The index that the next entry gets. -/
def next (pool : ConstantPool) : Nat :=
  pool.entries.next

/-- Whether a constant can be added. No index reaches 65535, which the count has to hold. -/
def HasRoom (pool : ConstantPool) (constant : Constant) : Prop :=
  pool.next + constant.width ≤ 65535

instance (pool : ConstantPool) (constant : Constant) : Decidable (pool.HasRoom constant) :=
  inferInstanceAs (Decidable (_ ≤ _))

/-- Add a constant at the end. -/
def push (pool : ConstantPool) (constant : Constant) : ConstantPool :=
  { pool with entries := pool.entries.push constant.width constant }

/-- The entry at an index. -/
def get? (pool : ConstantPool) (index : UInt16) : Option Constant :=
  pool.entries.get? index.toNat

/-- The entries with their indices, in order. -/
def toList (pool : ConstantPool) : List (UInt16 × Constant) :=
  pool.entries.toList.map fun entry => (UInt16.ofNat entry.1, entry.2)

/-! ## Reading and writing -/

/-- The pool as in a class file: the next index, and the entries. -/
def encode (pool : ConstantPool) : Bytes :=
  Bytes.ofNat 2 pool.next ++ pool.entries.toList.flatMap fun entry => entry.2.encode

/-- Read entries until the next index is not below `count` any more. -/
def readUpTo (count : Nat) (pool : ConstantPool) (input : Bytes) :
    Except FormatError (ConstantPool × Bytes) :=
  if pool.next < count then
    match Constant.read pool.next input with
    | .error cause => .error cause
    | .ok (constant, rest) =>
        if pool.HasRoom constant then readUpTo count (pool.push constant) rest
        else .error (.poolFull pool.next)
  else .ok (pool, input)
termination_by count - pool.next
decreasing_by
  have := constant.width_pos
  simp only [push, next, SlotArray.push] at *
  omega

/-- A pool as in a class file. -/
def read : Reader ConstantPool := do
  let count ← Reader.u16
  readUpTo count.toNat empty

/-! ## Looking up -/

/-- The text at an index. -/
def text? (pool : ConstantPool) (index : UInt16) : Option String :=
  match pool.get? index with
  | some (.utf8 text) => some text
  | _ => none

/-- The text of a class or string entry, of which `text` is the index of the text. -/
def resolvedText? (pool : ConstantPool) (index text : UInt16) : Option String :=
  match pool.resolved.lookup index with
  | some resolved => some resolved
  | none => pool.text? text

/-- The name of the class at an index. -/
def className? (pool : ConstantPool) (index : UInt16) : Option String :=
  match pool.get? index with
  | some (.classRef name) => pool.resolvedText? index name
  | _ => none

/-- The string at an index. -/
def string? (pool : ConstantPool) (index : UInt16) : Option String :=
  match pool.get? index with
  | some (.string text) => pool.resolvedText? index text
  | _ => none

/-- The name and the descriptor at an index. -/
def nameAndType? (pool : ConstantPool) (index : UInt16) : Option (String × String) :=
  match pool.get? index with
  | some (.nameAndType name descriptor) =>
      match pool.text? name, pool.text? descriptor with
      | some name, some descriptor => some (name, descriptor)
      | _, _ => none
  | _ => none

/-- Whether an entry is resolved. -/
def isResolved (pool : ConstantPool) (index : UInt16) : Bool :=
  (pool.resolved.lookup index).isSome

end ConstantPool

/-- A computation that adds to a constant pool. What was added before a failure stays. -/
abbrev PoolM := ExceptT FormatError (StateM ConstantPool)

namespace PoolM

/-! ## Adding constants -/

/-- Add a constant, whether or not there is an equal one, and give its index. -/
def append (constant : Constant) : PoolM UInt16 := fun pool =>
  if pool.HasRoom constant then (.ok (UInt16.ofNat pool.next), pool.push constant)
  else (.error (.poolFull pool.next), pool)

/-- Remember the index of a constant. -/
def remember (constant : Constant) (index : UInt16) : PoolM Unit :=
  modify fun pool => { pool with interned := (constant, index) :: pool.interned }

/-- The index of a constant that was asked for before, or else of a new entry. -/
def intern (constant : Constant) : PoolM UInt16 := do
  match (← get).interned.lookup constant with
  | some index => return index
  | none =>
      let index ← append constant
      remember constant index
      return index

def internText (text : String) : PoolM UInt16 :=
  intern (.utf8 text)

def internClass (name : String) : PoolM UInt16 := do
  intern (.classRef (← internText name))

def internString (text : String) : PoolM UInt16 := do
  intern (.string (← internText text))

def internNameAndType (name descriptor : String) : PoolM UInt16 := do
  let name ← internText name
  let descriptor ← internText descriptor
  intern (.nameAndType name descriptor)

def internMember (kind : MemberKind) (owner name descriptor : String) : PoolM UInt16 := do
  let owner ← internClass owner
  let signature ← internNameAndType name descriptor
  intern (.member kind owner signature)

/-! ## Resolving -/

/-- Keep the text of the class or string at an index beside the entry. -/
def resolve (index : UInt16) : PoolM Unit := do
  let pool ← get
  match pool.get? index with
  | some (.classRef name) | some (.string name) =>
      match pool.text? name with
      | some text => set { pool with resolved := (index, text) :: pool.resolved }
      | none => throw (.badIndex name .utf8)
  | _ => throw (.badIndex index .classOrString)

end PoolM

end HotSwap
