import HotSwap.ConstantPool

/-! # What constants stand for

Two classes number their constants each in its own way. What an index stands for does
not depend on the numbering: the name of a class, the owner, name and descriptor of a
member, or a value that can be loaded. -/

namespace HotSwap

/-- A field or method, by names. -/
structure MemberSymbol where
  owner : String
  name : String
  descriptor : String
  deriving DecidableEq, Repr

/-- A value that an instruction can load from the pool. -/
inductive Loadable
  | integer (value : Int32)
  | float (bits : UInt32)
  | long (value : Int64)
  | double (bits : UInt64)
  | string (text : String)
  | classRef (name : String)
  | methodType (descriptor : String)
  | methodHandle (kind : ReferenceKind) (target : MemberSymbol)
  /-- A value that is computed when it is loaded for the first time. -/
  | dynamic
  deriving DecidableEq, Repr

/-- What the indices in the code of a class stand for. -/
structure Symbols where
  className? : UInt16 → Option String
  member? : UInt16 → Option MemberSymbol
  loadable? : UInt16 → Option Loadable

namespace ConstantPool

/-- The field or method at an index. -/
def member? (pool : ConstantPool) (index : UInt16) : Option MemberSymbol :=
  match pool.get? index with
  | some (.member _ owner signature) =>
      match pool.className? owner, pool.nameAndType? signature with
      | some owner, some (name, descriptor) => some ⟨owner, name, descriptor⟩
      | _, _ => none
  | _ => none

/-- The value at an index that can be loaded. -/
def loadable? (pool : ConstantPool) (index : UInt16) : Option Loadable :=
  match pool.get? index with
  | some (.integer value) => some (.integer value)
  | some (.float bits) => some (.float bits)
  | some (.long value) => some (.long value)
  | some (.double bits) => some (.double bits)
  | some (.string _) => (pool.string? index).map .string
  | some (.classRef _) => (pool.className? index).map .classRef
  | some (.methodType descriptor) => (pool.text? descriptor).map .methodType
  | some (.methodHandle kind target) => (pool.member? target).map (.methodHandle kind)
  | some (.dynamic _ _) => some .dynamic
  | _ => none

/-- What the indices of a pool stand for. -/
def symbols (pool : ConstantPool) : Symbols :=
  ⟨pool.className?, pool.member?, pool.loadable?⟩

end ConstantPool

end HotSwap
