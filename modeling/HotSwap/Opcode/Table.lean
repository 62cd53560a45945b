/-! # The instruction set

Every instruction begins with a byte, its opcode. The table lists the opcodes in
the order of their bytes, from zero, each with its mnemonic and the layout of what
follows it. -/

namespace HotSwap

/-- Operands that take up a fixed number of bytes. -/
inductive Shape
  /-- Nothing. -/
  | none
  /-- The index of a class. -/
  | classIndex
  /-- The index of a class, and a number of dimensions. -/
  | classDimensions
  /-- The index of a field or method. -/
  | memberIndex
  /-- The index of a method, a count of argument slots, and a zero byte. -/
  | memberCount
  /-- The index of a call site, and two zero bytes. -/
  | callSite
  /-- The index of a constant in one byte. -/
  | shortConstant
  /-- The index of a constant in two bytes. -/
  | constant
  /-- The index of a constant that takes two slots. -/
  | doubleConstant
  /-- A number in one byte. -/
  | byte
  /-- A number in two bytes. -/
  | short
  /-- The code of a primitive type. -/
  | elementType
  /-- A local variable slot. -/
  | slot
  /-- A local variable slot, and a number to add to it. -/
  | increment
  /-- The distance of a jump in two bytes. -/
  | jump
  /-- The distance of a jump in four bytes. -/
  | wideJump
  deriving DecidableEq, Repr

/-- The number of bytes of the operands. -/
def Shape.size : Shape → Nat
  | none => 0
  | shortConstant | byte | elementType | slot => 1
  | classIndex | memberIndex | constant | doubleConstant | short | increment | jump => 2
  | classDimensions => 3
  | memberCount | callSite | wideJump => 4

/-- The number of bytes of the operands behind a wide prefix, where there can be one. -/
def Shape.wideSize? : Shape → Option Nat
  | slot => some 2
  | increment => some 4
  | _ => Option.none

/-- What follows an opcode. -/
inductive Layout
  /-- Operands of a fixed size. -/
  | fixed (shape : Shape)
  /-- Padding, and a distance for each key of a range. -/
  | tableSwitch
  /-- Padding, and a distance for each key of a list. -/
  | lookupSwitch
  /-- Another opcode, whose operands are twice as wide. -/
  | widePrefix
  deriving DecidableEq, Repr

namespace OpcodeTable

/-- The row of an instruction whose operands have a fixed size. -/
def fixed (mnemonic : String) (shape : Shape) : String × Layout :=
  (mnemonic, .fixed shape)

/-- The row of an instruction without operands. -/
def plain (mnemonic : String) : String × Layout :=
  fixed mnemonic .none

/-- The mnemonics and layouts of the opcodes. -/
def rows : Vector (String × Layout) 202 :=
  #v[plain "nop", plain "aconst_null", plain "iconst_m1", plain "iconst_0", plain "iconst_1",
    plain "iconst_2", plain "iconst_3", plain "iconst_4", plain "iconst_5", plain "lconst_0",
    plain "lconst_1", plain "fconst_0", plain "fconst_1", plain "fconst_2", plain "dconst_0",
    plain "dconst_1", fixed "bipush" .byte, fixed "sipush" .short, fixed "ldc" .shortConstant,
    fixed "ldc_w" .constant, fixed "ldc2_w" .doubleConstant, fixed "iload" .slot,
    fixed "lload" .slot, fixed "fload" .slot, fixed "dload" .slot, fixed "aload" .slot,
    plain "iload_0", plain "iload_1", plain "iload_2", plain "iload_3", plain "lload_0",
    plain "lload_1", plain "lload_2", plain "lload_3", plain "fload_0", plain "fload_1",
    plain "fload_2", plain "fload_3", plain "dload_0", plain "dload_1", plain "dload_2",
    plain "dload_3", plain "aload_0", plain "aload_1", plain "aload_2", plain "aload_3",
    plain "iaload", plain "laload", plain "faload", plain "daload", plain "aaload",
    plain "baload", plain "caload", plain "saload", fixed "istore" .slot, fixed "lstore" .slot,
    fixed "fstore" .slot, fixed "dstore" .slot, fixed "astore" .slot, plain "istore_0",
    plain "istore_1", plain "istore_2", plain "istore_3", plain "lstore_0", plain "lstore_1",
    plain "lstore_2", plain "lstore_3", plain "fstore_0", plain "fstore_1", plain "fstore_2",
    plain "fstore_3", plain "dstore_0", plain "dstore_1", plain "dstore_2", plain "dstore_3",
    plain "astore_0", plain "astore_1", plain "astore_2", plain "astore_3", plain "iastore",
    plain "lastore", plain "fastore", plain "dastore", plain "aastore", plain "bastore",
    plain "castore", plain "sastore", plain "pop", plain "pop2", plain "dup", plain "dup_x1",
    plain "dup_x2", plain "dup2", plain "dup2_x1", plain "dup2_x2", plain "swap", plain "iadd",
    plain "ladd", plain "fadd", plain "dadd", plain "isub", plain "lsub", plain "fsub",
    plain "dsub", plain "imul", plain "lmul", plain "fmul", plain "dmul", plain "idiv",
    plain "ldiv", plain "fdiv", plain "ddiv", plain "irem", plain "lrem", plain "frem",
    plain "drem", plain "ineg", plain "lneg", plain "fneg", plain "dneg", plain "ishl",
    plain "lshl", plain "ishr", plain "lshr", plain "iushr", plain "lushr", plain "iand",
    plain "land", plain "ior", plain "lor", plain "ixor", plain "lxor", fixed "iinc" .increment,
    plain "i2l", plain "i2f", plain "i2d", plain "l2i", plain "l2f", plain "l2d", plain "f2i",
    plain "f2l", plain "f2d", plain "d2i", plain "d2l", plain "d2f", plain "i2b", plain "i2c",
    plain "i2s", plain "lcmp", plain "fcmpl", plain "fcmpg", plain "dcmpl", plain "dcmpg",
    fixed "ifeq" .jump, fixed "ifne" .jump, fixed "iflt" .jump, fixed "ifge" .jump,
    fixed "ifgt" .jump, fixed "ifle" .jump, fixed "if_icmpeq" .jump, fixed "if_icmpne" .jump,
    fixed "if_icmplt" .jump, fixed "if_icmpge" .jump, fixed "if_icmpgt" .jump,
    fixed "if_icmple" .jump, fixed "if_acmpeq" .jump, fixed "if_acmpne" .jump,
    fixed "goto" .jump, fixed "jsr" .jump, fixed "ret" .slot, ("tableswitch", .tableSwitch),
    ("lookupswitch", .lookupSwitch), plain "ireturn", plain "lreturn", plain "freturn",
    plain "dreturn", plain "areturn", plain "return", fixed "getstatic" .memberIndex,
    fixed "putstatic" .memberIndex, fixed "getfield" .memberIndex,
    fixed "putfield" .memberIndex, fixed "invokevirtual" .memberIndex,
    fixed "invokespecial" .memberIndex, fixed "invokestatic" .memberIndex,
    fixed "invokeinterface" .memberCount, fixed "invokedynamic" .callSite,
    fixed "new" .classIndex, fixed "newarray" .elementType, fixed "anewarray" .classIndex,
    plain "arraylength", plain "athrow", fixed "checkcast" .classIndex,
    fixed "instanceof" .classIndex, plain "monitorenter", plain "monitorexit",
    ("wide", .widePrefix), fixed "multianewarray" .classDimensions, fixed "ifnull" .jump,
    fixed "ifnonnull" .jump, fixed "goto_w" .wideJump, fixed "jsr_w" .wideJump]

end OpcodeTable

end HotSwap
