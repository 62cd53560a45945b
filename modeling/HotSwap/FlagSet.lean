import HotSwap.Wire

/-! # Access flags

The access flags of a class or of a method are one 16 bit word. A vocabulary
gives each flag a name and a bit; bits without a name are dropped when a word is
read, since later versions of the format may give them a meaning. -/

namespace HotSwap

/-- The flags that a word can hold, by name and bit. -/
abbrev FlagVocabulary := List (String × UInt16)

/-- The bits that have a name. -/
def FlagVocabulary.known (vocabulary : FlagVocabulary) : UInt16 :=
  vocabulary.foldl (fun bits flag => bits ||| flag.2) 0

/-- A word in which only bits with a name are set. -/
structure FlagSet (vocabulary : FlagVocabulary) where
  bits : UInt16
  bits_known : bits &&& vocabulary.known = bits
  deriving DecidableEq, Repr

namespace FlagSet

variable {vocabulary : FlagVocabulary}

/-- The named bits of a word. -/
def ofBits (word : UInt16) : FlagSet vocabulary :=
  ⟨word &&& vocabulary.known, by rw [UInt16.and_assoc, UInt16.and_self]⟩

/-- Whether all the bits of `word` are set. -/
def contains (flags : FlagSet vocabulary) (word : UInt16) : Bool :=
  flags.bits &&& word == word

/-- The names of the flags that are set, in the order of the vocabulary. -/
def names (flags : FlagSet vocabulary) : List String :=
  (vocabulary.filter fun flag => flags.contains flag.2).map Prod.fst

def encode (flags : FlagSet vocabulary) : Bytes :=
  Word.u16.encode flags.bits

def read : Reader (FlagSet vocabulary) :=
  return ofBits (← Reader.u16)

theorem ofBits_bits (flags : FlagSet vocabulary) : ofBits flags.bits = flags := by
  cases flags with
  | mk bits bits_known => simp [ofBits, bits_known]

end FlagSet

def classVocabulary : FlagVocabulary :=
  [("PUBLIC", 0x0001), ("FINAL", 0x0010), ("SUPER", 0x0020), ("INTERFACE", 0x0200),
    ("ABSTRACT", 0x0400), ("SYNTHETIC", 0x1000), ("ANNOTATION", 0x2000), ("ENUM", 0x4000),
    ("MODULE", 0x8000)]

def methodVocabulary : FlagVocabulary :=
  [("PUBLIC", 0x0001), ("PRIVATE", 0x0002), ("PROTECTED", 0x0004), ("STATIC", 0x0008),
    ("FINAL", 0x0010), ("SYNCHRONIZED", 0x0020), ("BRIDGE", 0x0040), ("VARARGS", 0x0080),
    ("NATIVE", 0x0100), ("ABSTRACT", 0x0400), ("STRICT", 0x0800), ("SYNTHETIC", 0x1000)]

abbrev ClassFlags := FlagSet classVocabulary

abbrev MethodFlags := FlagSet methodVocabulary

/-- A public class whose superclass calls follow the present rules. -/
def ClassFlags.publicSuper : ClassFlags := FlagSet.ofBits 0x0021

/-- Whether a method has no receiver. -/
def MethodFlags.isStatic (flags : MethodFlags) : Bool := flags.contains 0x0008

end HotSwap
