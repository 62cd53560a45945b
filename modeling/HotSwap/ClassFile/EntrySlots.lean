import HotSwap.FlagSet
import HotSwap.Descriptor.Parser
import HotSwap.FormatError

/-! # Parameter slots

A method is entered with its parameters in the first local variable slots, after the
receiver if it has one. -/

namespace HotSwap

/-- The slots of the receiver and the parameters of a method, as a 16 bit number. -/
def entrySlots (flags : MethodFlags) (descriptor : String) : Except FormatError UInt16 :=
  match MethodType.ofText descriptor with
  | .error _ => .error (.badDescriptor descriptor)
  | .ok type =>
      let receiver := if flags.isStatic then 0 else 1
      .ok (UInt16.ofNat (type.parameterWidth + receiver))

end HotSwap
