import HotSwap.Redefinition.Scan

/-! # What was changed in a method

The comparison of two versions tries the stricter equivalence first, and looks for
insertions only if the mode admits them. What it finds on the way is told as a list of
events. -/

namespace HotSwap

/-- What the comparison of two versions of a method comes to. -/
inductive Change
  /-- The versions are the same up to the numbering of constants. -/
  | equivalent
  /-- The new version is the old one with insertions. -/
  | extended (relocation : Relocation)
  /-- The versions differ, in the frames if there is an obstacle, and otherwise in the code. -/
  | different (obstacle : Option Obstacle)
  deriving DecidableEq, Repr

/-- Something that is worth telling about a comparison. -/
inductive Event
  | incomparable (obstacle : Obstacle)
  | notSwitchable (obstacle : Obstacle)
  | mismatch (old new : Instruction)
  | inserted (insertion : Insertion)
  | newEnds (old : Instruction)
  | unmatched (old : Instruction)
  | missed (old expected new : Nat)
  | malformed (fault : Fault)
  deriving DecidableEq, Repr

/-- How much an event matters. -/
inductive Level
  | debug
  | trace
  deriving DecidableEq, Repr

def Level.text : Level → String
  | debug => "DEBUG"
  | trace => "TRACE"

namespace Event

def level : Event → Level
  | mismatch .. | inserted _ => .trace
  | _ => .debug

/-- The wording of an event. -/
def message : Event → String
  | incomparable obstacle => s!"Methods are not comparable: {obstacle.text}"
  | notSwitchable obstacle => s!"Methods are not switchable: {obstacle.text}"
  | mismatch old new =>
      s!"Mismatch at {old.position}: {old.opcode.mnemonic} vs. {new.opcode.mnemonic}"
  | inserted insertion =>
      s!"Code inserted before old instruction at {insertion.before}: " ++
        s!"{insertion.start}..{insertion.stop}"
  | newEnds old => s!"New code ends before old instruction at {old.position}"
  | unmatched old => s!"No match for old instruction {old.opcode.mnemonic} at {old.position}"
  | missed old expected new =>
      s!"Forward jump miss: old target {old}, expected new target {expected}, " ++
        s!"actual new target {new}"
  | malformed fault =>
      "Failed to decode method code: MalformedCode \x7b bci: " ++ toString fault.position ++
        ", reason: \"" ++ fault.reason.text ++ "\" \x7d"

/-- The line of an event in a log. -/
def line (event : Event) : String :=
  s!"{event.level.text} {event.message}"

end Event

/-- What is told about a walk. -/
def WalkEnd.events : WalkEnd → List Event
  | mismatch old new => [.mismatch old new]
  | malformed fault => [.malformed fault]
  | equivalent | unpaired => []

/-- What is told about a scan: each insertion when it is found, and how the scan ended. -/
def Scan.events (scan : Scan) : List Event :=
  scan.relocation.toList.map .inserted ++
    match scan.result with
    | .complete => []
    | .newEnds old => [.newEnds old]
    | .unmatched old => [.unmatched old]
    | .missed old new => [.missed old (scan.relocation.toNew old) new]
    | .malformed fault => [.malformed fault]

namespace Version

/-- What is told in deciding whether two versions are equivalent. -/
def equivalentEvents (old new : Version) : List Event :=
  match Mode.exact.obstacle? old.body new.body with
  | some obstacle => [.incomparable obstacle]
  | none => (old.walk new).events

/-- What is told in looking for insertions. -/
def relocationEvents (old new : Version) : List Event :=
  match Mode.switchable.obstacle? old.body new.body with
  | some obstacle => [.notSwitchable obstacle]
  | none => (old.scan new).events

/-- Whether the codes of two versions are equally long, so that the versions may be equivalent. -/
def sameLength (old new : Version) : Bool :=
  old.body.code.length == new.body.code.length

/-- Compare two versions, once their frames are known to be the same. -/
def compareCode (mode : Mode) (old new : Version) : Change :=
  if old.sameLength new && old.walk new == .equivalent then .equivalent
  else
    match mode with
    | .exact => .different none
    | .switchable =>
        match (old.scan new).relocation? with
        | some relocation => .extended relocation
        | none => .different none

/-- Compare two versions of a method. -/
def compare (mode : Mode) (old new : Version) : Change :=
  match mode.obstacle? old.body new.body with
  | some obstacle => .different (some obstacle)
  | none => compareCode mode old new

/-- What is told in comparing two versions. -/
def compareEvents (mode : Mode) (old new : Version) : List Event :=
  match mode.obstacle? old.body new.body with
  | some obstacle => [.incomparable obstacle]
  | none =>
      let walked := if old.sameLength new then (old.walk new).events else []
      let scanned :=
        if mode = .exact ∨ compareCode .exact old new = .equivalent then []
        else (old.scan new).events
      walked ++ scanned

end Version

end HotSwap
