import HotSwap.ClassFile.Reading
import HotSwap.Redefinition.Change

/-! # Reports on redefined classes

A report has one line for each method of the old version of a class, and says how it
was changed in the new version. -/

namespace HotSwap

/-- What a report is about. -/
structure ReportOptions where
  mode : Mode
  /-- The name of the only methods that are reported on. -/
  only : Option String
  deriving DecidableEq, Repr

/-- The wording of a change. -/
def Change.text : Change → String
  | equivalent => "EMCP"
  | extended relocation => "switchable " ++ relocation.render
  | different (some obstacle) => s!"differs ({obstacle.text})"
  | different none => "differs (code differs)"

namespace ClassFile

/-- What became of a method with some name and descriptor in a new version of its class. -/
def fate (mode : Mode) (old new : ClassFile) (method : Method) (name descriptor : String) :
    String :=
  match new.method? name descriptor with
  | none => "removed"
  | some newMethod =>
      match method.body?, newMethod.body? with
      | some oldBody, some newBody =>
          (Version.compare mode (.ofPool oldBody old.constants)
            (.ofPool newBody new.constants)).text
      | _, _ => "skipped (no code)"

/-- The line on a method, if the report is about it. -/
def reportLine (options : ReportOptions) (old new : ClassFile) (method : Method) :
    Option String :=
  let name := (old.methodName? method).getD "<unnamed>"
  let descriptor := (old.methodDescriptor? method).getD ""
  if options.only.all (· == name) then
    some (name ++ descriptor ++ ": " ++ fate options.mode old new method name descriptor)
  else none

/-- The lines on the methods of a class, in the order of the old version. -/
def report (options : ReportOptions) (old new : ClassFile) : List String :=
  old.methods.filterMap (reportLine options old new)

end ClassFile

/-- What a program leaves behind. -/
structure ProgramResult where
  exitCode : Nat
  output : String
  deriving DecidableEq, Repr

/-- The report on two class files, each of which may not exist. A file that cannot be read is a
failure, and then there is no report. -/
def runReport (options : ReportOptions) (old new : Option Bytes) : ProgramResult :=
  match old.map ClassFile.read.run, new.map ClassFile.read.run with
  | some (.ok (oldFile, _)), some (.ok (newFile, _)) =>
      ⟨0, String.join ((ClassFile.report options oldFile newFile).map (· ++ "\n"))⟩
  | _, _ => ⟨1, ""⟩

end HotSwap
