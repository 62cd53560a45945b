import HotSwap.Report

/-! # The command line

This is the outer layer of the program, which turns a list of arguments into what a report
is asked for; the report itself is `runReport`. The program is given the paths of the old
and of the new class file. `--exact` leaves insertions out of consideration, and `--method`
names the methods to report on. Each option can be given once, anywhere among the paths;
after `--` there are only paths. There is no option that asks for help. -/

namespace HotSwap

/-- One argument, by its form. -/
inductive Argument
  | path (text : String)
  | exact
  /-- The name of methods, in the same argument as the option. -/
  | method (name : String)
  /-- The option that is followed by the name of methods. -/
  | methodNext
  /-- The end of the options. -/
  | separator
  | unknown
  deriving DecidableEq, Repr

namespace Argument

/-- An option, which goes up to the first equals sign if there is one. Equals signs in front of the
name of methods are not part of the name. -/
def ofOption (text : List Char) : Argument :=
  let value := text.dropWhile (· ≠ '=')
  match String.ofList (text.takeWhile (· ≠ '=')) with
  | "exact" => .exact
  | "method" =>
      if value.isEmpty then .methodNext
      else .method (String.ofList (value.dropWhile (· = '=')))
  | _ => .unknown

/-- The form of an argument. One dash alone is a path. -/
def ofText (text : String) : Argument :=
  match text.toList with
  | ['-', '-'] => .separator
  | '-' :: '-' :: option => ofOption (option.dropWhile (· = '-'))
  | '-' :: _ :: _ => .unknown
  | _ => .path text

end Argument

/-- What the program is asked for. -/
structure Arguments where
  options : ReportOptions
  oldPath : String
  newPath : String
  deriving DecidableEq, Repr

namespace Arguments

/-- The options and the paths in a list of arguments, after some that are known already. Of the
paths that are known, the last one comes first. -/
def collect (options : ReportOptions) (paths : List String) :
    List String → Option (ReportOptions × List String)
  | [] => some (options, paths.reverse)
  | text :: rest =>
      match Argument.ofText text with
      | .path path => collect options (path :: paths) rest
      | .separator => some (options, paths.reverse ++ rest)
      | .exact =>
          if options.mode = .exact then none
          else collect { options with mode := .exact } paths rest
      | .method name =>
          if options.only.isSome then none
          else collect { options with only := some name } paths rest
      | .methodNext =>
          match rest with
          | [] => none
          | name :: rest =>
              if options.only.isSome ∨ Argument.ofText name ≠ .path name then none
              else collect { options with only := some name } paths rest
      | .unknown => none

/-- The arguments, if they are two paths and known options. -/
def parse? (arguments : List String) : Option Arguments :=
  match collect ⟨.switchable, none⟩ [] arguments with
  | some (options, [oldPath, newPath]) => some ⟨options, oldPath, newPath⟩
  | _ => none

/-- What to write if the arguments make no sense. -/
def usage : String :=
  "usage: [--exact] [--method NAME] OLD NEW"

end Arguments

/-- The report that a list of arguments asks for, when the paths lead to the given contents. -/
def runProgram (content : String → Option Bytes) (arguments : List String) : ProgramResult :=
  match Arguments.parse? arguments with
  | none => ⟨1, ""⟩
  | some found => runReport found.options (content found.oldPath) (content found.newPath)

end HotSwap
