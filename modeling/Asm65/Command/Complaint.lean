import Asm65.Session

/-!
# Complaints

When the command fails it says so in one line or a few and ends with a status that tells what
kind of failure it was.
-/

namespace Asm65.Command

/-- The kinds of failures a status tells apart. -/
inductive Complaint.Kind
  /-- The program does not assemble. -/
  | build
  /-- An option or a file is not usable. -/
  | usage
  /-- Anything else. -/
  | internal
deriving DecidableEq, Repr

/-- A failure as it is shown. -/
structure Complaint where
  kind : Complaint.Kind
  message : String
deriving DecidableEq, Repr

namespace Complaint

/-- The status of a kind of failure. -/
def Kind.status : Kind → Nat
  | build => 1
  | usage => 2
  | internal => 3

/-- The complaint about a fault. -/
def ofFault (fault : Fault) : Complaint :=
  match fault.kind with
  | .fileNotFound | .permission | .isDirectory | .badArgument => ⟨.usage, fault.message⟩
  | _ => ⟨.internal, fault.message⟩

/-- The complaint about a problem. -/
def ofProblem (problem : Problem) : Complaint :=
  ⟨.build, problem.message⟩

/-- The complaint about a failed session. -/
def ofFailure : Failure → Complaint
  | .problem message _ _ => ⟨.build, message⟩
  | .fault fault => ofFault fault

/-- The words in front of a build failure; the subject may be left out. -/
def buildHead : Option String → String
  | some subject => if subject = "" then "Error: " else subject ++ " error: "
  | none => "Error: "

/-- The line that stands before a list of calls. -/
def traceHead : String :=
  "Traceback (most recent call last):"

/-- The lines of a complaint. -/
def lines (complaint : Complaint) (verbose : Bool) (subject sourceLine : Option String) :
    List String :=
  match complaint.kind with
  | .build =>
      (buildHead subject ++ complaint.message) ::
        (sourceLine.map fun line => "    " ++ line).toList
  | .usage => ["Error: " ++ complaint.message]
  | .internal =>
      ("Internal error: " ++ complaint.message) :: (if verbose then [traceHead] else [])

end Complaint

end Asm65.Command
