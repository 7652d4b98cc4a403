import ClassHooks.Error.HookFault

/-!
Errors of the library: causes as values, and `Error.message` for their wording. A wrapped error
tells in which unit of the run, or in which method, its cause was found.
-/
namespace ClassHooks

inductive FileFault where
  | notFound
  | notADirectory
  | isADirectory
  | alreadyExists
  | directoryNotEmpty
  | invalidInput
  | invalidData
  | unexpectedEnd
  | unreadable
  | linkLoop
  deriving DecidableEq, Repr

namespace FileFault

def text : FileFault → String
  | .notFound => "no such file or directory"
  | .notADirectory => "not a directory"
  | .isADirectory => "is a directory"
  | .alreadyExists => "file exists"
  | .directoryNotEmpty => "directory not empty"
  | .invalidInput => "the source is not a regular file"
  | .invalidData => "the data do not match their checksum"
  | .unexpectedEnd => "the data end too early"
  | .unreadable => "the data have an unknown form"
  | .linkLoop => "too many levels of symbolic links"

end FileFault

inductive BranchFault where
  | outOfReach (opcode : Opcode) (position : Nat) (target : Label) (distance : Int)
  | outOfField (opcode : Opcode) (position : Nat) (target : Label)
  | outOfRange (distance : Int)
  | stated (message : String)
  deriving DecidableEq, Repr

namespace BranchFault

def text : BranchFault → String
  | .outOfReach opcode position target distance =>
    "'" ++ opcode.mnemonic ++ "' at " ++ toString position ++ " cannot reach " ++ target.text
      ++ " (" ++ toString distance ++ " bytes away)"
  | .outOfField opcode position target =>
    "'" ++ opcode.mnemonic ++ "' at " ++ toString position ++ " cannot reach " ++ target.text
  | .outOfRange distance => "offset " ++ toString distance ++ " out of range"
  | .stated message => message

end BranchFault

/-- Valid input that has no result. -/
inductive Limit where
  | operandStack (className method descriptor : String) (slots : Nat)
  | stated (message : String)
  deriving DecidableEq, Repr

namespace Limit

def text : Limit → String
  | .operandStack className method descriptor slots =>
    s!"{className}.{method}{descriptor} needs an operand stack of {slots} slots"
  | .stated message => message

end Limit

inductive DestinationFault where
  | emptyIdentity
  | outsideRoot (file root : String)
  | noFileUnderRoot (file root : String)
  | stated (message : String)
  deriving DecidableEq, Repr

namespace DestinationFault

def text : DestinationFault → String
  | .emptyIdentity => "empty input identity"
  | .outsideRoot file root => s!"{file} is outside of its source root {root}"
  | .noFileUnderRoot file root => s!"{file} does not name a file under {root}"
  | .stated message => message

end DestinationFault

inductive Error where
  | malformed (cause : Malformation)
  | outOfBounds
  | invalidOpcode (opcode : Opcode)
  | notSupported (limit : Limit)
  | undefinedLabel (label : Label)
  | duplicateLabel (label : Label)
  | invalidBranch (fault : BranchFault)
  | hook (policy : String) (fault : HookFault)
  | invalidDestination (fault : DestinationFault)
  | destinationConflict (path : String)
  | file (fault : FileFault)
  | archive
  | inUnit (unit : String) (source : Error)
  | inMethod (className method : String) (source : Error)
  | other (message : String)
  /-- A count has grown beyond its field: no answer, but the end of the run. -/
  | overflow
  deriving DecidableEq, Repr

namespace Error

def message : Error → String
  | .malformed cause => cause.message
  | .outOfBounds => "Out of Bound read would have occurred!"
  | .invalidOpcode opcode => opcode.unassignedText
  | .notSupported limit => "Not supported - " ++ limit.text
  | .undefinedLabel label => "Undefined label " ++ label.text
  | .duplicateLabel label => "Duplicate label " ++ label.text
  | .invalidBranch fault => "Invalid branch - " ++ fault.text
  | .hook policy fault => "Hook policy '" ++ policy ++ "' failed: " ++ fault.text
  | .invalidDestination fault => "Invalid destination - " ++ fault.text
  | .destinationConflict path => "Destination claimed twice in one run - " ++ path
  | .file fault => fault.text
  | .archive => "invalid archive"
  | .inUnit unit source => unit ++ ": " ++ source.message
  | .inMethod className method source => className ++ "." ++ method ++ ": " ++ source.message
  | .other message => message
  | .overflow => "a count is too large for its field"

/-- Nobody is handed an overflow; all else is reported to the caller. -/
def isReported : Error → Bool
  | .overflow => false
  | .inUnit _ source | .inMethod _ _ source => source.isReported
  | _ => true

/-- Names the unit in which the error arose; an error that already names one keeps it. -/
def within (unit : String) : Error → Error
  | .inUnit u source => .inUnit u source
  | e => .inUnit unit e

end Error

def counted (ofNat : Nat → α) (size count : Nat) : Except Error α :=
  if count < size then .ok (ofNat count) else .error .overflow

end ClassHooks
