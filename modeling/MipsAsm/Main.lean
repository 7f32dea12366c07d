import MipsAsm.Command.Basic

/-!
The program. Its first argument names the command, the others are the command's arguments.
-/

set_option autoImplicit false

namespace MipsAsm.Main

/-- The system's text and number for an error. -/
def systemError : IO.Error → IoError
  | .noFileOrDirectory _ code details | .inappropriateType _ code details
  | .permissionDenied _ code details | .resourceExhausted _ code details
  | .noSuchThing _ code details | .alreadyExists _ code details
  | .invalidArgument _ code details | .interrupted _ code details
  | .otherError code details | .resourceBusy code details | .resourceVanished code details
  | .unsupportedOperation code details | .hardwareFault code details
  | .unsatisfiedConstraints code details | .illegalOperation code details
  | .protocolError code details | .timeExpired code details =>
    .system details.toList code.toNat
  | error => .system error.toString.toList 0

def readText (path : Path) : IO (Except IoError Text) := do
  match ← (IO.FS.withFile (String.ofList path) .read fun handle => handle.readBinToEnd).toBaseIO with
  | .ok bytes => return FileStore.decodeText bytes
  | .error error => return .error (systemError error)

def fail (failure : Failure) : IO UInt32 := do
  (← IO.getStderr).putStr (String.ofList failure.report)
  return 1

def refuse (message : Text) : IO UInt32 := do
  (← IO.getStderr).putStr (String.ofList message)
  return 2

def perform : List Effect → IO UInt32
  | [] => return 0
  | .print t :: rest => do
    (← IO.getStdout).putStr (String.ofList t)
    perform rest
  | .write path content contexts :: rest => do
    match ← (IO.FS.writeBinFile (String.ofList path) (FileStore.encodeText content)).toBaseIO with
    | .ok _ => perform rest
    | .error error => fail (.ofIo contexts (systemError error))

def performAll : Except Failure (List Effect) → IO UInt32
  | .ok effects => perform effects
  | .error failure => fail failure

def runJob : Job → IO UInt32
  | .immediate effects => performAll effects
  | .reading path effects => do performAll (effects (← readText path))

def run : List Text → IO UInt32
  | [] => refuse "missing command\n".toList
  | name :: arguments =>
    match Command.ofName? name with
    | none => refuse ("unknown command ".toList ++ Text.quoted name ++ "\n".toList)
    | some command =>
      match command.job arguments with
      | .ok job => runJob job
      | .error error => refuse (command.refused error).stderr

end MipsAsm.Main

def main (arguments : List String) : IO UInt32 := MipsAsm.Main.run (arguments.map String.toList)
