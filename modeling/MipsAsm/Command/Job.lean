import MipsAsm.Storage.Failure

/-!
Jobs: what a command does, apart from the files it meets. A job reads at most one file, decides on its
effects, and performs them in order until one fails. Log events, which the environment can turn on, are
left out: they are no effects of a job.
-/

set_option autoImplicit false

namespace MipsAsm

inductive Effect
  | print (t : Text)
  | write (path : Path) (content : Text) (contexts : List Text)
  deriving DecidableEq, Repr

inductive Job
  | immediate (effects : Except Failure (List Effect))
  | reading (path : Path) (effects : Except IoError Text → Except Failure (List Effect))

structure Outcome where
  exit : Nat
  stdout : Text := []
  stderr : Text := []
  deriving DecidableEq, Repr

def Outcome.failed (stdout : Text) (failure : Failure) : Outcome :=
  { exit := 1, stdout, stderr := failure.report }

namespace Job

variable {σ : Type} [FileStore σ]

/-- Performs effects after `stdout` has been printed. -/
def perform (store : σ) (stdout : Text) : List Effect → Outcome × σ
  | [] => ({ exit := 0, stdout }, store)
  | .print t :: rest => perform store (stdout ++ t) rest
  | .write path content contexts :: rest =>
    match FileStore.writeText store path content with
    | .ok store => perform store stdout rest
    | .error error => (.failed stdout (.ofIo contexts error), store)

def performAll (store : σ) : Except Failure (List Effect) → Outcome × σ
  | .ok effects => perform store [] effects
  | .error failure => (.failed [] failure, store)

def run (store : σ) : Job → Outcome × σ
  | immediate effects => performAll store effects
  | reading path effects => performAll store (effects (FileStore.readText store path))

end Job

end MipsAsm
