import MultipleDispatch.CommandLine

/-!
The program: reads files and the environment, and prints.
-/

open MultipleDispatch CommandLine

/-- Reads a file as bytes. Some failures come with their code negated, as a word of 32 bits. -/
def MultipleDispatch.CommandLine.readBytes (path : String) : IO (Except ReadFailure ByteArray) := do
  try
    return .ok (← IO.FS.readBinFile path)
  catch e =>
    match e with
    | .noFileOrDirectory _ _ _ => return .error .notFound
    | .inappropriateType _ code _ =>
      return .error (if code == 20 || code == 0xffffffec then .notDirectory else .isDirectory)
    | .invalidArgument _ code details =>
      return .error (if code == 36 || code == 0xffffffdc then .nameTooLong else .other details)
    | e => return .error (.other (toString e))

/-- Runs the program on the arguments of the command line. -/
def main (args : List String) : IO UInt32 := do
  let overrides : Overrides :=
    { policy := ← IO.getEnv Overrides.policyVariable
      parallel := ← IO.getEnv Overrides.parallelVariable }
  let outcome ← run readBytes overrides args
  IO.print outcome.out
  IO.eprint outcome.err
  return outcome.code.toUInt32
