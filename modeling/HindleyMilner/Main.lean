import HindleyMilner.Checker

namespace HindleyMilner.Checker

def readFile (path : String) : IO (Except FileError String) := do
  try
    return .ok (← IO.FS.readFile path)
  catch e =>
    return .error <| match e with
      -- The system has the number 21 for a directory in place of a file.
      | .inappropriateType _ code _ => if code = 21 then .isDirectory else .notDirectory
      | .permissionDenied .. => .permissionDenied
      | .invalidArgument .. => .invalidPath
      | _ => .notFound

def setting (args : List String) : IO Setting := do
  let paths := match Options.parse {} args with
    | .ok (_, paths) => paths
    | .error _ => []
  let files ← paths.mapM fun path => return (path, ← readFile path)
  let stdin ← if paths.isEmpty then (← IO.getStdin).readToEnd else pure ""
  let isTty ← (← IO.getStdout).isTty
  return {
    stdin
    file := fun path => (List.lookup path files).getD (.error .notFound)
    color := isTty && (← IO.getEnv "NO_COLOR").isNone }

end HindleyMilner.Checker

open HindleyMilner in
def main (args : List String) : IO UInt32 := do
  let out := Checker.run (← Checker.setting args) args
  (← IO.getStdout).putStr out.stdout
  (← IO.getStderr).putStr out.stderr
  return out.code.toUInt32
