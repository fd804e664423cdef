import TaskMarkup.Command

namespace TaskMarkup.Command

def readFile (path : String) : IO (Except FileError (List UInt8)) := do
  try
    let bytes ← IO.FS.readBinFile path
    return .ok bytes.toList
  catch
    | .noFileOrDirectory .. => return .error .notFound
    | .permissionDenied .. => return .error .denied
    | .inappropriateType none .. => return .error .isFolder
    | .invalidArgument .. => return .error .longName
    | _ => return .error .notFolder

def readFiles (args : List String) : IO Files := do
  match parseArguments args with
  | .error _ => return fun _ => .error .notFound
  | .ok inv =>
    let found ← (paths inv).mapM fun path => do return (path, ← readFile path)
    return fun path => (found.lookup path).getD (.error .notFound)

end TaskMarkup.Command

def main (args : List String) : IO UInt32 := do
  let outcome := TaskMarkup.Command.run (← TaskMarkup.Command.readFiles args) args
  IO.print outcome.output
  IO.eprint outcome.errors
  return outcome.code.toUInt32
