namespace HindleyMilner.Checker

inductive FileError where
  | notFound
  | notDirectory
  | isDirectory
  | nameTooLong
  | invalidPath
  | permissionDenied
deriving Inhabited, Repr, DecidableEq

namespace FileError

def reason : FileError → String
  | .notFound => "no such file or directory"
  | .notDirectory => "not a directory"
  | .isDirectory => "is a directory"
  | .nameTooLong => "file name too long"
  | .invalidPath => "invalid argument"
  | .permissionDenied => "permission denied"

-- A directory can be opened, but it has no text.
def message (path : String) : FileError → String
  | .isDirectory => path ++ ": yaml: input error: read " ++ path ++ ": is a directory"
  | e => "open " ++ path ++ ": " ++ e.reason

end FileError

abbrev Directory := String → Option String

namespace Directory

inductive Spot where
  | here
  -- Another directory, of which nothing is known.
  | elsewhere
  | file (text : String)
deriving Inhabited

def maxName : Nat := 255

-- Goes on from a spot by the next name of a path. A dot and nothing at all lead nowhere else.
def step (d : Directory) (s : Spot) (name : String) : Except FileError Spot :=
  match s with
  | .file _ => .error .notDirectory
  | s =>
    if name = "" || name = "." then .ok s
    else if name = ".." then .ok .elsewhere
    else if maxName < name.utf8ByteSize then .error .nameTooLong
    else
      match s, d name with
      | .here, some text => .ok (.file text)
      | _, _ => .error .notFound

def read (d : Directory) (path : String) : Except FileError String := do
  if path = "" then .error .notFound
  else if path.contains '\x00' then .error .invalidPath
  else
    let start := if path.startsWith "/" then .elsewhere else .here
    match ← (path.splitOn "/").foldlM d.step start with
    | .file text => .ok text
    | .here | .elsewhere => .error .isDirectory

end Directory

end HindleyMilner.Checker
