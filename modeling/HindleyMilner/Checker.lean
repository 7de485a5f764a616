import HindleyMilner.Checker.Directory
import HindleyMilner.Checker.Options
import HindleyMilner.Context
import HindleyMilner.Stmt.Decode

namespace HindleyMilner.Checker

structure Output where
  code : Nat := 0
  stdout : String := ""
  stderr : String := ""
deriving Inhabited, Repr, DecidableEq

namespace Output

-- One run after another. The exit code is the last one that is not zero.
def append (a b : Output) : Output where
  code := if b.code = 0 then a.code else b.code
  stdout := a.stdout ++ b.stdout
  stderr := a.stderr ++ b.stderr

instance : Append Output := ⟨append⟩

end Output

structure Setting where
  stdin : String
  file : String → Except FileError String
  -- Output is colored if nothing else is said.
  color : Bool := false

structure Style where
  color : Bool
  verbose : Bool

namespace Style

def name (st : Style) (s : String) : String :=
  if st.color then "\x1b[1;36m" ++ s ++ "\x1b[0m" else s

def error (st : Style) (s : String) : Output where
  code := 1
  stderr := (if st.color then "\x1b[1;31m" ++ s ++ "\x1b[0m" else s) ++ "\n"

def log (st : Style) (s : String) : Output where
  stderr := if st.verbose then "hmcheck: " ++ s ++ "\n" else ""

end Style

def bindings (st : Style) (env : TypeEnv) : Output where
  stdout := .join (env.entries.map fun (x, σ) => st.name x ++ " : " ++ σ.render ++ "\n")

def culprit : Option Expr → Output
  | some e => { stderr := "  in " ++ e.kind?.getD "" ++ ": " ++ e.render ++ "\n" }
  | none => {}

def report (st : Style) (name : String) (r : Except InferError TypeEnv) (c : Context) : Output :=
  st.log (name ++ ": allocated " ++ toString c.varCount ++ " type-variables") ++
    match r with
    | .ok env => bindings st env
    | .error e =>
      let i := (c.invalidStmt.map (· + 1)).getD 0
      st.error (name ++ ": statement " ++ toString i ++ ": " ++ e.message) ++ culprit c.invalidExpr

def check (st : Style) (c : Context) (name text : String) : Output × Context :=
  match Program.parse text with
  | .error e => (st.error (name ++ ": " ++ e.message), c)
  | .ok p =>
    let count := p.exprCount.toOption.getD 0
    let decoded := st.log (name ++ ": decoded " ++ toString p.length ++ " statements ("
      ++ toString count ++ " expressions)")
    let (r, c) := c.inferProgram ∅ p
    (decoded ++ report st name r c, c)

def checkFile (w : Setting) (st : Style) (c : Context) (path : String) : Output × Context :=
  match w.file path with
  | .ok text => check st c path text
  | .error e => (st.error (e.message path), c)

def checkFiles (w : Setting) (st : Style) (titled : Bool) (c : Context) : List String → Output
  | [] => {}
  | path :: paths =>
    let title : Output := { stdout := if titled then path ++ ":\n" else "" }
    let (out, c) := checkFile w st c path
    title ++ out ++ checkFiles w st titled c paths

def Options.style (w : Setting) (mode : ColorMode) (o : Options) : Style where
  color := mode = .always || (mode = .auto && w.color)
  verbose := o.verbose

def run (w : Setting) (args : List String) : Output :=
  match Options.parse {} args with
  | .error e => { code := 2, stderr := e.message }
  | .ok (o, paths) =>
    match ColorMode.parse? o.color with
    | none => { code := 2, stderr := "hmcheck: unknown color mode " ++ o.color ++ "\n" }
    | some mode =>
      let st := o.style w mode
      match paths with
      | [] => (check st {} "<stdin>" w.stdin).1
      | paths => checkFiles w st (1 < paths.length) {} paths

end HindleyMilner.Checker
