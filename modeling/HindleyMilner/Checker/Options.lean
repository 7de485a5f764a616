import HindleyMilner.Text.Quoted

namespace HindleyMilner.Checker

inductive ColorMode where
  | auto
  | always
  | never
deriving Inhabited, Repr, DecidableEq

namespace ColorMode

def parse? : String → Option ColorMode
  | "auto" => some .auto
  | "always" => some .always
  | "never" => some .never
  | _ => none

end ColorMode

structure Options where
  color : String := "auto"
  verbose : Bool := false
deriving Inhabited, Repr, DecidableEq

inductive OptionError where
  | help
  | badSyntax (arg : String)
  | undefined (name : String)
  | needsArgument (name : String)
  | invalidBool (value name : String)
deriving Inhabited, Repr, DecidableEq

namespace OptionError

def usage : String :=
  "usage: hmcheck [options] [file.yaml ...]\n"
    ++ "  -color string\n"
    ++ "    \tcolorize output: auto, always, or never (default \"auto\")\n"
    ++ "  -v\tlog progress to stderr\n"

def message : OptionError → String
  | .help => usage
  | .badSyntax arg => "bad flag syntax: " ++ arg ++ "\n" ++ usage
  | .undefined name => "flag provided but not defined: -" ++ name ++ "\n" ++ usage
  | .needsArgument name => "flag needs an argument: -" ++ name ++ "\n" ++ usage
  | .invalidBool value name =>
    "invalid boolean value " ++ Text.quote value ++ " for -" ++ name ++ ": parse error\n" ++ usage

end OptionError

namespace Options

def bool? (s : String) : Option Bool :=
  if s ∈ ["1", "t", "T", "true", "TRUE", "True"] then some true
  else if s ∈ ["0", "f", "F", "false", "FALSE", "False"] then some false
  else none

def splitValue (cs : List Char) : String × Option String :=
  match cs.dropWhile (· ≠ '=') with
  | _ :: value => (.ofList (cs.takeWhile (· ≠ '=')), some (.ofList value))
  | [] => (.ofList cs, none)

def afterDashes? (arg : String) : Option (List Char) :=
  match arg.toList with
  | '-' :: '-' :: cs => some cs
  | ['-'] => none
  | '-' :: cs => some cs
  | _ => none

-- Reads the options, up to the first argument that is none, or up to two dashes, and returns the
-- arguments after them. A later option wins over an earlier one.
def parse (o : Options) : List String → Except OptionError (Options × List String)
  | [] => .ok (o, [])
  | arg :: args =>
    if arg = "--" then .ok (o, args)
    else
      match afterDashes? arg with
      | none => .ok (o, arg :: args)
      | some cs =>
        if cs.head?.all (fun c => c = '-' || c = '=') then .error (.badSyntax arg)
        else
          match splitValue cs, args with
          | ("v", none), args => parse { o with verbose := true } args
          | ("v", some s), args =>
            match bool? s with
            | some b => parse { o with verbose := b } args
            | none => .error (.invalidBool s "v")
          | ("color", some s), args => parse { o with color := s } args
          | ("color", none), s :: args => parse { o with color := s } args
          | ("color", none), [] => .error (.needsArgument "color")
          | (name, _), _ =>
            if name = "help" || name = "h" then .error .help else .error (.undefined name)

end Options

end HindleyMilner.Checker
