import HindleyMilner.Checker
import HindleyMilner.Proofs.Reuse
import HindleyMilner.Proofs.SortedMap

namespace HindleyMilner.Checker

namespace Options

-- A complete option as it is written, and what it makes of the options before it.
inductive Flag : List String → Options → Options → Prop
  | verbose {o : Options} (dashes : String) (hd : dashes ∈ ["-", "--"]) :
    Flag [dashes ++ "v"] o { o with verbose := true }
  | verboseAs {b : Bool} {o : Options} (dashes s : String) (hd : dashes ∈ ["-", "--"])
    (hs : bool? s = some b) : Flag [dashes ++ "v=" ++ s] o { o with verbose := b }
  | color {o : Options} (dashes s : String) (hd : dashes ∈ ["-", "--"]) :
    Flag [dashes ++ "color", s] o { o with color := s }
  | colorAs {o : Options} (dashes s : String) (hd : dashes ∈ ["-", "--"]) :
    Flag [dashes ++ "color=" ++ s] o { o with color := s }

inductive Flags : List String → Options → Options → Prop
  | nil {o : Options} : Flags [] o o
  | cons {args rest : List String} {o o₁ o₂ : Options} (h : Flag args o o₁)
    (hs : Flags rest o₁ o₂) : Flags (args ++ rest) o o₂

variable {args : List String} {o o₁ : Options}

theorem Flag.parse (h : Flag args o o₁) (rest : List String) :
    parse o (args ++ rest) = parse o₁ rest := by
  have two {dashes : String} (hd : dashes ∈ ["-", "--"]) : dashes = "-" ∨ dashes = "--" := by
    simpa using hd
  cases h
  case verbose hd => obtain rfl | rfl := two hd <;> simp [Options.parse, afterDashes?, splitValue]
  case verboseAs hd hs =>
    obtain rfl | rfl := two hd <;>
      simp [Options.parse, afterDashes?, splitValue, hs, ← String.toList_inj]
  case color hd => obtain rfl | rfl := two hd <;> simp [Options.parse, afterDashes?, splitValue]
  case colorAs hd =>
    obtain rfl | rfl := two hd <;>
      simp [Options.parse, afterDashes?, splitValue, ← String.toList_inj]

theorem Flags.parse (h : Flags args o o₁) (paths : List String) :
    parse o (args ++ "--" :: paths) = .ok (o₁, paths) := by
  induction h
  case nil => simp [Options.parse]
  case cons h _ ih => rw [List.append_assoc, h.parse, ih]

end Options

namespace Output

variable (a b : Output)

@[simp]
theorem stdout_append : (a ++ b).stdout = a.stdout ++ b.stdout :=
  rfl

@[simp]
theorem stderr_append : (a ++ b).stderr = a.stderr ++ b.stderr :=
  rfl

@[simp]
theorem empty_append : {} ++ a = a := by
  have code : (if a.code = 0 then 0 else a.code) = a.code := by
    split
    case isTrue h => exact h.symm
    case isFalse => rfl
  change append {} a = a
  simp [append, code]

@[simp]
theorem append_empty : a ++ {} = a := by
  change append a {} = a
  simp [append]

end Output

section File

variable {w : Setting} {st : Style} {path : String} {env : TypeEnv}

end File

section Files

variable {w : Setting} {st : Style} {titled : Bool}

end Files

section Run

variable {w : Setting} {flags : List String} {o : Options} {mode : ColorMode}

end Run

end HindleyMilner.Checker
