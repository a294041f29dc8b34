import Coverage.Regex.Parser

/-!
# Languages of patterns

What has to be known of patterns: whether one can be read, and in which lines it is found. Everything that uses
patterns takes such a language as a parameter; the usual one is that of `Regex`.
-/

namespace Coverage

/-- Why a pattern cannot be used. -/
inductive PatternProblem where
  | invalid (message : String)
  /-- A number in it is too large to be stored. -/
  | excessive (message : String)
  deriving DecidableEq, Repr

/-- The pattern that excludes lines unless another one is chosen. -/
def usualPattern : String := "#\\s*pragma:\\s*no\\s*cover"

/-- A language of patterns. -/
structure PatternLanguage where
  /-- Reads a pattern, and tells the lines in which it is found. -/
  compile : String → Except PatternProblem (List Char → Bool)
  /-- Reads a pattern of bytes, which cannot be looked for in a text. -/
  compileBytes : List UInt8 → Except PatternProblem Unit
  exists_usual : ∃ found, compile usualPattern = .ok found

namespace Regex

def Invalid.toProblem (pattern : String) (e : Invalid) : PatternProblem :=
  if e.problem = .repeatTooLarge then .excessive e.problem.message else .invalid (e.message pattern)

/-- Bytes as text, each as the character with its number. -/
def textOfBytes (bytes : List UInt8) : String := String.ofList (bytes.map fun b ↦ Char.ofNat b.toNat)

/-- The patterns that can be read as expressions; patterns of bytes as if they were text. -/
def language : PatternLanguage where
  compile s := ((parse s).mapError (·.toProblem s)).map search
  compileBytes bytes :=
    ((parse (textOfBytes bytes)).mapError (·.toProblem (textOfBytes bytes))).map fun _ ↦ ()
  exists_usual := by
    have h : (parse usualPattern).toBool = true := by decide +kernel
    cases hr : parse usualPattern with
    | ok r => exact ⟨r.search, rfl⟩
    | error e => simp [hr, Except.toBool] at h

end Regex

end Coverage
