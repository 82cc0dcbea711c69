import MicroJava.Problem

/-! # Reporting problems

One fault in a program tends to cause a cascade of complaints. A reporter therefore records a
problem only when enough tokens were consumed since the one before it, whether that one was
recorded or dropped. Problems found by the lexer are recorded directly and bypass the rule.
-/

namespace MicroJava

/-- Records problems at the place of the lookahead token. -/
structure Reporter where
  /-- How many tokens must be consumed after a report before the next one is recorded. -/
  spacing : Nat
  /-- Tokens consumed since the last report. -/
  distance : Nat
  /-- The place of the lookahead token. -/
  pos : Position := .start
  /-- What was recorded, in order. -/
  recorded : Array Diagnostic := #[]
deriving DecidableEq, Repr

namespace Reporter

/-- A reporter with a given spacing that records its first report. -/
def spaced (spacing : Nat) : Reporter := { spacing, distance := spacing }

/-- A reporter that wants three tokens between two reports. -/
def standard : Reporter := spaced 3

/-- Records a diagnostic whatever was reported before. -/
def record (r : Reporter) (d : Diagnostic) : Reporter :=
  { r with recorded := r.recorded.push d }

/-- Reports a problem at the current place. -/
def report (r : Reporter) (problem : Problem) : Reporter :=
  if r.spacing ≤ r.distance then
    { r with recorded := r.recorded.push ⟨r.pos, problem⟩, distance := 0 }
  else { r with distance := 0 }

/-- Notes that a token was consumed and that the next one stands at `pos`. -/
def advance (r : Reporter) (pos : Position) : Reporter :=
  { r with distance := r.distance + 1, pos }

/-- Drops further reports until enough tokens were consumed. -/
def hold (r : Reporter) : Reporter := { r with distance := 0 }

end Reporter

end MicroJava
