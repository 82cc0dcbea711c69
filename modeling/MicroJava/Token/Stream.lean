import MicroJava.Token.Basic

/-! # Token streams

A stream remembers the token consumed last and shows the one to be consumed next. Before the first
step both are `Token.before`; at the end of the source the last token repeats.
-/

namespace MicroJava

/-- A reader of tokens with one token of lookahead. -/
structure TokenStream where
  /-- The token consumed last. -/
  prev : Token := .before
  /-- The token to be consumed next. -/
  peek : Token := .before
  /-- The tokens after `peek`. -/
  rest : List Scanned
  /-- How many steps were taken. -/
  steps : Nat := 0
deriving DecidableEq, Repr

namespace TokenStream

/-- The stream of a source text, before its first token. -/
def ofSource (source : List Char) : TokenStream := { rest := Scanned.all source }

/-- The lexical problems that the next step brings up. -/
def pending (s : TokenStream) : List Diagnostic :=
  match s.rest with
  | [] => []
  | next :: _ => next.diagnostics

/-- Consumes the lookahead token. -/
def advance (s : TokenStream) : TokenStream :=
  match s.rest with
  | [] => { s with prev := s.peek, steps := s.steps + 1 }
  | next :: rest => { prev := s.peek, peek := next.token, rest, steps := s.steps + 1 }

/-- The number of tokens, from the lookahead on, before the first one that satisfies `stop`. -/
def countUntil (s : TokenStream) (stop : Token → Bool) : Nat :=
  if stop s.peek then 0 else 1 + s.rest.findIdx fun next => stop next.token

end TokenStream

end MicroJava
