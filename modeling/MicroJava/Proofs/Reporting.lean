import Mathlib.Data.List.DropRight
import MicroJava.Reporter

/-! # Which reports are recorded

A reporter counts the tokens since the last report. What it has recorded in the end is said here by
its history alone: whether a report is recorded depends on the tokens consumed since the latest
report or hold before it, and its place is that of the latest token.
-/

namespace MicroJava.Reporter

/-- Something that is done to a reporter. -/
inductive Action where
  | report (problem : Problem)
  | advance (pos : Position)
  | hold
  | record (d : Diagnostic)

def perform (r : Reporter) : Action → Reporter
  | .report problem => r.report problem
  | .advance pos => r.advance pos
  | .hold => r.hold
  | .record d => r.record d

/-! ## Histories -/

namespace Action

/-- Whether an action wants tokens to be consumed before the next report. -/
def restarts : Action → Bool
  | report _ | hold => true
  | advance _ | record _ => false

/-- The place of the token that an action makes the lookahead. -/
def place? : Action → Option Position
  | advance pos => some pos
  | _ => none

end Action

/-- The actions of a history after the latest report or hold, all of them if there is none. -/
def sinceRestart (history : List Action) : List Action := history.rtakeWhile (!·.restarts)

/-- The number of tokens that actions consume. -/
def consumed (actions : List Action) : Nat := actions.countP (·.place?.isSome)

/-- Whether a report after a history is recorded: the history has neither a report nor a hold, or
enough tokens were consumed since the latest one. -/
def Due (spacing : Nat) (history : List Action) : Prop :=
  history.any (·.restarts) = false ∨ spacing ≤ consumed (sinceRestart history)

instance (spacing : Nat) (history : List Action) : Decidable (Due spacing history) :=
  inferInstanceAs (Decidable (_ ∨ _))

/-- The place of the lookahead after a history: that of the latest token, or the start. -/
def place (history : List Action) : Position :=
  (history.reverse.findSome? Action.place?).getD .start

/-- What an action adds to the record after a history. -/
def Action.adds (spacing : Nat) (history : List Action) : Action → List Diagnostic
  | .record d => [d]
  | .report problem => if Due spacing history then [⟨place history, problem⟩] else []
  | .advance _ | .hold => []

/-- What actions add to the record, each after those before it. -/
def added (spacing : Nat) (history : List Action) : List Action → List Diagnostic
  | [] => []
  | a :: actions => a.adds spacing history ++ added spacing (history ++ [a]) actions

/-! ## The distance tells the history -/

/-- Whether a reporter remembers what matters of a history. -/
structure Remembers (r : Reporter) (history : List Action) : Prop where
  pos : r.pos = place history
  /-- A reporter that nothing restarted begins as if enough tokens were consumed before. -/
  distance : r.distance =
    (if history.any (·.restarts) then 0 else r.spacing) + consumed (sinceRestart history)

variable {r : Reporter} {history : List Action}

private theorem remembers_spaced (spacing : Nat) : (spaced spacing).Remembers [] where
  pos := rfl
  distance := rfl

theorem Remembers.due (remembers : r.Remembers history) :
    r.spacing ≤ r.distance ↔ Due r.spacing history := by
  rw [Due, remembers.distance]
  cases history.any (·.restarts) <;> simp

private theorem report_eq (r : Reporter) (problem : Problem) : r.report problem =
    { r with
      distance := 0
      recorded := if r.spacing ≤ r.distance then r.recorded.push ⟨r.pos, problem⟩ else r.recorded } := by
  rw [report]
  split <;> rfl

private theorem place_append (history : List Action) (a : Action) :
    place (history ++ [a]) = a.place?.getD (place history) := by
  cases a <;> simp [place, List.findSome?_cons, Action.place?]

private theorem sinceRestart_append (history : List Action) (a : Action) :
    sinceRestart (history ++ [a]) = if a.restarts then [] else sinceRestart history ++ [a] := by
  cases restarts : a.restarts with
  | true => simp [sinceRestart, List.rtakeWhile_concat_neg, restarts]
  | false => simp [sinceRestart, List.rtakeWhile_concat_pos, restarts]

private theorem perform_spacing (r : Reporter) (a : Action) :
    (r.perform a).spacing = r.spacing := by
  cases a with
  | report problem => rw [perform, report_eq]
  | advance | hold | record => rfl

/-- What a reporter remembers of a history follows each action. -/
theorem Remembers.perform (remembers : r.Remembers history) (a : Action) :
    (r.perform a).Remembers (history ++ [a]) := by
  obtain ⟨pos, distance⟩ := remembers
  constructor
  · rw [place_append, ← pos]
    cases a with
    | report problem => rw [Reporter.perform, report_eq]; rfl
    | advance | hold | record => rfl
  · rw [perform_spacing, sinceRestart_append]
    cases a with
    | report problem => simp [Reporter.perform, report_eq, Action.restarts, consumed]
    | hold => simp [Reporter.perform, hold, Action.restarts, consumed]
    | advance next =>
      have restarts : (Action.advance next).restarts = false := rfl
      simp [Reporter.perform, advance, restarts, distance, consumed, Action.place?, Nat.add_assoc]
    | record d =>
      have restarts : (Action.record d).restarts = false := rfl
      simp [Reporter.perform, record, restarts, distance, consumed, Action.place?]

/-- An action records what it is to add after the history that the reporter remembers. -/
theorem Remembers.recorded (remembers : r.Remembers history) (a : Action) :
    (r.perform a).recorded.toList = r.recorded.toList ++ a.adds r.spacing history := by
  cases a with
  | report problem =>
    simp only [Reporter.perform, report_eq, Action.adds, remembers.due, remembers.pos]
    split <;> simp
  | advance | hold => simp [Reporter.perform, advance, hold, Action.adds]
  | record d => simp [Reporter.perform, record, Action.adds]

/-- What a run of actions records, each after the ones before it. -/
theorem Remembers.recorded_foldl (remembers : r.Remembers history) (actions : List Action) :
    (actions.foldl Reporter.perform r).recorded.toList =
      r.recorded.toList ++ added r.spacing history actions := by
  induction actions generalizing r history with
  | nil => simp [added]
  | cons a actions ih =>
    rw [List.foldl_cons, ih (remembers.perform a), remembers.recorded, perform_spacing, added,
      List.append_assoc]

/-- A new reporter records exactly this, in order: all that is recorded directly, and each report
before which there was no other report and no hold, or at least three tokens were consumed since the
latest one, at the place of the latest token. -/
theorem standard_records (actions : List Action) :
    (actions.foldl perform standard).recorded.toList = added 3 [] actions :=
  (remembers_spaced 3).recorded_foldl actions

end MicroJava.Reporter
