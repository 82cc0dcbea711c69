import MicroJava.Proofs.Coupling.Source

/-! # Dropped reports

A reporter drops reports that follow too closely after another one. A reporter with no spacing drops
none. Compiling with the one or with the other gives the same code, because nothing but the reporter
itself depends on what was reported. The dropped reports are never the first, so a program with
problems always has a diagnostic.
-/

namespace MicroJava

namespace Reporter

variable {r r' : Reporter}

private theorem report_spaced (spaced : r.spacing ≤ r.distance) (p : Problem) :
    r.report p = { r.record ⟨r.pos, p⟩ with distance := 0 } := if_pos spaced

private theorem report_unspaced (unspaced : r.spacing = 0) (p : Problem) :
    r.report p = { r.record ⟨r.pos, p⟩ with distance := 0 } :=
  report_spaced (unspaced ▸ Nat.zero_le _) p

/-- Whether a reporter recorded some of what another one did that drops nothing: the first of it,
and all that the lexer found. A report is dropped only when there is something recorded. -/
structure Throttles (r r' : Reporter) : Prop where
  unspaced : r'.spacing = 0
  pos : r'.pos = r.pos
  some : r.recorded.toList.Sublist r'.recorded.toList
  first : r.recorded.toList.head? = r'.recorded.toList.head?
  lexical : r.recorded.toList.filter (·.problem.isLexical) =
    r'.recorded.toList.filter (·.problem.isLexical)
  ready : r.recorded = #[] → r.spacing ≤ r.distance

private theorem throttles_spaced (spacing : Nat) : (spaced spacing).Throttles (spaced 0) where
  unspaced := rfl
  pos := rfl
  some := .refl _
  first := rfl
  lexical := rfl
  ready _ := Nat.le_refl _

section

variable (throttles : r.Throttles r')

include throttles

/-- What both reporters record comes after what they recorded before. -/
theorem Throttles.record (d : Diagnostic) : (r.record d).Throttles (r'.record d) where
  unspaced := throttles.unspaced
  pos := throttles.pos
  some := by simpa [Reporter.record] using throttles.some
  first := by simp [Reporter.record, throttles.first]
  lexical := by simp [Reporter.record, throttles.lexical]
  ready empty := by simp [Reporter.record] at empty

theorem Throttles.records (found : List Diagnostic) :
    (found.foldl Reporter.record r).Throttles (found.foldl Reporter.record r') := by
  induction found generalizing r r' with
  | nil => exact throttles
  | cons d found ih => exact ih (throttles.record d)

theorem Throttles.advance (pos : Position) : (r.advance pos).Throttles (r'.advance pos) :=
  { throttles with
    pos := rfl
    ready := fun empty => Nat.le_succ_of_le (throttles.ready empty) }

private theorem report_recorded (p : Problem) : (r.report p).recorded ≠ #[] := by
  unfold report
  split
  · simp
  · next dropped => exact fun empty => dropped (throttles.ready empty)

/-- A problem that the lexer did not find is recorded by both reporters, or dropped by the one that
drops reports. -/
theorem Throttles.report {p : Problem} (parsed : p.isLexical = false) :
    (r.report p).Throttles (r'.report p) := by
  rw [report_unspaced throttles.unspaced, throttles.pos]
  by_cases spaced : r.spacing ≤ r.distance
  · rw [report_spaced spaced]
    have both := throttles.record ⟨r.pos, p⟩
    exact { both with ready := fun empty => by simp [Reporter.record] at empty }
  · have dropped : r.report p = { r with distance := 0 } := if_neg spaced
    have before : r.recorded.toList ≠ [] := fun none =>
      spaced (throttles.ready (Array.toList_eq_nil_iff.mp none))
    have before' : r'.recorded.toList ≠ [] := by
      intro none
      have first := throttles.first
      rw [none, List.head?_nil, List.head?_eq_none_iff] at first
      exact before first
    rw [dropped]
    refine { throttles with some := ?_, first := ?_, lexical := ?_, ready := fun empty => ?_ }
    · simpa [Reporter.record] using throttles.some.trans (List.sublist_append_left ..)
    · simpa [Reporter.record, List.head?_append_of_ne_nil _ before'] using throttles.first
    · simpa [Reporter.record, parsed] using throttles.lexical
    · exact absurd (congrArg Array.toList empty) before

/-- A check against a limit fails for both reporters or for none. -/
theorem Throttles.check (limit count : Nat) (p : CapacityProblem) :
    (if limit < count then r.report (.capacity p) else r).Throttles
      (if limit < count then r'.report (.capacity p) else r') := by
  split
  · exact throttles.report rfl
  · exact throttles

end

end Reporter

/-- A compilation that drops reports, and one that drops none. -/
def Coupling.throttling (limits : Limits) : Coupling where
  __ := Coupling.same limits limits
  Reporters := Reporter.Throttles
  Warned := fun r => r.recorded ≠ #[]
  report := by
    intro r r' p parsed throttles
    rw [Coupling.same, Problem.rename_id]
    exact ⟨throttles.report parsed, Reporter.report_recorded throttles p⟩
  check := fun limit count p throttles => throttles.check (limits.get limit) count p
  advance := by
    rintro r r' token _ found _ throttles rfl rfl
    exact (throttles.records found).advance token.pos
  hold := fun throttles warned => { throttles with ready := fun empty => absurd empty warned }
  warned := by
    intro r found pos warned empty
    exact warned (Reporter.recorded_of_foldl_record empty)

/-- The compilations of one source text with two reporters correspond after the first token. -/
theorem Coupling.throttling_start (spacing : Nat) (limits : Limits) (source : List Char)
    (first : Compiler)
    (scanned : Compile.scan (.start (.spaced spacing) limits source) = .ok ((), first)) :
    ∃ first', Compile.scan (.start (.spaced 0) limits source) = .ok ((), first') ∧
      (Coupling.throttling limits.clamped).States first first' := by
  refine Coupling.start_couples rfl rfl (List.forall₂_same.mpr fun _ _ => ⟨rfl, rfl⟩) ?_ first scanned
  rintro next next' ⟨token, found⟩
  exact (throttling limits.clamped).advance (Reporter.throttles_spaced spacing) token found

/-- Dropping reports changes neither the code nor what is accepted. A compilation that drops no
report has the same code. Its diagnostics include all of the others in the same order, beginning
with the same one, and both have the same lexical ones. So one list is empty exactly if the other
is, and a program with any problem is not compiled. -/
theorem Compilation.run_throttled (limits : Limits) (source : List Char) :
    ∃ (code : CodeBuffer) (throttled all : List Diagnostic),
      Compilation.run limits source = .ok ⟨code, throttled⟩ ∧
      Compilation.runWith (.spaced 0) limits source = .ok ⟨code, all⟩ ∧
      throttled.Sublist all ∧ throttled.head? = all.head? ∧
      throttled.filter (·.problem.isLexical) = all.filter (·.problem.isLexical) ∧
      (throttled = [] ↔ all = []) ∧
      (all ≠ [] → ∀ code, compile limits source ≠ .ok code) := by
  obtain ⟨s, source_s, run, _⟩ := Compilation.run_yields limits source
  obtain ⟨s', source_s', states⟩ :=
    Coupling.source_couples (Coupling.throttling_start 3 limits source) source_s
  have throttles : s.reporter.Throttles s'.reporter := states.reporter
  have empty : s.reporter.recorded.toList = [] ↔ s'.reporter.recorded.toList = [] := by
    rw [← List.head?_eq_none_iff, throttles.first, List.head?_eq_none_iff]
  refine ⟨s.code, _, _, run, ?_, throttles.some, throttles.first, throttles.lexical, empty, ?_⟩
  · rw [Compilation.runWith_of_source source_s', states.code]
  · intro problems code compiled
    unfold compile at compiled
    split at compiled
    · cases compiled
    · rw [run] at compiled
      cases recorded : s.reporter.recorded.toList with
      | nil => exact problems (empty.mp recorded)
      | cons d ds =>
        rw [recorded] at compiled
        cases compiled

end MicroJava
