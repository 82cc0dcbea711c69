import MicroJava.Proofs.Coupling.Source

/-! # Capacity limits

The limits decide only whether a program is accepted. They do not change its code, and a program
that is accepted stays accepted when the limits are raised. The reason is that a limit is looked at
for nothing but to report a problem: two compilations with different limits do the same until one of
them records a diagnostic, and the code does not depend on what was recorded.
-/

namespace MicroJava

open Reporter

namespace Limits

variable {limits limits' : Limits}

/-- The limits are all supported exactly if lowering them changes nothing. -/
theorem excess?_eq_none_iff : limits.excess? = none ↔ limits.clamped = limits := by
  have all : limits.excess? = none ↔ ∀ limit ∈ Limit.all, limits.get limit ≤ supported.get limit := by
    simp [excess?]
  rw [all]
  obtain ⟨globals, fields, locals⟩ := limits
  simp [Limit.all, get, supported, clamped]

/-- What is found to be too large is one of the limits, and it is too large. -/
theorem excess?_eq_some {excess : LimitExcess} (found : limits.excess? = some excess) :
    excess.value = limits.get excess.limit ∧ supported.get excess.limit < excess.value := by
  obtain ⟨limit, first, rfl⟩ := Option.map_eq_some_iff.mp found
  exact ⟨rfl, by simpa using List.find?_some first⟩

private theorem get_clamped (limit : Limit) :
    limits.clamped.get limit = min (limits.get limit) (supported.get limit) := by
  cases limit <;> rfl

private theorem clamped_mono (ordered : ∀ limit, limits.get limit ≤ limits'.get limit)
    (limit : Limit) :
    limits.clamped.get limit ≤ limits'.clamped.get limit := by
  have := ordered limit
  rw [get_clamped, get_clamped]
  omega

end Limits

namespace Reporter

variable {r r' : Reporter}

/-- Whether a reporter is the same as another one that recorded nothing so far, and which will then
record the next report. -/
structure Follows (r' r : Reporter) : Prop where
  same : r.recorded = #[] → r' = r
  ready : r.recorded = #[] → r.spacing ≤ r.distance

private theorem follows_spaced (spacing : Nat) : (spaced spacing).Follows (spaced spacing) :=
  ⟨fun _ => rfl, fun _ => Nat.le_refl _⟩

/-- Nothing more is known once something was recorded. -/
theorem follows_of_recorded (recorded : r.recorded ≠ #[]) : r'.Follows r :=
  ⟨fun empty => absurd empty recorded, fun empty => absurd empty recorded⟩

private theorem foldl_record_distance (found : List Diagnostic) :
    (found.foldl record r).distance = r.distance ∧
      (found.foldl record r).spacing = r.spacing := by
  induction found generalizing r with
  | nil => exact ⟨rfl, rfl⟩
  | cons d found ih => exact ih

theorem Follows.advance (follows : r'.Follows r) (found : List Diagnostic) (pos : Position) :
    ((found.foldl record r').advance pos).Follows
      ((found.foldl record r).advance pos) := by
  constructor
  · intro empty
    rw [follows.same (recorded_of_foldl_record empty)]
  · intro empty
    have ready := follows.ready (recorded_of_foldl_record empty)
    obtain ⟨distance, spacing⟩ := foldl_record_distance (r := r) found
    simp only [Reporter.advance, distance, spacing]
    omega

/-- A check that fails under larger limits fails under smaller ones. -/
theorem Follows.check {limit limit' count : Nat} (follows : r'.Follows r) (ordered : limit ≤ limit')
    (p : Problem) :
    (if limit' < count then r'.report p else r').Follows
      (if limit < count then r.report p else r) := by
  by_cases exceeded : limit < count
  · rw [if_pos exceeded]
    exact follows_of_recorded (Compile.report_recorded follows.ready p)
  · rw [if_neg exceeded, if_neg (by omega)]
    exact follows

end Reporter

/-- Compilations with different limits. If those of the second one are larger, then its reporter does
what the first one does as long as that records nothing. -/
def Coupling.limiting (limits limits' : Limits) : Coupling where
  __ := Coupling.same limits limits'
  Reporters r r' := (∀ limit, limits.get limit ≤ limits'.get limit) → r'.Follows r
  Warned r := (∀ limit, limits.get limit ≤ limits'.get limit) → r.recorded ≠ #[]
  report := by
    intro r r' p _ follows
    have recorded (ordered : ∀ limit, limits.get limit ≤ limits'.get limit) :
        (r.report p).recorded ≠ #[] := Compile.report_recorded (follows ordered).ready p
    exact ⟨fun ordered => follows_of_recorded (recorded ordered), recorded⟩
  check := by
    intro r r' limit count p follows ordered
    exact (follows ordered).check (ordered limit) _
  advance := by
    rintro r r' token _ found _ follows rfl rfl ordered
    exact (follows ordered).advance found token.pos
  hold := fun _ warned ordered => follows_of_recorded (warned ordered)
  warned := by
    intro r found pos warned ordered empty
    exact warned ordered (recorded_of_foldl_record empty)

/-- The compilations of one source text with two sets of limits correspond after the first token. -/
theorem Coupling.limiting_start (limits limits' : Limits) (source : List Char) (first : Compiler)
    (scanned : Compile.scan (.start .standard limits source) = .ok ((), first)) :
    ∃ first', Compile.scan (.start .standard limits' source) = .ok ((), first') ∧
      (Coupling.limiting limits.clamped limits'.clamped).States first first' := by
  refine Coupling.start_couples rfl rfl (List.forall₂_same.mpr fun _ _ => ⟨rfl, rfl⟩) ?_ first scanned
  rintro next next' ⟨token, found⟩
  exact (limiting limits.clamped limits'.clamped).advance (fun _ => follows_spaced 3) token
    found

/-- Two compilations of one text have the same code, and the one with larger limits records nothing
if the other one records nothing. -/
theorem Compilation.run_limited (limits limits' : Limits) (source : List Char) :
    ∃ (code : CodeBuffer) (found found' : List Diagnostic),
      Compilation.run limits source = .ok ⟨code, found⟩ ∧
      Compilation.run limits' source = .ok ⟨code, found'⟩ ∧
      ((∀ limit, limits.get limit ≤ limits'.get limit) → found = [] → found' = []) := by
  obtain ⟨s, source_s, run, _⟩ := Compilation.run_yields limits source
  obtain ⟨s', source_s', states⟩ :=
    Coupling.source_couples (Coupling.limiting_start limits limits' source) source_s
  have run' := Compilation.runWith_of_source source_s'
  rw [states.code] at run'
  refine ⟨s.code, _, _, run, run', ?_⟩
  intro ordered empty
  have follows : s'.reporter.Follows s.reporter := states.reporter (Limits.clamped_mono ordered)
  rw [follows.same (Array.toList_eq_nil_iff.mp empty), empty]

theorem compile_eq_limits_iff {limits : Limits} {source : List Char} {excess : LimitExcess} :
    compile limits source = .error (.limits excess) ↔ limits.excess? = some excess := by
  unfold compile
  cases limits.excess? with
  | some excess => simp
  | none =>
    match Compilation.run limits source with
    | .error fault => simp
    | .ok ⟨_, []⟩ => simp
    | .ok ⟨_, d :: ds⟩ => simp

/-- The limits decide whether a text is accepted, and nothing else. Any two compilations of it have
the same code. A text that is accepted is accepted with the same code under all supported limits that
are at least as large. Limits are refused exactly if lowering them to what is supported would change
them. Then one of them is named that is too large, whatever the text is, so nothing is compiled. -/
theorem Compilation.limits_gate (limits limits' : Limits) (source : List Char) :
    (∃ (code : CodeBuffer) (found found' : List Diagnostic),
      Compilation.run limits source = .ok ⟨code, found⟩ ∧
      Compilation.run limits' source = .ok ⟨code, found'⟩) ∧
    (∀ code, compile limits source = .ok code → limits'.clamped = limits' →
      (∀ limit, limits.get limit ≤ limits'.get limit) → compile limits' source = .ok code) ∧
    ((∃ excess, compile limits source = .error (.limits excess)) ↔ limits.clamped ≠ limits) ∧
    ∀ excess, compile limits source = .error (.limits excess) →
      (∀ text, compile limits text = .error (.limits excess)) ∧
      excess.value = limits.get excess.limit ∧
      Limits.supported.get excess.limit < excess.value := by
  obtain ⟨code, found, found', run, run', gated⟩ := Compilation.run_limited limits limits' source
  refine ⟨⟨code, found, found', run, run'⟩, ?_, ?_, ?_⟩
  · intro compiled accepted supported ordered
    obtain ⟨_, clean⟩ := compile_eq_ok_iff.mp accepted
    rw [run] at clean
    cases clean
    rw [compile_eq_ok_iff, run', gated ordered rfl]
    exact ⟨Limits.excess?_eq_none_iff.mpr supported, rfl⟩
  · simp only [compile_eq_limits_iff]
    rw [Ne, ← Limits.excess?_eq_none_iff, ← Option.ne_none_iff_exists']
  · intro excess refused
    have exceeds := compile_eq_limits_iff.mp refused
    exact ⟨fun text => compile_eq_limits_iff.mpr exceeds, Limits.excess?_eq_some exceeds⟩

def globalSource : List Char := "program P int a; \x7b void main() int b; \x7b b=a;\x7d\x7d".toList

/-- A text with a global and a local variable under limits that it just meets, and under larger
ones. Smaller limits reject it, and limits that are not supported are refused. -/
theorem Compilation.limits_gate_global : ∃ code,
    compile ⟨1, 0, 1⟩ globalSource = .ok code ∧ compile ⟨2, 5, 127⟩ globalSource = .ok code ∧
    (∃ found, compile ⟨0, 0, 1⟩ globalSource = .error (.source found)) ∧
    ∃ excess, compile ⟨1, 0, 128⟩ globalSource = .error (.limits excess) := by
  obtain ⟨code, accepted⟩ :=
    Compilation.accepted_of_diagnostics ⟨1, 0, 1⟩ globalSource (by decide +kernel)
  have compiled : compile ⟨1, 0, 1⟩ globalSource = .ok code :=
    compile_eq_ok_iff.mpr ⟨rfl, accepted⟩
  have gate := Compilation.limits_gate ⟨1, 0, 1⟩ ⟨2, 5, 127⟩ globalSource
  refine ⟨code, compiled, gate.2.1 code compiled rfl ?_, ?_, ?_⟩
  · intro limit
    cases limit <;> decide
  · exact ⟨[⟨⟨1, 18⟩, .capacity .tooManyGlobals⟩], by decide +kernel⟩
  · exact (Compilation.limits_gate ⟨1, 0, 128⟩ ⟨1, 0, 1⟩ globalSource).2.2.1.mpr (by decide)

end MicroJava
