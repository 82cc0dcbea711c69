import Mathlib.Data.List.Chain
import MicroJava.Proofs.Lexing.Order
import MicroJava.Proofs.Progress.Source

/-! # Diagnostics in source order

Two parties record diagnostics: the lexer, one token ahead, and the parser at its lookahead token.
What the lexer finds with a token is recorded when the token becomes the lookahead, so the order of
the source is kept. The parser never consumes the end of the source before it is done, and its reports
are three tokens apart.
-/

namespace MicroJava

open List Reporter Compile

/-! ## Streams of a source -/

namespace TokenStream

/-- Whether a stream has reached a token of a source, with the others still to come. -/
structure StandsIn (source : List Char) (t : TokenStream) : Prop where
  reached : (ofSource source).Consumes t
  wellFormed : t.WellFormed
  suffix : ∃ found, ⟨t.peek, found⟩ :: t.rest <:+ Scanned.all source

variable {source : List Char} {t u : TokenStream}

private theorem ofSource_next (wellFormed : (ofSource source).WellFormed) :
    ∃ first : Scanned, (ofSource source).pending = first.diagnostics ∧
      (ofSource source).advance.peek = first.token ∧ first.Orderly ∧
      (ofSource source).advance.StandsIn source := by
  have more : (ofSource source).peek.kind ≠ .eof := by
    simp [ofSource, Token.before, Token.kind, Lexeme.kind]
  have left := wellFormed.rest_advance more
  cases all : Scanned.all source with
  | nil => simp [ofSource, all] at left
  | cons first rest =>
    have orderly := Scanned.all_orderly source first (by simp [all])
    refine ⟨first, by simp [pending, ofSource, all], by simp [advance, ofSource, all], orderly, ?_⟩
    refine ⟨.step more .refl, wellFormed.advance, first.diagnostics, ?_⟩
    simp [ofSource, advance, all]

theorem StandsIn.peek_mem (stands : t.StandsIn source) : t.peek ∈ Token.all source := by
  obtain ⟨found, suffix⟩ := stands.suffix
  exact mem_map_of_mem (suffix.mem mem_cons_self)

/-- Before the end of the source, a stream is followed by a token that stands behind its own. What is
found with that token is what the next step brings up. -/
theorem StandsIn.next (stands : t.StandsIn source) (more : t.peek.kind ≠ .eof) :
    ∃ next : Scanned, t.pending = next.diagnostics ∧ t.advance.peek = next.token ∧ next.Orderly ∧
      t.peek.pos < next.token.pos ∧ (∀ d ∈ next.diagnostics, t.peek.pos ≤ d.pos) ∧
      t.advance.StandsIn source := by
  obtain ⟨found, suffix⟩ := stands.suffix
  have left := stands.wellFormed.rest_advance more
  cases upcoming : t.rest with
  | nil => simp [upcoming] at left
  | cons next rest =>
    rw [upcoming] at suffix
    have precedes := (Scanned.all_precedes source).suffix suffix
    rw [isChain_cons_cons] at precedes
    have orderly := Scanned.all_orderly source next (suffix.mem (by simp))
    have behind : next :: rest <:+ Scanned.all source := (suffix_cons ..).trans suffix
    refine ⟨next, by simp [pending, upcoming], by simp [advance, upcoming], orderly,
      precedes.1.token, precedes.1.found, ?_⟩
    refine ⟨stands.reached.trans (.step more .refl), stands.wellFormed.advance, next.diagnostics, ?_⟩
    simpa [advance, upcoming] using behind

/-- Tokens that are consumed later stand further behind. -/
theorem StandsIn.pos_lt (stands : t.StandsIn source) (consumes : t.Consumes u)
    (later : t.steps < u.steps) : t.peek.pos < u.peek.pos := by
  induction consumes with
  | refl => omega
  | @step t u more rest ih =>
    obtain ⟨next, _, peek, _, before, _, stands⟩ := stands.next more
    rw [← peek] at before
    have steps := rest.steps
    by_cases same : t.advance.steps < u.steps
    · exact Position.lt_of_lt_of_le before (Position.le_of_lt (ih stands same))
    · cases rest with
      | refl => exact before
      | step more rest =>
        have := rest.steps
        simp only [steps_advance] at *
        omega

end TokenStream

/-! ## Diagnostics along a run -/

namespace Diagnostic

/-- Whether two diagnostics stand at tokens of a source that are apart: from the first to the second
at least three tokens were consumed on the way to `t`. -/
structure Apart (source : List Char) (t : TokenStream) (d e : Diagnostic) : Prop where
  lt : d.pos < e.pos
  streams : ∃ u v : TokenStream, (TokenStream.ofSource source).Consumes u ∧ u.Consumes v ∧
    v.Consumes t ∧ u.peek.pos = d.pos ∧ v.peek.pos = e.pos ∧ u.steps + 3 ≤ v.steps

/-- The diagnostics that the lexer did not find. -/
def parsed (diagnostics : List Diagnostic) : List Diagnostic :=
  diagnostics.filter fun d => !d.problem.isLexical

@[simp] theorem parsed_append (first second : List Diagnostic) :
    parsed (first ++ second) = parsed first ++ parsed second := filter_append ..

private theorem parsed_singleton (d : Diagnostic) : parsed [d] = [] ∨ parsed [d] = [d] := by
  cases lexical : d.problem.isLexical <;> simp [parsed, lexical]

/-- Whether diagnostics that were recorded on the way to `t` come in the order of the source. -/
structure InOrder (source : List Char) (t : TokenStream) (diagnostics : List Diagnostic) :
    Prop where
  sorted : diagnostics.Pairwise fun d e => d.pos ≤ e.pos
  reached : ∀ d ∈ diagnostics, d.pos ≤ t.peek.pos
  placed : ∀ d ∈ parsed diagnostics, ∃ token ∈ Token.all source, token.pos = d.pos
  apart : (parsed diagnostics).IsChain (Apart source t)

variable {source : List Char} {t t' : TokenStream} {diagnostics : List Diagnostic}

theorem Apart.mono {d e : Diagnostic} (apart : Apart source t d e) (consumes : t.Consumes t') :
    Apart source t' d e := by
  obtain ⟨lt, u, v, reached, between, behind, rest⟩ := apart
  exact ⟨lt, u, v, reached, between, behind.trans consumes, rest⟩

/-- What is recorded at the lookahead token comes after everything else. -/
theorem InOrder.report (inOrder : InOrder source t diagnostics) (stands : t.StandsIn source)
    {d : Diagnostic} (here : t.peek.pos = d.pos)
    (apart : ∀ last ∈ (parsed diagnostics).getLast?, Apart source t last d) :
    InOrder source t (diagnostics ++ [d]) := by
  constructor
  · rw [pairwise_append]
    refine ⟨inOrder.sorted, pairwise_singleton _ _, ?_⟩
    simpa [← here] using inOrder.reached
  · simpa [← here, or_imp, forall_and, Position.le_refl] using inOrder.reached
  · rw [parsed_append]
    intro e member
    rcases mem_append.mp member with old | new
    · exact inOrder.placed e old
    · obtain rfl : e = d := mem_singleton.mp (mem_of_mem_filter new)
      exact ⟨t.peek, stands.peek_mem, here⟩
  · rw [parsed_append]
    rcases parsed_singleton d with none | one
    · simpa [none] using inOrder.apart
    · rw [one, isChain_append]
      refine ⟨inOrder.apart, .singleton d, ?_⟩
      simpa using apart

/-- The next step brings up nothing but what the lexer found. -/
theorem parsed_pending (stands : t.StandsIn source) (more : t.peek.kind ≠ .eof) :
    parsed t.pending = [] := by
  obtain ⟨next, pending, _, orderly, _⟩ := stands.next more
  simpa [parsed, pending] using orderly.lexical

/-- What the lexer found with the next token comes after everything else, and the token after it. -/
theorem InOrder.scan (inOrder : InOrder source t diagnostics) (stands : t.StandsIn source)
    (more : t.peek.kind ≠ .eof) : InOrder source t.advance (diagnostics ++ t.pending) := by
  obtain ⟨next, pending, peek, orderly, before, found, _⟩ := stands.next more
  have parsed_eq : parsed (diagnostics ++ t.pending) = parsed diagnostics := by
    rw [parsed_append, parsed_pending stands more, append_nil]
  constructor
  · rw [pending, pairwise_append]
    refine ⟨inOrder.sorted, orderly.sorted, ?_⟩
    intro d old e new
    exact Position.le_trans (inOrder.reached d old) (found e new)
  · intro d member
    rw [peek]
    rw [pending] at member
    rcases mem_append.mp member with old | new
    · exact Position.le_trans (inOrder.reached d old) (Position.le_of_lt before)
    · exact orderly.reached d new
  · rw [parsed_eq]
    exact inOrder.placed
  · rw [parsed_eq]
    exact inOrder.apart.imp fun _ _ apart => apart.mono (.step more .refl)

end Diagnostic

/-! ## Reporters along a run -/

namespace Reporter

open Diagnostic

/-- What is known of a reporter that goes along with a stream. Its distance counts no more tokens than
were consumed since the last report. -/
structure Tracks (source : List Char) (t : TokenStream) (r : Reporter) : Prop where
  stands : t.StandsIn source
  pos : r.pos = t.peek.pos
  spacing : r.spacing = 3
  inOrder : InOrder source t r.recorded.toList
  last : ∀ d ∈ (parsed r.recorded.toList).getLast?, ∃ u : TokenStream,
    u.StandsIn source ∧ u.Consumes t ∧ u.peek.pos = d.pos ∧ u.steps + r.distance ≤ t.steps

variable {source : List Char} {t t' : TokenStream} {r r' : Reporter}

section

variable (tracks : r.Tracks source t)

include tracks

theorem Tracks.hold : r.hold.Tracks source t := by
  refine { tracks with last := ?_ }
  intro d last
  obtain ⟨u, stands, consumes, pos, _⟩ := tracks.last d last
  exact ⟨u, stands, consumes, pos, consumes.steps⟩

/-- A report that comes after enough tokens is apart from the one before. -/
theorem Tracks.apart (spaced : r.spacing ≤ r.distance) (problem : Problem) :
    ∀ last ∈ (parsed r.recorded.toList).getLast?, Apart source t last ⟨r.pos, problem⟩ := by
  intro d last
  obtain ⟨u, stands, consumes, pos, steps⟩ := tracks.last d last
  have spacing := tracks.spacing
  have later : u.steps + 3 ≤ t.steps := by omega
  constructor
  · rw [← pos, tracks.pos]
    exact stands.pos_lt consumes (by omega)
  · exact ⟨u, t, stands.reached, consumes, .refl, pos, tracks.pos.symm, later⟩

theorem Tracks.report (problem : Problem) : (r.report problem).Tracks source t := by
  by_cases spaced : r.spacing ≤ r.distance
  · have recorded : (r.report problem).recorded.toList =
        r.recorded.toList ++ [⟨r.pos, problem⟩] := by simp [Reporter.report, spaced]
    have rest : (r.report problem).pos = r.pos ∧ (r.report problem).spacing = r.spacing ∧
        (r.report problem).distance = 0 := by simp [Reporter.report, spaced]
    obtain ⟨pos, spacing, distance⟩ := rest
    constructor
    · exact tracks.stands
    · rw [pos, tracks.pos]
    · rw [spacing, tracks.spacing]
    · rw [recorded]
      exact tracks.inOrder.report tracks.stands tracks.pos.symm (tracks.apart spaced problem)
    · rw [recorded, distance, parsed_append]
      intro d last
      rcases parsed_singleton ⟨r.pos, problem⟩ with none | one
      · rw [none, append_nil] at last
        exact tracks.hold.last d last
      · rw [one, getLast?_concat, Option.mem_some_iff] at last
        subst last
        exact ⟨t, tracks.stands, .refl, tracks.pos.symm, Nat.le_refl _⟩
  · have dropped : r.report problem = r.hold := if_neg spaced
    rw [dropped]
    exact tracks.hold

theorem Tracks.scan (more : t.peek.kind ≠ .eof) :
    ((t.pending.foldl record r).advance t.advance.peek.pos).Tracks source t.advance := by
  obtain ⟨next, _, _, _, _, _, stands⟩ := tracks.stands.next more
  obtain ⟨spacing, distance⟩ := foldl_record_frame t.pending r
  have recorded : (t.pending.foldl record r).recorded.toList =
      r.recorded.toList ++ t.pending := by simp [foldl_record_recorded]
  constructor
  · exact stands
  · rfl
  · exact spacing.trans tracks.spacing
  · simp only [advance, recorded]
    exact tracks.inOrder.scan tracks.stands more
  · simp only [advance, recorded, parsed_append, parsed_pending tracks.stands more,
      append_nil, distance, TokenStream.steps_advance]
    intro d last
    obtain ⟨u, stands, consumes, pos, steps⟩ := tracks.last d last
    exact ⟨u, stands, consumes.trans (.step more .refl), pos, by omega⟩

end

theorem Logs.tracks (logs : Logs t r t' r') (tracks : r.Tracks source t) : r'.Tracks source t' := by
  induction logs with
  | refl => exact tracks
  | report problem _ ih => exact ih (tracks.report problem)
  | hold _ ih => exact ih tracks.hold
  | scan more _ ih => exact ih (tracks.scan more)

end Reporter

/-- The reporter goes along with the stream from the first token on. -/
theorem Compile.scan_tracks {limits : Limits} {source : List Char} {first : Compiler}
    (scanned : scan (.start .standard limits source) = .ok ((), first)) :
    first.reporter.Tracks source first.tokens := by
  have valid : (Compiler.start .standard limits source).Valid :=
    Compiler.start_valid limits source fun _ => Nat.le_refl _
  obtain ⟨next, pending, peek, orderly, stands⟩ := TokenStream.ofSource_next valid.tokens
  have recorded : (next.diagnostics.foldl record .standard).recorded.toList =
      next.diagnostics := by simp [foldl_record_recorded, standard, spaced]
  have none : Diagnostic.parsed next.diagnostics = [] := by
    simpa [Diagnostic.parsed] using orderly.lexical
  cases scanned
  simp only [Compiler.start, pending]
  constructor
  · exact stands
  · rfl
  · exact (foldl_record_frame _ _).1
  · simp only [advance, recorded]
    exact ⟨orderly.sorted, peek ▸ orderly.reached, by simp [none], by simp [none]⟩
  · simp [advance, recorded, none]

/-- Where the end of the source is expected, it is reached or one more problem is reported. -/
theorem Compile.expect_eof_inOrder {source : List Char} {middle final : Compiler}
    (ended : expect .eof middle = .ok ((), final))
    (tracks : middle.reporter.Tracks source middle.tokens) :
    Diagnostic.InOrder source middle.tokens final.reporter.recorded.toList := by
  change (if middle.tokens.peek.kind = .eof then scan else report _ : Compile Unit) middle = _
    at ended
  split at ended
  · next finished =>
    have last := tracks.stands.wellFormed.upcoming_eof finished
    have rest : middle.tokens.rest = [] := map_eq_nil_iff.mp (cons.inj last).2
    have none : middle.tokens.pending = [] := by simp [TokenStream.pending, rest]
    cases ended
    simpa [none, advance] using tracks.inOrder
  · cases ended
    exact (tracks.report _).inOrder

/-- Diagnostics come in the order of the source. The lexical ones among them included, no diagnostic
stands before an earlier one. Every other one stands at a token. Between two successive ones of these
at least three tokens were consumed, so the second stands behind the first. -/
theorem Compilation.run_sourceOrder (limits : Limits) (source : List Char) :
    ∃ (code : CodeBuffer) (diagnostics : List Diagnostic) (middle : Compiler),
      Compilation.run limits source = .ok ⟨code, diagnostics⟩ ∧
      (do scan; program) (Compiler.start .standard limits source) =
        .ok ((), middle) ∧
      diagnostics.Pairwise (fun d e => d.pos ≤ e.pos) ∧
      (∀ d ∈ diagnostics, d.problem.isLexical = false →
        ∃ token ∈ Token.all source, token.pos = d.pos) ∧
      (diagnostics.filter fun d => !d.problem.isLexical).IsChain fun d e =>
        d.pos < e.pos ∧ ∃ t u : TokenStream, (TokenStream.ofSource source).Consumes t ∧
          t.Consumes u ∧ u.Consumes middle.tokens ∧ t.peek.pos = d.pos ∧ u.peek.pos = e.pos ∧
          t.steps + 3 ≤ u.steps := by
  have ready : Reporter.standard.recorded = #[] → Reporter.standard.spacing ≤ 3 :=
    fun _ => Nat.le_refl _
  obtain ⟨middle, final, front, ended, run, _⟩ := source_consumes limits source ready
  obtain ⟨_, first, scanned, program⟩ := run_bind front
  have tracks := scan_tracks scanned
  obtain ⟨_, repeats, _⟩ := program_reads tracks.stands.wellFormed _ _ program
  have inOrder := expect_eof_inOrder ended (repeats.logs.tracks tracks)
  refine ⟨final.code, _, middle, Compilation.runWith_of_source run, front, inOrder.sorted, ?_, ?_⟩
  · intro d member parsed
    exact inOrder.placed d (List.mem_filter.mpr ⟨member, by simp [parsed]⟩)
  · exact inOrder.apart.imp fun d e apart => ⟨apart.lt, apart.streams⟩

end MicroJava
