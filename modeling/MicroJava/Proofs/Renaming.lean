import MicroJava.Proofs.Coupling.Source

/-! # Other names, other places

What a source text compiles to depends on its tokens alone, and not on the identifiers that it
chooses. Two texts whose tokens correspond, up to a renaming of identifiers, have the same code. Their
diagnostics correspond too: each has the same wording for the other name and stands at the
corresponding token. This holds of wrong programs as well as of right ones.
-/

namespace MicroJava

open Token

/-! ## Renamings -/

/-- A renaming of identifiers that keeps them apart and leaves alone those that have a meaning in
every program. -/
structure Renaming where
  map : String → String
  identifier : ∀ {name}, isIdentifier name = true → isIdentifier (map name) = true
  injective : ∀ {name other}, isIdentifier name = true → isIdentifier other = true →
    map name = map other → name = other
  fixed : ∀ name ∈ ["int", "char", "null", "chr", "ord", "len", "main"], map name = name

namespace Renaming

/-- What any name becomes, also one that is no identifier. -/
def apply (ρ : Renaming) (name : String) : String := if isIdentifier name then ρ.map name else name

variable (ρ : Renaming)

private theorem apply_injective : Function.Injective ρ.apply := by
  intro name other same
  have kept (name : String) : isIdentifier (ρ.apply name) = isIdentifier name := by
    unfold apply
    split
    · next isName => rw [isName, ρ.identifier isName]
    · rfl
  have both : isIdentifier name = isIdentifier other := by rw [← kept name, same, kept]
  cases isName : isIdentifier name with
  | true =>
    rw [apply, apply, if_pos isName, if_pos (both ▸ isName)] at same
    exact ρ.injective isName (both ▸ isName) same
  | false =>
    rwa [apply, apply, if_neg (by simp [isName]), if_neg (by simp [← both, isName])] at same

private theorem apply_reserved : ∀ name ∈ reservedNames, ρ.apply name = name := by
  intro name reserved
  have listed : ∀ name ∈ reservedNames, isIdentifier name = true →
      name ∈ ["int", "char", "null", "chr", "ord", "len", "main"] := by decide
  unfold apply
  split
  · next isName => exact ρ.fixed name (listed name reserved isName)
  · rfl

/-- Tokens that are the same but for the name of an identifier. -/
structure Corresponds (token token' : Token) : Prop where
  kind : token'.kind = token.kind
  value : token'.value = token.value
  name : token.kind = .ident → token'.name = ρ.map token.name

instance (token token' : Token) : Decidable (ρ.Corresponds token token') :=
  decidable_of_iff (token'.kind = token.kind ∧ token'.value = token.value ∧
      (token.kind = .ident → token'.name = ρ.map token.name))
    ⟨fun ⟨kind, value, name⟩ => ⟨kind, value, name⟩, fun ⟨kind, value, name⟩ => ⟨kind, value, name⟩⟩

/-- What a token of a text says determines what the corresponding token says. -/
theorem Corresponds.lexeme {ρ : Renaming} {source : List Char} {token token' : Token}
    (corresponds : ρ.Corresponds token token') (member : token ∈ Token.all source) :
    token'.lexeme = token.lexeme.rename ρ.apply := by
  obtain ⟨kind, value, name⟩ := corresponds
  have identifier (name : String) (named : token.lexeme = .ident name) :=
    Token.all_identifier member named
  obtain ⟨lexeme, pos⟩ := token
  obtain ⟨lexeme', pos'⟩ := token'
  simp only [Token.kind, Token.value, Token.name] at kind value name identifier ⊢
  cases lexeme <;> cases lexeme' <;> simp_all [Lexeme.kind, Lexeme.value, Lexeme.name,
    Lexeme.rename, Renaming.apply]

end Renaming

/-! ## Corresponding diagnostics -/

/-- Tokens that stand at the same index in two texts. -/
def Token.Together (source source' : List Char) (token token' : Token) : Prop :=
  ∃ i : Nat, (Token.all source)[i]? = some token ∧ (Token.all source')[i]? = some token'

/-- Whether a diagnostic says the same about the other name, at the corresponding token. -/
def Diagnostic.Corresponds (ρ : Renaming) (source source' : List Char) (d d' : Diagnostic) : Prop :=
  d'.problem = d.problem.rename ρ.apply ∧
    ∃ token token', Token.Together source source' token token' ∧ d.pos = token.pos ∧
      d'.pos = token'.pos

/-- Reporters that drop the same reports, and whose diagnostics correspond. -/
structure Reporter.Corresponds (ρ : Renaming) (source source' : List Char) (r r' : Reporter) :
    Prop where
  spacing : r'.spacing = r.spacing
  distance : r'.distance = r.distance
  pos : ∃ token token', Token.Together source source' token token' ∧ r.pos = token.pos ∧
    r'.pos = token'.pos
  recorded : List.Forall₂ (Diagnostic.Corresponds ρ source source') r.recorded.toList
    r'.recorded.toList

theorem Reporter.Corresponds.report {ρ : Renaming} {source source' : List Char} {r r' : Reporter}
    (corresponds : Corresponds ρ source source' r r') (p : Problem) :
    Corresponds ρ source source' (r.report p) (r'.report (p.rename ρ.apply)) := by
  unfold Reporter.report
  rw [corresponds.spacing, corresponds.distance]
  split
  · refine { corresponds with spacing := rfl, distance := rfl, recorded := ?_ }
    simp only [Array.toList_push]
    exact List.rel_append corresponds.recorded (.cons ⟨rfl, corresponds.pos⟩ .nil)
  · exact { corresponds with spacing := rfl, distance := rfl }

/-- The compilations of two texts without lexical problems. -/
def Coupling.ofRenaming (ρ : Renaming) (limits : Limits) (source source' : List Char) : Coupling where
  rename := ρ.apply
  injective := ρ.apply_injective
  fixed := ρ.apply_reserved
  limits := limits
  limits' := limits
  Tokens := fun token token' => token'.lexeme = token.lexeme.rename ρ.apply ∧
    Token.Together source source' token token'
  lexeme := And.left
  Found := fun found found' => found = [] ∧ found' = []
  found_nil := ⟨rfl, rfl⟩
  Reporters := Reporter.Corresponds ρ source source'
  Warned := fun _ => True
  report := fun p _ corresponds => ⟨corresponds.report p, trivial⟩
  check := by
    intro r r' limit count p corresponds
    split
    · exact corresponds.report _
    · exact corresponds
  advance := by
    rintro r r' token token' _ _ corresponds ⟨_, together⟩ ⟨rfl, rfl⟩
    exact { corresponds with
      distance := congrArg (· + 1) corresponds.distance
      pos := ⟨token, token', together, rfl, rfl⟩ }
  hold := fun corresponds _ => { corresponds with distance := rfl }
  warned := fun _ _ _ => trivial

section

variable {ρ : Renaming} {source source' : List Char} (limits : Limits)
  (clean : Diagnostic.lexical source = []) (clean' : Diagnostic.lexical source' = [])
  (tokens : List.Forall₂ ρ.Corresponds (Token.all source) (Token.all source'))
include clean clean' tokens

/-- The tokens of the two texts stand for each other, one by one. -/
theorem Coupling.ofRenaming_scanned :
    List.Forall₂ (ofRenaming ρ limits source source').Scanned (Scanned.all source)
      (Scanned.all source') := by
  have bare {text : List Char} (none : Diagnostic.lexical text = []) :
      ∀ next ∈ Scanned.all text, next.diagnostics = [] := List.flatMap_eq_nil_iff.mp none
  obtain ⟨length, each⟩ := List.forall₂_iff_get.mp tokens
  simp only [all, List.length_map] at length
  refine List.forall₂_iff_get.mpr ⟨length, fun i inside inside' => ⟨⟨?_, i, ?_, ?_⟩, ?_, ?_⟩⟩
  · have corresponds := each i (by simpa [all] using inside) (by simpa [all] using inside')
    have member := List.get_mem (all source) ⟨i, by simpa [all] using inside⟩
    simpa [all] using corresponds.lexeme member
  · simp [all, List.getElem?_eq_getElem inside]
  · simp [all, List.getElem?_eq_getElem inside']
  · exact bare clean _ (List.get_mem _ _)
  · exact bare clean' _ (List.get_mem _ _)

/-- The compilations of the two texts correspond after the first token. -/
theorem Coupling.ofRenaming_start (reporter : Reporter) (first : Compiler)
    (fresh : reporter.recorded = #[])
    (scanned : Compile.scan (.start reporter limits source) = .ok ((), first)) :
    ∃ first', Compile.scan (.start reporter limits source') = .ok ((), first') ∧
      (ofRenaming ρ limits.clamped source source').States first first' := by
  refine Coupling.start_couples rfl rfl (ofRenaming_scanned limits.clamped clean clean' tokens) ?_
    first scanned
  rintro next next' ⟨token, found, found'⟩
  rw [found, found']
  exact ⟨rfl, rfl, ⟨_, _, token.2, rfl, rfl⟩, by simp [Reporter.advance, fresh]⟩

end

/-- Compiling depends on a text only through its tokens, and not on the names that it chooses. Two
texts without lexical problems whose tokens correspond have the same code, whether or not they have
problems. Their diagnostics correspond one by one: the same problem about the other name, each at
the place of the corresponding token. -/
theorem Compilation.run_renamed (ρ : Renaming) (limits : Limits) {source source' : List Char}
    (clean : Diagnostic.lexical source = []) (clean' : Diagnostic.lexical source' = [])
    (tokens : List.Forall₂ ρ.Corresponds (Token.all source) (Token.all source')) :
    ∃ (code : CodeBuffer) (ds ds' : List Diagnostic),
      Compilation.run limits source = .ok ⟨code, ds⟩ ∧
      Compilation.run limits source' = .ok ⟨code, ds'⟩ ∧
      List.Forall₂ (Diagnostic.Corresponds ρ source source') ds ds' := by
  obtain ⟨s, run, result, _⟩ := Compilation.run_yields limits source
  obtain ⟨s', run', states⟩ := Coupling.source_couples
    (fun first => Coupling.ofRenaming_start limits clean clean' tokens .standard first rfl) run
  refine ⟨s.code, _, _, result, ?_, states.reporter.recorded⟩
  rw [← states.code]
  exact Compilation.runWith_of_source run'

/-- The renaming that exchanges two names. -/
def Renaming.exchange : Renaming where
  map name := if name = "a" then "b" else if name = "b" then "a" else name
  identifier := by
    intro name isName
    split
    · decide
    · split
      · decide
      · exact isName
  injective := by
    intro name other _ _ same
    grind
  fixed := by decide

/-- A text that uses a name it does not declare. -/
def undeclaredSource : List Char := "program P int a; \x7b void main() \x7b a = b; \x7d \x7d".toList

/-- The same text with the two names exchanged, on two lines. -/
def exchangedSource : List Char := "program P\nint b; \x7b void main()\x7bb=a;\x7d\x7d".toList

theorem Compilation.run_renamed_exchange :
    Diagnostic.lexical undeclaredSource = [] ∧ Diagnostic.lexical exchangedSource = [] ∧
    List.Forall₂ Renaming.exchange.Corresponds (Token.all undeclaredSource)
      (Token.all exchangedSource) ∧
    ∃ (code : CodeBuffer) (ds ds' : List Diagnostic),
      Compilation.run .supported undeclaredSource = .ok ⟨code, ds⟩ ∧
      Compilation.run .supported exchangedSource = .ok ⟨code, ds'⟩ ∧
      ds = [⟨⟨1, 39⟩, .semantic (.notFound "b")⟩] ∧
      List.Forall₂ (Diagnostic.Corresponds .exchange undeclaredSource exchangedSource) ds ds' := by
  have clean : Diagnostic.lexical undeclaredSource = [] := by decide +kernel
  have clean' : Diagnostic.lexical exchangedSource = [] := by decide +kernel
  have tokens : List.Forall₂ Renaming.exchange.Corresponds (Token.all undeclaredSource)
      (Token.all exchangedSource) := by decide +kernel
  obtain ⟨code, ds, ds', run, run', corresponds⟩ :=
    Compilation.run_renamed .exchange .supported clean clean' tokens
  have found : (Compilation.run .supported undeclaredSource).map (·.diagnostics) =
      .ok [⟨⟨1, 39⟩, .semantic (.notFound "b")⟩] := by decide +kernel
  rw [run] at found
  exact ⟨clean, clean', tokens, code, ds, ds', run, run', Except.ok.inj found, corresponds⟩

end MicroJava
