import MicroJava.Proofs.Run.Basic

/-! # Compiling expressions

Every action for a part of an expression succeeds in every valid state and adds code without jumps.
If nothing was reported, the lexemes it consumed are those of a phrase, and the phrase compiles to
just the code that was added. Each lemma takes this for the expressions nested in the part, and an
induction on the levels closes the circle.
-/

namespace MicroJava

open Syntax Operand Factor

/-- The effect of compiling a phrase whose code has no jumps. -/
def Compiler.Translates {φ : Type} (s s' : Compiler) (lexemes : φ → List Lexeme)
    (rule : SymbolTable → φ → List Item → SymbolTable → Prop) : Prop :=
  ∃ items, s.Extends s' items ∧ Items.Straight items ∧
    (s'.Clean → s.Clean ∧ ∃ e, s.tokens.upcoming = lexemes e ++ s'.tokens.upcoming ∧
      rule s.table e items s'.table)

namespace Compiler.Translates

variable {φ ψ : Type} {s s1 s2 s3 : Compiler} {lexemes : φ → List Lexeme}
  {lexemes' : ψ → List Lexeme} {rule : SymbolTable → φ → List Item → SymbolTable → Prop}
  {rule' : SymbolTable → ψ → List Item → SymbolTable → Prop} {front back : List Item}
  {read read' : List Lexeme} {p q : Prop}

section

variable (phrase : s.Translates s1 lexemes rule)

include phrase

theorem extension : ∃ items, s.Extends s1 items :=
  phrase.imp fun _ => And.left

theorem valid : s1.Valid :=
  phrase.extension.elim fun _ => (·.valid)

theorem contains (id : EntityId) : s1.table.contains id = s.table.contains id :=
  phrase.extension.elim fun _ => (·.contains id)

theorem contains_type {a : TypeId} (inside : s.table.types.contains a = true) :
    s1.table.types.contains a = true :=
  phrase.extension.elim fun _ => (·.contains_type inside)

theorem knows {x : Operand} (known : s.table.Knows x) : s1.table.Knows x :=
  phrase.extension.elim fun _ => (·.knows known)

end

/-- After a problem nothing is said about phrases. -/
theorem ofProblem (does : s.Does s1 [] read p) (problem : ¬ s1.Clean) :
    s.Translates s1 lexemes rule :=
  ⟨[], does.toExtends, by simp, fun clean => absurd clean problem⟩

/-- A phrase that needs no others. -/
theorem ofDoes (does : s.Does s1 front read p) (straight : Items.Straight front) (e : φ)
    (written : lexemes e = read) (holds : p → rule s.table e front s1.table) :
    s.Translates s1 lexemes rule := by
  refine ⟨front, does.toExtends, straight, fun clean => ?_⟩
  obtain ⟨clean, reads, checked⟩ := does.accepted clean
  exact ⟨clean, e, by rw [reads, written], holds checked⟩

theorem ofStep (does : s.Does s1 front read p) (straight : Items.Straight front) :
    s.Translates s1 (fun _ : Unit => read) fun _ _ items _ => items = front ∧ p :=
  ofDoes does straight () rfl fun holds => ⟨rfl, holds⟩

/-- The same phrase in other words. -/
theorem as (phrase : s.Translates s1 lexemes rule) (make : φ → ψ)
    (written : ∀ e, lexemes' (make e) = lexemes e)
    (weaker : ∀ e items, rule s.table e items s1.table → rule' s.table (make e) items s1.table) :
    s.Translates s1 lexemes' rule' := by
  obtain ⟨items, extension, straight, accepted⟩ := phrase
  refine ⟨items, extension, straight, fun clean => ?_⟩
  obtain ⟨clean, e, reads, holds⟩ := accepted clean
  exact ⟨clean, make e, by rw [reads, written], weaker e items holds⟩

/-- A phrase and another one behind it. -/
theorem and (first : s.Translates s1 lexemes rule) (second : s1.Translates s2 lexemes' rule') :
    s.Translates s2 (fun e : φ × ψ => lexemes e.1 ++ lexemes' e.2) fun t e items t' =>
      ∃ front back, items = front ++ back ∧ rule t e.1 front s1.table ∧
        rule' s1.table e.2 back t' := by
  obtain ⟨front, extends1, straight1, accepted1⟩ := first
  obtain ⟨back, extends2, straight2, accepted2⟩ := second
  refine ⟨_, extends1.trans extends2, by simp [straight1, straight2], fun clean => ?_⟩
  obtain ⟨clean, e', reads2, holds2⟩ := accepted2 clean
  obtain ⟨clean, e, reads1, holds1⟩ := accepted1 clean
  exact ⟨clean, (e, e'), by simp [reads1, reads2], front, back, rfl, holds1, holds2⟩

/-- A phrase with steps before and behind it. -/
theorem between (phrase : s1.Translates s2 lexemes rule) (before : s.Does s1 front read p)
    (behind : s2.Does s3 back read' q) (straight : Items.Straight (front ++ back)) :
    s.Translates s3 (read ++ lexemes · ++ read') fun t e items t' =>
      ∃ middle, items = front ++ middle ++ back ∧ p ∧ q ∧ rule t e middle t' := by
  obtain ⟨middle, extension, straight', accepted⟩ := phrase
  refine ⟨_, (before.toExtends.trans extension).trans behind.toExtends, ?_, fun clean => ?_⟩
  · simp_all
  · obtain ⟨clean, reads2, holds2⟩ := behind.accepted clean
    obtain ⟨clean, e, reads1, holds⟩ := accepted clean
    obtain ⟨clean, reads, holds1⟩ := before.accepted clean
    refine ⟨clean, e, by simp [reads, reads1, reads2], middle, rfl, holds1, holds2, ?_⟩
    rw [behind.table, ← before.table]
    exact holds

theorem before (phrase : s.Translates s1 lexemes rule) (valid : s.Valid)
    (behind : s1.Does s2 back read q) (straight : Items.Straight back) :
    s.Translates s2 (lexemes · ++ read) fun t e items t' =>
      ∃ middle, items = middle ++ back ∧ q ∧ rule t e middle t' :=
  (phrase.between (.refl valid trivial) behind straight).as id (fun _ => rfl)
    fun _ _ ⟨middle, same, _, holds⟩ => ⟨middle, same, holds⟩

theorem after (phrase : s1.Translates s2 lexemes rule) (before : s.Does s1 front read p)
    (straight : Items.Straight front) :
    s.Translates s2 (read ++ lexemes ·) fun t e items t' =>
      ∃ middle, items = front ++ middle ∧ p ∧ rule t e middle t' :=
  (phrase.between before (.refl phrase.valid trivial) (by simpa using straight)).as id (by simp)
    fun _ _ ⟨middle, same, holds, _, rest⟩ => ⟨middle, by simpa using same, holds, rest⟩

end Compiler.Translates

namespace Compile

variable {φ : Type} {s : Compiler} {x : Operand} {nested : Compile Operand}
  {rule : Translation Expr} {β : Type} {parameter : Option EntityId} {post : β → Compiler → Prop}

/-- Whether an action compiles phrases as a relation says. -/
def Realizes (m : Compile Operand) (lexemes : φ → List Lexeme) (rule : Translation φ) : Prop :=
  ∀ s, s.Valid → Ensures m s fun x s' => s'.table.Knows x ∧
    s.Translates s' lexemes fun t e items t' => rule t e items x t'

/-! ## Designators -/

theorem operandOf_does (valid : s.Valid) (name : String) :
    Ensures (operandOf name) s fun x s' => s'.table.Knows x ∧
      s.Does s' [] [] (∃ id, s.table.lookup? name = some id ∧
        kindOf (s.table.entity id) ≠ .nothing ∧
        x = (ofEntity id (s.table.entity id)).result) := by
  refine .bind (find_does valid name) ?_
  rintro id s1 ⟨inside, found⟩
  refine .entityOf (by rwa [found.contains]) ?_
  refine .bind (reportAll_does found.valid _) fun _ s2 reported => ?_
  refine .pure ⟨?_, (found.trans reported).imp ?_⟩
  · rw [reported.table, found.table]
    refine ⟨valid.table.contains_type inside, ?_⟩
    intro other isMethod
    simp only at isMethod
    split at isMethod <;> simp_all
  · rintro ⟨found', none⟩
    refine ⟨id, found', ?_, by rw [found.table]; rfl⟩
    intro denotes
    simp [found.table, denotes] at none

/-- What a number of selectors do to an operand. -/
def Selects (rule : Translation Expr) (x : Operand) (s : Compiler) (y : Operand) (s' : Compiler) :
    Prop :=
  s'.table.Knows y ∧
    s.Translates s' Selector.listLexemes fun t selectors items t' =>
      Selector.Apply rule t x selectors items y t'

theorem fieldSelector_selects (valid : s.Valid) (known : s.table.Knows x)
    (period : s.tokens.peek.kind = .mark .period) :
    Ensures (fieldSelector x) s fun y s1 =>
      (s1.Valid ∧ s1.table.Knows y) ∧
        ∀ z s2, Selects rule y s1 z s2 → Selects rule x s z s2 := by
  refine .askType known.type ?_
  refine .check valid fun s1 isClass => ?_
  refine .bind (scan_mark isClass.valid fun clean => (isClass.peek_kind clean).trans period)
    fun _ s2 dot => ?_
  refine .loadsValue dot.valid fun s3 loaded => ?_
  refine .bind (expectName_does loaded.valid) fun name s4 named => ?_
  have step := ((isClass.trans dot).trans loaded).trans named
  refine .requireType (by rw [step.table]; exact known.type) ?_
  refine .bind (findField_does step.valid name _) ?_
  rintro id s5 ⟨inside, found⟩
  rw [step.table] at inside found
  have step : s.Does s5 x.loadItems [.mark .period, .ident name]
      (s.table.types.isClass x.type = true ∧ x.isValueless = false ∧
        s.table.search (s.table.types.fields x.type).reverse name = some id) := by
    refine (step.trans found).as (by simp) rfl ?_
    rintro ⟨⟨⟨⟨isClass, _⟩, valued⟩, _⟩, found⟩
    exact ⟨by simpa using isClass, valued, found⟩
  refine .entityOf (by rw [step.contains]; exact inside) (.pure ⟨⟨step.valid, ?_⟩, ?_⟩)
  · rw [step.table]
    exact ⟨valid.table.contains_type inside, known.method⟩
  · rintro z s6 ⟨knownZ, rest⟩
    refine ⟨knownZ, (rest.after step (by simp)).as (.field name :: ·)
      (by simp [Selector.listLexemes, Selector.lexemes]) ?_⟩
    rintro rest _ ⟨_, rfl, ⟨isClass, valued, found⟩, selected⟩
    rw [step.table] at selected
    exact .field isClass valued found selected

theorem indexSelector_selects (inner : Realizes nested Expr.lexemes rule) (valid : s.Valid)
    (known : s.table.Knows x) (bracket : s.tokens.peek.kind = .mark .leftBracket) :
    Ensures (indexSelector nested x) s fun y s1 =>
      (s1.Valid ∧ s1.table.Knows y) ∧
        ∀ z s2, Selects rule y s1 z s2 → Selects rule x s z s2 := by
  refine .check valid fun s1 storable => ?_
  refine .bind
    (scan_mark storable.valid fun clean => (storable.peek_kind clean).trans bracket)
    fun _ s2 opened => ?_
  refine .loadsValue opened.valid fun s3 loaded => ?_
  have front : s.Does s3 x.loadItems [.mark .leftBracket] (x.isVariable = true) :=
    ((storable.trans opened).trans loaded).as (by simp) rfl (by simp_all)
  refine .bind (inner s3 front.valid) ?_
  rintro index s4 ⟨_, value⟩
  have known4 := value.knows (front.knows known)
  refine .check value.valid fun s5 int => ?_
  refine .loadsValue int.valid fun s6 loaded' => ?_
  have back := int.trans loaded'
  refine .askType (by rw [back.table]; exact known4.type) ?_
  refine .check back.valid fun s7 isArray => ?_
  rw [back.table] at isArray
  have back := back.trans isArray
  refine .askType (by rw [back.table]; exact known4.type) ?_
  rw [back.table]
  refine .expectMark back.valid fun s8 closed => ?_
  have back : s4.Does s8 index.loadItems [.mark .rightBracket] (index.type = .int ∧
      index.isValueless = false ∧ s4.table.types.isArray x.type = true) :=
    (back.trans closed).as (by simp) rfl (by simp_all)
  refine .pure ⟨⟨back.valid, ?_⟩, ?_⟩
  · rw [back.table]
    exact ⟨value.valid.table.contains_elem _, known4.method⟩
  · rintro z s9 ⟨knownZ, rest⟩
    refine ⟨knownZ, ((value.between front back (by simp)).and rest).as (fun e => .index e.1 :: e.2)
      (by simp [Selector.listLexemes, Selector.lexemes]) ?_⟩
    rintro ⟨e, rest⟩ _
      ⟨_, _, rfl, ⟨_, rfl, storable, ⟨int, valued, isArray⟩, value⟩, selected⟩
    rw [back.table] at value selected
    exact .index storable value int valued isArray selected

theorem designator_realizes (inner : Realizes nested Expr.lexemes rule) :
    Realizes (designator nested) Designator.lexemes (Designator.Compiles rule) := by
  intro s valid
  refine .bind (expectName_does valid) fun name s1 named => ?_
  refine .bind (operandOf_does named.valid name) ?_
  rintro x s2 ⟨known, found⟩
  rw [named.table] at found
  have front := named.trans found
  refine (repeatWhile_ensures (i := fun x s => s.Valid ∧ s.table.Knows x)
    (r := Selects rule) ?stop ?step ⟨front.valid, known⟩).mono ?result
  case stop =>
    rintro x s ⟨valid, known⟩
    exact ⟨known, .ofDoes (.refl valid trivial) (by simp) [] rfl fun _ => .nil⟩
  case step =>
    rintro x s ⟨valid, known⟩ more
    refine .lookahead ?_
    split
    · next period => exact fieldSelector_selects valid known period
    · next other =>
      refine indexSelector_selects inner valid known ?_
      simpa [startsSelector, other] using more
  case result =>
    rintro y s3 ⟨knownY, selected⟩
    refine ⟨knownY, (selected.after front (by simp)).as (.mk name) (by simp [Designator.lexemes]) ?_⟩
    rintro selectors _ ⟨_, rfl, ⟨_, id, means, denotes, rfl⟩, selected⟩
    exact .mk means denotes selected

/-! ## Calls -/

theorem emitCall_does (valid : s.Valid) (x : Operand) :
    Ensures (emitCall x) s fun _ s' => s.Does s' (x.method.elim [] x.callItems) [] True := by
  unfold emitCall
  cases method : x.method with
  | none => exact .pure (.refl valid trivial)
  | some id =>
    simp only [Option.elim_some, callItems]
    split
    · exact .pure (.refl valid trivial)
    · split
      · exact emit_does valid _
      · have same : x.call s.code = { result := s.code.assemble [.call x.adr], problems := _ } :=
          x.call_eq s.code
        exact (codeReported_does valid same (by simp)).mono fun _ _ does => does.imp fun _ => trivial

/-- Compiling expressions between commas, if there are any. The relation `r` is built up from the
last expression to the first. -/
theorem expressionList_ensures {α : Type} {item : α → Compile α} {i : α → Compiler → Prop}
    {r : α → SymbolTable → List Expr → List Item → α → SymbolTable → Prop}
    (sound : ∀ a s, i a s → s.Valid)
    (comma : ∀ a s s', i a s → s.Does s' [] [.mark .comma] True → i a s')
    (nil : ∀ a t, r a t [] [] a t)
    (step : ∀ a s, i a s → Ensures (item a) s fun a1 s1 => i a1 s1 ∧
      s.Translates s1 Expr.lexemes fun t e front t1 => ∀ rest back a2 t2,
        r a1 t1 rest back a2 t2 → r a t (e :: rest) (front ++ back) a2 t2) {a : α} (start : i a s) :
    Ensures (expressionList item a) s fun a' s' =>
      s.Translates s' Expr.listLexemes fun t es items t' => r a t es items a' t' := by
  have stop {lexemes : List Expr → List Lexeme} (none : lexemes [] = []) (a : α) (s : Compiler)
      (holds : i a s) : s.Translates s lexemes fun t es items t' => r a t es items a t' :=
    .ofDoes (.refl (sound a s holds) trivial) (by simp) [] none fun _ => nil a _
  refine .lookahead ?_
  split
  · refine .bind (step a s start) ?_
    rintro a1 s1 ⟨start1, first⟩
    refine (repeatWhile_ensures (i := i)
      (r := fun a s a' s' => s.Translates s' Expr.tailLexemes fun t es items t' => r a t es items a' t')
      (stop rfl) ?next start1).mono ?result
    case next =>
      intro a s holds more
      refine .bind (scan_mark (sound a s holds) fun _ => by simpa using more)
        fun _ s1 scanned => ?_
      refine (step a s1 (comma a s s1 holds scanned)).mono fun a2 s2 ⟨holds2, next⟩ => ⟨holds2, ?_⟩
      intro a3 s3 rest
      refine ((next.after scanned (by simp)).and rest).as (fun e => e.1 :: e.2)
        (by simp [Expr.tailLexemes]) ?_
      rintro ⟨e, rest⟩ _ ⟨_, _, rfl, ⟨_, rfl, _, extend⟩, holds3⟩
      exact extend rest _ _ _ holds3
    case result =>
      intro a2 s2 rest
      refine (first.and rest).as (fun e => e.1 :: e.2) (by simp [Expr.listLexemes]) ?_
      rintro ⟨e, rest⟩ _ ⟨_, _, rfl, extend, holds2⟩
      exact extend rest _ _ _ holds2
  · exact .pure (stop rfl a s start)

/-- What arguments do to the number of arguments and the parameters left. -/
def Passes (rule : Translation Expr) (a : Nat × List EntityId) (t : SymbolTable) (es : List Expr)
    (items : List Item) (a' : Nat × List EntityId) (t' : SymbolTable) : Prop :=
  a'.1 = a.1 + es.length ∧
    (es.length ≤ a.2.length → Expr.Fit rule t (a.2.take es.length) es items t')

theorem argument_passes (inner : Realizes nested Expr.lexemes rule) (a : Nat × List EntityId)
    (valid : s.Valid) (known : ∀ id ∈ a.2, s.table.contains id = true) :
    Ensures (argument nested a) s fun a1 s1 =>
      (s1.Valid ∧ ∀ id ∈ a1.2, s1.table.contains id = true) ∧
      s.Translates s1 Expr.lexemes fun t e front t1 => ∀ rest back a2 t2,
        Passes rule a1 t1 rest back a2 t2 → Passes rule a t (e :: rest) (front ++ back) a2 t2 := by
  obtain ⟨count, parameters⟩ := a
  refine .bind (inner s valid) ?_
  rintro x s1 ⟨knownX, value⟩
  refine .loadsValue value.valid fun s2 loaded => ?_
  cases parameters with
  | nil =>
    refine .pure ⟨⟨loaded.valid, by simp⟩, (value.before valid loaded (by simp)).as id
      (by simp) ?_⟩
    rintro e _ _ rest back a2 t2 ⟨counts, _⟩
    refine ⟨?_, by simp⟩
    simp only [counts, List.length_cons]
    omega
  | cons parameter parameters =>
    have knownParameter : s2.table.contains parameter = true := by
      rw [loaded.contains, value.contains]
      exact known parameter (by simp)
    refine .entityOf knownParameter ?_
    refine .assignable (loaded.contains_type knownX.type)
      (loaded.valid.table.contains_type knownParameter) ?_
    rw [loaded.table]
    refine .check loaded.valid fun s3 fits => ?_
    have back := loaded.trans fits
    refine .pure ⟨⟨back.valid, fun id member => ?_⟩, (value.before valid back (by simp)).as id
      (by simp) ?_⟩
    · rw [back.contains, value.contains]
      exact known id (List.mem_cons_of_mem _ member)
    · rintro e _ ⟨_, rfl, ⟨valued, fits⟩, compiles⟩ rest items' a2 t2 ⟨counts, fit⟩
      refine ⟨?_, fun enough => ?_⟩
      · simp only [counts, List.length_cons]
        omega
      · rw [← back.table] at fits
        have more := fit (by simpa using enough)
        simpa using Expr.Fit.cons compiles valued (by simpa using fits) more

theorem argumentList_passes (inner : Realizes nested Expr.lexemes rule) (valid : s.Valid)
    {parameters : List EntityId} (known : ∀ id ∈ parameters, s.table.contains id = true) :
    Ensures (expressionList (argument nested) (0, parameters)) s fun a' s' =>
      s.Translates s' Expr.listLexemes fun t es items t' =>
        Passes rule (0, parameters) t es items a' t' := by
  refine expressionList_ensures (i := fun a s => s.Valid ∧ ∀ id ∈ a.2, s.table.contains id = true)
    (fun a s => And.left) ?_ (fun a t => ⟨rfl, fun _ => by simpa using .nil⟩)
    (fun a s holds => argument_passes inner a holds.1 holds.2) ⟨valid, known⟩
  rintro a s s' ⟨_, known⟩ does
  refine ⟨does.valid, fun id member => ?_⟩
  rw [does.contains]
  exact known id member

/-- What elements of an array do to the number of elements and their type. -/
def Fills (rule : Translation Expr) (a : Nat × TypeId) (t : SymbolTable) (es : List Expr)
    (items : List Item) (a' : Nat × TypeId) (t' : SymbolTable) : Prop :=
  a'.1 = a.1 + es.length ∧ Expr.Fill rule t a.1 a.2 es items t'

section

variable (inner : Realizes nested Expr.lexemes rule)

include inner

theorem varArgument_fills (a : Nat × TypeId) (valid : s.Valid)
    (known : s.table.types.contains a.2 = true) :
    Ensures (varArgument nested a) s fun a1 s1 =>
      (s1.Valid ∧ s1.table.types.contains a1.2 = true) ∧
      s.Translates s1 Expr.lexemes fun t e front t1 => ∀ rest back a2 t2,
        Fills rule a1 t1 rest back a2 t2 → Fills rule a t (e :: rest) (front ++ back) a2 t2 := by
  obtain ⟨count, elem⟩ := a
  refine .bind (emit_does valid ⟨rfl, rfl⟩) fun _ s1 doubled => ?_
  refine .bind (loadConst_does doubled.valid _) fun _ s2 index => ?_
  have front := doubled.trans index
  refine .bind (inner s2 front.valid) ?_
  rintro x s3 ⟨knownX, value⟩
  have knownElem := value.contains_type (front.contains_type known)
  have knownType : s3.table.types.contains (if elem = .none then x.type else elem) = true := by
    split
    · exact knownX.type
    · exact knownElem
  refine .assignable knownX.type knownType ?_
  refine .check value.valid fun s4 fits => ?_
  refine .loadsValue fits.valid fun s5 loaded => ?_
  have back := fits.trans loaded
  refine .bind (storeElement_does back.valid _) fun _ s6 stored => ?_
  have back := back.trans stored
  refine .pure ⟨⟨back.valid, back.contains_type knownType⟩,
    (value.between front back (by simp)).as id (by simp) ?_⟩
  rintro e _ ⟨_, rfl, _, ⟨⟨fits, valued⟩, _⟩, compiles⟩ rest items a2 t2 ⟨counts, fill⟩
  constructor
  · simp only [counts, List.length_cons]
    omega
  · rw [← back.table] at fits
    simpa using Expr.Fill.cons compiles rfl (by simpa using fits) valued fill

theorem varArgumentList_fills (valid : s.Valid) {elem : TypeId}
    (known : s.table.types.contains elem = true) :
    Ensures (expressionList (varArgument nested) (0, elem)) s fun a' s' =>
      s.Translates s' Expr.listLexemes fun t es items t' =>
        Fills rule (0, elem) t es items a' t' := by
  refine expressionList_ensures (i := fun a s => s.Valid ∧ s.table.types.contains a.2 = true)
    (fun a s => And.left) ?_ (fun a t => ⟨rfl, .nil⟩)
    (fun a s holds => varArgument_fills inner a holds.1 holds.2) ⟨valid, known⟩
  rintro a s s' ⟨_, known⟩ does
  exact ⟨does.valid, does.contains_type known⟩

theorem varArguments_fills (valid : s.Valid) {elem : TypeId}
    (known : s.table.types.contains elem = true) :
    Ensures (varArguments nested elem) s fun _ s' =>
      s.Translates s' VarArguments.lexemes fun t extra items t' => ∃ size values back,
        extra = .mk size values ∧ items = [.const size.toInt, .newArray elem] ++ back ∧
        Expr.Fill rule t 0 elem values back t' ∧ (values.length : Int) = size.toInt := by
  refine .expectMark valid fun s1 hash => ?_
  refine .bind (expect_number hash.valid) fun _ s2 number => ?_
  have front := hash.trans number
  refine .previous ?_
  refine .bind (loadConst_does front.valid _) fun _ s3 size => ?_
  refine .bind (newArray_does size.valid _) fun _ s4 array => ?_
  have front := (front.trans size).trans array
  refine .bind (varArgumentList_fills inner front.valid (front.contains_type known)) ?_
  rintro ⟨count, last⟩ s5 filled
  refine .check filled.valid fun s6 notMore => ?_
  refine (reportIf_does notMore.valid _ _).mono fun _ s7 notLess => ?_
  have back := notMore.trans notLess
  refine (filled.between front back (by simp)).as (.mk s2.tokens.prev.value)
    (by simp [VarArguments.lexemes]) ?_
  rintro values _ ⟨items, rfl, _, ⟨notMore, notLess⟩, counts, fill⟩
  refine ⟨_, values, items, rfl, by simp, fill, ?_⟩
  simp only [decide_eq_false_iff_not] at notMore notLess
  simp only at counts
  omega

end

/-- The parameters of a method, if there is one. -/
def parametersOf (t : SymbolTable) (method : Option EntityId) : List EntityId × Option EntityId :=
  (method.map fun id => splitParameters (t.entity id)).getD ([], none)

private theorem parametersOf_contains {t : SymbolTable} (valid : t.Valid) {method : Option EntityId}
    (known : ∀ id ∈ method, t.contains id = true) :
    (∀ id ∈ (parametersOf t method).1, t.contains id = true) ∧
      ∀ id ∈ (parametersOf t method).2, t.contains id = true := by
  cases method with
  | none => simp [parametersOf]
  | some method =>
    have known := known method rfl
    simp only [parametersOf, Option.map_some, Option.getD_some, splitParameters]
    split
    · exact ⟨fun id member => valid.contains_parameter known ((List.dropLast_sublist _).mem member),
        fun id member => valid.contains_parameter known (List.mem_of_getLast? member)⟩
    · exact ⟨fun id member => valid.contains_parameter known member, by simp⟩

theorem askParameters_ensures {method : Option EntityId}
    (known : ∀ id ∈ method, s.table.contains id = true) :
    Ensures (askParameters method) s fun p s' => p = parametersOf s.table method ∧ s' = s := by
  cases method with
  | none => exact .pure ⟨rfl, rfl⟩
  | some id => exact .entityOf (known id rfl) (.pure ⟨rfl, rfl⟩)

/-- The type of the elements that a parameter collects, if there is one. -/
def collectedType (t : SymbolTable) (parameter : Option EntityId) : Option TypeId :=
  parameter.map fun id => t.types.elemType (t.entity id).type

theorem askCollected_ensures (valid : s.Valid)
    (known : ∀ id ∈ parameter, s.table.contains id = true) :
    Ensures (askCollected parameter) s fun elem s' =>
      elem = collectedType s.table parameter ∧ s' = s := by
  cases parameter with
  | none => exact .pure ⟨rfl, rfl⟩
  | some id =>
    have known := known id rfl
    exact .entityOf known (.askType (valid.table.contains_type known) (.pure ⟨rfl, rfl⟩))

section

variable (inner : Realizes nested Expr.lexemes rule)

include inner

theorem collectArguments_translates (valid : s.Valid) (needed : Bool) :
    Ensures (collectArguments nested needed (collectedType s.table parameter)) s fun _ s' =>
      s.Translates s' (Option.elim · [] VarArguments.lexemes) fun t extra items t' =>
        needed = true → VarArguments.Collect rule t parameter extra items t' := by
  refine .lookahead ?_
  split
  · have known : s.table.types.contains ((collectedType s.table parameter).getD .none) = true := by
      cases parameter with
      | none => exact valid.table.contains_basic (a := .none) (by decide)
      | some id => exact valid.table.contains_elem _
    refine .bind (varArguments_fills inner valid known) ?_
    intro _ s1 filled
    refine (reportIf_does filled.valid _ _).mono fun _ s2 allowed => ?_
    refine (filled.before valid allowed (by simp)).as some (by simp) ?_
    rintro _ _ ⟨_, rfl, allowed, size, values, back, rfl, rfl, fill, count⟩ needed
    cases parameter with
    | none => simp [collectedType, needed] at allowed
    | some id =>
      rw [List.append_nil]
      exact .filled fill count
  · cases parameter with
    | none =>
      exact .pure (.ofDoes (.refl valid trivial) (by simp) none rfl fun _ _ => .none)
    | some id =>
      refine .bind (loadConst_does valid _) fun _ s1 zero => ?_
      refine (newArray_does zero.valid _).mono fun _ s2 array => ?_
      have step := zero.trans array
      refine .ofDoes step (by simp) none rfl fun _ _ => ?_
      rw [step.table]
      exact .omitted

theorem arguments_passes (valid : s.Valid) (known : s.table.Knows x) :
    Ensures (arguments nested x) s fun y s' =>
      y = { x with method := if x.kind = .method then x.method else none } ∧
      s.Translates s' Arguments.lexemes fun t args items t' =>
        x.kind = .method ∧ ∃ id, x.method = some id ∧ args.Pass rule t id items t' := by
  refine .expectMark valid fun s1 opened => ?_
  generalize isMethod : (if x.kind = .method then x.method else none) = method
  have knownMethod : ∀ id ∈ method, s.table.contains id = true := by
    intro id is
    subst isMethod
    split at is
    · exact known.method id is
    · simp at is
  refine .check opened.valid fun s2 called => ?_
  have front := opened.trans called
  refine .bind (askParameters_ensures (by rw [front.table]; exact knownMethod)) ?_
  rintro _ _ ⟨rfl, rfl⟩
  rw [front.table]
  have knownParameters := parametersOf_contains valid.table knownMethod
  generalize parts : parametersOf s.table method = p at knownParameters
  obtain ⟨parameters, varArg⟩ := p
  simp only at knownParameters
  refine .bind (argumentList_passes inner front.valid
    (by simpa only [front.contains] using knownParameters.1)) ?_
  rintro ⟨count, left⟩ s3 fixed
  refine .check fixed.valid fun _ notMore => ?_
  refine .check notMore.valid fun s4 notLess => ?_
  have counted := notMore.trans notLess
  have known4 : ∀ id ∈ varArg, s4.table.contains id = true := by
    simpa only [counted.contains, fixed.contains, front.contains] using knownParameters.2
  refine .bind (askCollected_ensures counted.valid known4) ?_
  rintro _ _ ⟨rfl, rfl⟩
  refine .bind (collectArguments_translates inner counted.valid _) ?_
  intro _ s5 extra
  refine .expectMark extra.valid fun s6 closed => ?_
  refine .pure ⟨rfl, ((fixed.between front counted (by simp)).and
    (extra.before counted.valid closed (by simp))).as (fun e => .mk e.1 e.2) ?_ ?_⟩
  · rintro ⟨fixed, extra⟩
    cases extra <;> simp [Arguments.lexemes]
  · rintro ⟨fixed, extra⟩ _
      ⟨_, _, rfl, ⟨_, rfl, ⟨_, called⟩, counted, counts, fit⟩, _, rfl, _, collect⟩
    obtain ⟨id, rfl⟩ := Option.isSome_iff_exists.mp (Option.isNone_eq_false_iff.mp called)
    have kind : x.kind = .method ∧ x.method = some id := by
      split at isMethod
      · next kind => exact ⟨kind, isMethod⟩
      · simp at isMethod
    refine ⟨kind.1, id, kind.2, ?_⟩
    simp only [parametersOf, Option.map_some, Option.getD_some] at parts
    have whole : count = parameters.length := by simp at counted; omega
    simp only [Nat.zero_add] at counts
    have fit := fit (by simp only; omega)
    rw [← counts, whole, List.take_length] at fit
    have pass := Arguments.Pass.mk (by rw [parts]; exact fit)
      (by rw [parts]; exact collect rfl)
    simpa using pass

theorem methodCall_calls (valid : s.Valid) (known : s.table.Knows x) :
    Ensures (methodCall nested x) s fun y s' => s'.table.Knows y ∧
      s.Translates s' Arguments.lexemes fun t args items t' => y = x ∧ x.kind = .method ∧
        ∃ id front, x.method = some id ∧ items = front ++ x.callItems id ∧
          args.Pass rule t id front t' := by
  refine .bind (arguments_passes inner valid known) ?_
  rintro y s1 ⟨passed, args⟩
  refine .bind (emitCall_does args.valid y) fun _ s2 called => ?_
  refine .pure ⟨?_, (args.before valid called ?_).as id (by simp) ?_⟩
  · have known := called.knows (args.knows known)
    subst passed
    refine ⟨known.type, fun id is => known.method id ?_⟩
    simp only at is
    split at is
    · exact is
    · simp at is
  · cases y.method <;> simp
  · rintro args _ ⟨front, rfl, _, isMethod, id, method, pass⟩
    have same : y = x := by
      rw [passed, if_pos isMethod]
    refine ⟨same, isMethod, id, front, method, ?_, pass⟩
    rw [same, method, Option.elim_some]

end

/-! ## Factors -/

theorem knows_onStack {t : SymbolTable} {type : TypeId} (inside : t.types.contains type = true) :
    t.Knows (.onStack type) :=
  ⟨inside, by simp [onStack]⟩

section

variable (inner : Realizes nested Expr.lexemes rule)

include inner

theorem newObject_realizes : Realizes (newObject nested) lexemes (Compiles rule) := by
  intro s valid
  refine .bind (expect_keyword valid _) fun _ s1 new => ?_
  refine .bind (expectName_does new.valid) fun name s2 named => ?_
  have front := new.trans named
  refine .bind (find_does front.valid name) ?_
  rintro id s3 ⟨inside, found⟩
  rw [front.table] at inside found
  have front := front.trans found
  refine .entityOf (by rw [front.contains]; exact inside) ?_
  rw [front.entity]
  have knownType := valid.table.contains_type inside
  refine .lookahead ?_
  split
  · next bracket =>
    refine .bind (scan_mark front.valid fun _ => bracket) fun _ s4 opened => ?_
    refine .check opened.valid fun s5 isType => ?_
    have front := (front.trans opened).trans isType
    refine .bind (inner s5 front.valid) ?_
    rintro size s6 ⟨_, value⟩
    refine .check value.valid fun s7 int => ?_
    refine .loadsValue int.valid fun s8 loaded => ?_
    refine .bind (newArray_does loaded.valid _) fun _ s9 array => ?_
    have back := (int.trans loaded).trans array
    have knownElem := back.contains_type (value.contains_type (front.contains_type knownType))
    refine .bind (addArray_extends back.valid knownElem) ?_
    rintro type s' ⟨extends', inside', same, table, clean', tokens⟩
    have added : s9.Translates s' (fun _ : Unit => []) fun _ _ items _ => items = [] :=
      ⟨[], extends', by simp, fun clean => ⟨clean' clean, (), by rw [tokens]; rfl, rfl⟩⟩
    refine .expectMark added.valid fun s'' closed => ?_
    refine .pure ⟨knows_onStack (closed.contains_type inside'),
      ((value.between front back (by simp)).and (added.before back.valid closed (by simp))).as
        (fun e => .array name e.1) (by simp [lexemes]) ?_⟩
    rintro ⟨e, _⟩ _ ⟨_, _, rfl, ⟨_, rfl, ⟨⟨⟨_, means⟩, _⟩, isType⟩, ⟨⟨int, valued⟩, _⟩, compiles⟩,
      _, rfl, _, rfl⟩
    rw [closed.table, table, same]
    simpa using Compiles.array means (by simpa using isType) compiles (by simpa using int)
      valued
  · refine .check front.valid fun s4 isType => ?_
    have front := front.trans isType
    refine .askType (by rw [front.table]; exact knownType) ?_
    rw [front.table]
    refine .check front.valid fun s5 isClass => ?_
    have front := front.trans isClass
    refine .askType (by rw [front.table]; exact knownType) ?_
    rw [front.table]
    refine .bind (emit_does front.valid ⟨rfl, rfl⟩) fun _ s6 emitted => ?_
    have front := front.trans emitted
    refine .pure ⟨knows_onStack (front.contains_type knownType),
      .ofDoes front (by simp) (.object name) rfl ?_⟩
    rintro ⟨⟨⟨⟨_, means⟩, isType⟩, isClass⟩, _⟩
    rw [front.table]
    exact .object means (by simpa using isType) (by simpa using isClass)

theorem designatorFactor_realizes : Realizes (designatorFactor nested) lexemes (Compiles rule) := by
  intro s valid
  refine .bind (designator_realizes inner s valid) ?_
  rintro x s1 ⟨known, designator⟩
  refine .lookahead ?_
  split
  · refine .check designator.valid fun s2 isMethod => ?_
    refine .check isMethod.valid fun s3 result => ?_
    have middle := isMethod.trans result
    refine .bind (methodCall_calls inner middle.valid (middle.knows known)) ?_
    rintro y s4 ⟨knownY, call⟩
    refine .pure ⟨⟨knownY.type, knownY.method⟩, ((designator.before valid middle (by simp)).and
      call).as (fun e => .call e.1 e.2) (by simp [lexemes]) ?_⟩
    rintro ⟨d, args⟩ _ ⟨_, _, rfl, ⟨_, rfl, ⟨_, result⟩, compiles⟩, rfl, isMethod, id, front, method,
      rfl, pass⟩
    simpa using Compiles.call compiles isMethod method (by simpa using result) pass
  · have same : (if x.kind = .method then pure { x with kind := .nothing } else pure x :
        Compile Operand) = pure x.asValue := by
      unfold asValue
      split <;> rfl
    rw [same]
    refine .pure ⟨?_, designator.as .value (fun _ => rfl) fun _ _ => .value⟩
    unfold asValue
    split
    · exact ⟨known.type, known.method⟩
    · exact known

theorem factor_realizes : Realizes (factor nested) lexemes (Compiles rule) := by
  intro s valid
  refine .lookahead ?_
  split
  · exact designatorFactor_realizes inner s valid
  · next number =>
    refine .bind (scan_kind valid (fun _ => number) (by simp)) fun _ s1 scanned => ?_
    have scanned := does_lexeme scanned lexeme_of_kind_number
    refine .previous (.pure ⟨?_, .ofDoes scanned (by simp) (.number _) rfl fun _ => ?_⟩)
    · exact ⟨scanned.valid.table.contains_basic (a := .int) (by decide), by simp [Operand.number]⟩
    · rw [scanned.table]
      exact .number
  · next character =>
    refine .bind (scan_kind valid (fun _ => character) (by simp)) fun _ s1 scanned => ?_
    have scanned := does_lexeme scanned lexeme_of_kind_charConst
    refine .previous (.pure ⟨?_, .ofDoes scanned (by simp) (.character _) rfl fun _ => ?_⟩)
    · exact ⟨scanned.valid.table.contains_basic (a := .char) (by decide), by simp [Operand.character]⟩
    · rw [scanned.table]
      exact .character
  · exact newObject_realizes inner s valid
  · next paren =>
    refine .bind (scan_mark valid fun _ => paren) fun _ s1 opened => ?_
    refine .bind (inner s1 opened.valid) ?_
    rintro x s2 ⟨known, value⟩
    refine .expectMark value.valid fun s3 closed => ?_
    refine .pure ⟨closed.knows known,
      (value.between opened closed (by simp)).as .paren (by simp [lexemes]) ?_⟩
    rintro e _ ⟨_, rfl, _, _, compiles⟩
    simpa using .paren compiles
  · refine .bind (report_does valid _) ?_
    rintro _ s1 ⟨does, problem⟩
    exact .pure ⟨⟨does.valid.table.contains_basic (by decide), by simp [nothing]⟩,
      .ofProblem does problem⟩

end

/-! ## Terms and sums -/

theorem binaryChain_ensures {Op φ : Type} {operation? : TokenKind → Option Opcode}
    {item : Compile Operand} {lexemes : φ → List Lexeme} {rule : Translation φ} {mark : Op → Mark}
    {itemOf : Op → Item} (chainLexemes : List (Op × φ) → List Lexeme)
    (operand : Realizes item lexemes rule)
    (operator : ∀ kind op, operation? kind = some op → ∃ o proper,
      kind = .mark (mark o) ∧ itemOf o = .plain op [] proper)
    (nil : chainLexemes [] = [])
    (cons : ∀ o e rest, chainLexemes ((o, e) :: rest) =
      .mark (mark o) :: lexemes e ++ chainLexemes rest)
    (valid : s.Valid) (known : s.table.Knows x) :
    Ensures (binaryChain operation? item x) s fun y s' => s'.table.Knows y ∧
      s.Translates s' chainLexemes fun t rest items t' => Chained itemOf rule t x rest items y t' := by
  refine repeatWhile_ensures (i := fun x s => s.Valid ∧ s.table.Knows x)
    (r := fun x s y s' => s'.table.Knows y ∧ s.Translates s' chainLexemes
      fun t rest items t' => Chained itemOf rule t x rest items y t') ?stop ?step ⟨valid, known⟩
  case stop =>
    rintro x s ⟨valid, known⟩
    exact ⟨known, .ofDoes (.refl valid trivial) (by simp) [] nil fun _ => .nil⟩
  case step =>
    rintro x s ⟨valid, known⟩ more
    obtain ⟨op, found⟩ := Option.isSome_iff_exists.mp more
    obtain ⟨o, proper, kind, isItem⟩ := operator _ op found
    refine .lookahead ?_
    simp only [found]
    refine .loadsValue valid fun s1 loaded => ?_
    refine .bind (scan_mark loaded.valid fun clean => (loaded.peek_kind clean).trans kind)
      fun _ s2 scanned => ?_
    have front := loaded.trans scanned
    refine .bind (operand s2 front.valid) ?_
    rintro y s3 ⟨_, value⟩
    refine .check value.valid fun s4 ints => ?_
    refine .loadsValue ints.valid fun s5 loaded' => ?_
    refine .bind (emit_does loaded'.valid proper) fun _ s6 emitted => ?_
    have back := (ints.trans loaded').trans emitted
    have known6 := back.knows (value.knows (front.knows known))
    refine .pure ⟨⟨back.valid, known6.type, known6.method⟩, ?_⟩
    rintro z s7 ⟨knownZ, rest⟩
    refine ⟨knownZ, ((value.between front back (by simp)).and rest).as (fun e => (o, e.1) :: e.2)
      (by simp [cons]) ?_⟩
    rintro ⟨e, rest⟩ _
      ⟨_, _, rfl, ⟨_, rfl, ⟨valued, _⟩, ⟨⟨ints, valued'⟩, _⟩, compiles⟩, chained⟩
    have ints : x.type = .int ∧ y.type = .int := by simpa using ints
    have chained : Chained itemOf rule s.table x ((o, e) :: rest) _ z s7.table :=
      .cons valued compiles ints valued' chained
    simpa [isItem] using chained

private theorem mulOperation_item (kind : TokenKind) (op : Opcode)
    (found : mulOperation? kind = some op) :
    ∃ (o : MulOp) (proper : _), kind = .mark o.mark ∧ o.item = .plain op [] proper := by
  fun_cases mulOperation? kind with
  | case1 => cases found; exact ⟨.times, ⟨rfl, rfl⟩, rfl, rfl⟩
  | case2 => cases found; exact ⟨.slash, ⟨rfl, rfl⟩, rfl, rfl⟩
  | case3 => cases found; exact ⟨.percent, ⟨rfl, rfl⟩, rfl, rfl⟩
  | case4 => simp [mulOperation?] at found

private theorem addOperation_item (kind : TokenKind) (op : Opcode)
    (found : addOperation? kind = some op) :
    ∃ (o : AddOp) (proper : _), kind = .mark o.mark ∧ o.item = .plain op [] proper := by
  fun_cases addOperation? kind with
  | case1 => cases found; exact ⟨.plus, ⟨rfl, rfl⟩, rfl, rfl⟩
  | case2 => cases found; exact ⟨.minus, ⟨rfl, rfl⟩, rfl, rfl⟩
  | case3 => simp [addOperation?] at found

theorem term_realizes (inner : Realizes nested Expr.lexemes rule) :
    Realizes (term nested) Term.lexemes (Term.Compiles rule) := by
  intro s valid
  refine .bind (factor_realizes inner s valid) ?_
  rintro x s1 ⟨known, first⟩
  refine (binaryChain_ensures chainLexemes (factor_realizes inner) mulOperation_item
    (by simp [chainLexemes]) (by simp [chainLexemes]) first.valid known).mono ?_
  rintro y s2 ⟨knownY, chain⟩
  refine ⟨knownY, (first.and chain).as (fun e => .mk e.1 e.2) (by simp [Term.lexemes]) ?_⟩
  rintro ⟨first, rest⟩ _ ⟨_, _, rfl, compiles, chained⟩
  exact .mk compiles chained

theorem negate_does (valid : s.Valid) (known : s.table.Knows x) :
    Ensures (negate x) s fun y s' => y = x.negated ∧ s'.table.Knows y ∧
      s.Does s' x.negateItems [] (x.type = .int ∧ x.isValueless = false) := by
  refine .check valid fun s1 int => ?_
  unfold negated negateItems
  split
  · next constant =>
    refine .pure ⟨rfl, int.knows ⟨known.type, known.method⟩, int.imp fun int => ?_⟩
    exact ⟨by simpa using int, by simp [isValueless, constant]⟩
  · refine .loadsValue int.valid fun s2 loaded => ?_
    refine .bind (emit_does loaded.valid ⟨rfl, rfl⟩) fun _ s3 emitted => ?_
    have step := (int.trans loaded).trans emitted
    refine .pure ⟨rfl, step.knows ⟨known.type, known.method⟩, step.as (by simp) rfl ?_⟩
    rintro ⟨⟨int, valued⟩, _⟩
    exact ⟨by simpa using int, valued⟩

theorem sum_realizes (inner : Realizes nested Expr.lexemes rule) :
    Realizes (sum nested) Expr.lexemes (Expr.CompilesIn rule) := by
  intro s valid
  refine .lookahead ?_
  have chain {x : Operand} {s : Compiler} (valid : s.Valid) (known : s.table.Knows x) :=
    binaryChain_ensures Term.chainLexemes (term_realizes inner) addOperation_item
      (by simp [Term.chainLexemes]) (by simp [Term.chainLexemes]) valid known
  split
  · next minus =>
    refine .bind (scan_mark valid fun _ => minus) fun _ s1 scanned => ?_
    refine .bind (term_realizes inner s1 scanned.valid) ?_
    rintro x s2 ⟨known, first⟩
    refine .bind (negate_does first.valid known) ?_
    rintro _ s3 ⟨negated, known, negate⟩
    subst negated
    refine (chain negate.valid known).mono ?_
    rintro y s4 ⟨knownY, chain⟩
    refine ⟨knownY, ((first.between scanned negate (by simp)).and chain).as
      (fun e => .mk true e.1 e.2) (by simp [Expr.lexemes]) ?_⟩
    rintro ⟨first, rest⟩ _ ⟨_, _, rfl, ⟨_, rfl, _, ⟨int, valued⟩, compiles⟩, chained⟩
    exact .negative compiles int valued chained
  · refine .bind (term_realizes inner s valid) ?_
    rintro x s1 ⟨known, first⟩
    refine (chain first.valid known).mono ?_
    rintro y s2 ⟨knownY, chain⟩
    refine ⟨knownY, (first.and chain).as (fun e => .mk false e.1 e.2) (by simp [Expr.lexemes]) ?_⟩
    rintro ⟨first, rest⟩ _ ⟨_, _, rfl, compiles, chained⟩
    exact .positive compiles chained

theorem deepExpression_realizes (lexemes : φ → List Lexeme) (rule : Translation φ) :
    Realizes deepExpression lexemes rule := by
  intro s valid
  refine .bind (report_does valid _) ?_
  rintro _ s1 ⟨reported, problem⟩
  refine .bind (.get (scanMany_problem reported.valid problem _)) ?_
  rintro _ s2 ⟨skipped, problem⟩
  have step := reported.trans skipped
  exact .pure ⟨⟨step.valid.table.contains_basic (by decide), by simp [nothing]⟩,
    .ofProblem step problem⟩

/-- Every expression that is accepted compiles as `Expr.Compiles` says. -/
theorem expression_realizes (levels : Nat) :
    Realizes (expression levels) Expr.lexemes (Expr.Compiles levels) := by
  induction levels with
  | zero => exact deepExpression_realizes _ _
  | succ levels ih =>
    intro s valid
    apply deeper_ensures (deepExpression_realizes _ _ s valid)
    refine (sum_realizes ih _ (valid.atDepth _)).mono ?_
    rintro x s' ⟨known, items, extension, straight, accepted⟩
    exact ⟨known, items, extension.atDepth, straight, accepted⟩

end Compile

end MicroJava
