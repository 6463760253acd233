import IrafCl.Proofs.Code.Emitter
import IrafCl.Proofs.Script.Failures
import IrafCl.Proofs.Script.Parsing
import IrafCl.Proofs.Script.Programs
import IrafCl.Proofs.Script.Typing
import IrafCl.Proofs.Script.Wording
import IrafCl.Script.Unit

/-!
# How a compilation ends

Stage after stage, a compilation goes on or stops with a report: the scanner with a lexical one, the parser
with a syntactic one, the declarations with a syntactic one or one about a conversion, and the generator
with one about generation. No stage meets a tree it cannot read, so no violation is left (`compile_ends`).
-/

namespace IrafCl.Script

open Failure (Kind)

/-- The kinds of reports that a compilation may stop with. -/
def compileKinds : List (Option Kind) := [some .lexical, some .syntactic, some .conversion, some .generation]

/-- An outcome is a result, or a report of one of the kinds. -/
def Ends {α : Type} (outcome : Except Halt α) : Prop :=
  (∃ a, outcome = .ok a) ∨ ∃ halt, outcome = .error halt ∧ halt.kind? ∈ compileKinds

/-- The declarations of a program tree are known, or a report says what is wrong with them. -/
theorem declarations_ends [Library] (st : Settings) {t : Tree} (h : t.kind? = some .program ∧ Grown t) :
    Ends (declarations st t).2 := by
  obtain ⟨header, hheader, -⟩ := exists_header h
  unfold declarations
  rw [hheader]
  dsimp only
  cases hscope : (Scope.ofHeader st header).2 with
  | ok scope => exact .inl ⟨scope, rfl⟩
  | error f =>
    obtain ⟨r, hr, hkind⟩ := Scope.failsWith_ofHeader st header f hscope
    refine .inr ⟨.failure f, rfl, ?_⟩
    rw [Halt.kind?, hr]
    simp only [declarationKinds, List.mem_cons, List.not_mem_nil, or_false] at hkind
    rcases hkind with hkind | hkind <;> simp [compileKinds, hkind]

/-- What generation gives for a body and the statements it is lowered to. The code is a preamble, the statements and the
warnings. -/
theorem generateTree_eq {st : Settings} {scope : Scope} {t : Tree} {body : List Stmt} {stmts : List Code.Stmt} {p : Progress}
    (ht : t.kind? = some .program ∧ Grown t) (hbody : body? t = some body) (hrun : (Stmt.lowerAll (.of scope st.mode) body).run .start = (stmts, p)) :
    generateTree st scope t = .ok {
      warnings := scope.warnings ++ p.warnings
      code := if p.failures.isEmpty then
          .ok (Code.unlines (preamble scope st.filename p.usesPackage) ++ Code.unlines (Code.Stmt.allLines Code.bodyLevel stmts) ++
            Code.unlines ((scope.warnings ++ p.warnings).map warningLine))
        else .error (.join .generation p.failures) } := by
  have hworded := worded_body scope st.mode ht hbody .start
  rw [hrun] at hworded
  unfold generateTree generate
  rw [hbody]
  dsimp only
  rw [hrun]
  dsimp only
  rw [Code.written_eq hworded]
  rfl

/-- Generated code is a preamble, what is written for the statements, and the warnings. -/
theorem code_generateTree {st : Settings} {scope : Scope} {t : Tree} {body : List Stmt} {stmts : List Code.Stmt} {p : Progress}
    {code : Bytes} {g : Generated} (ht : t.kind? = some .program ∧ Grown t) (hbody : body? t = some body)
    (hrun : (Stmt.lowerAll (.of scope st.mode) body).run .start = (stmts, p)) (hg : generateTree st scope t = .ok g)
    (hcode : g.code = .ok code) : g.warnings = scope.warnings ++ p.warnings ∧
      code = Code.unlines (preamble scope st.filename p.usesPackage) ++
        Code.unlines (Code.Stmt.allLines Code.bodyLevel stmts) ++ Code.unlines (g.warnings.map warningLine) := by
  rw [generateTree_eq ht hbody hrun] at hg
  cases hg
  dsimp only at hcode
  split at hcode
  · cases hcode
    exact ⟨rfl, rfl⟩
  · cases hcode

/-- A program tree with its types has generated code. -/
theorem exists_generateTree (st : Settings) (scope : Scope) {t : Tree} (h : t.kind? = some .program ∧ Grown t) :
    ∃ g : Generated, generateTree st scope t = .ok g ∧
      ∀ f, g.code = .error f → (Halt.failure f).kind? = some .generation := by
  obtain ⟨body, hbody, -⟩ := exists_body h.1 (judges_any h.2)
  cases hrun : (Stmt.lowerAll (.of scope st.mode) body).run .start with
  | mk stmts p =>
  refine ⟨_, generateTree_eq h hbody hrun, fun f hf => ?_⟩
  dsimp only at hf
  split at hf
  · cases hf
  · cases hf
    rfl

/-- A program tree is still one when it has its types. -/
theorem program_annotate (scope : Scope) {t : Tree} (h : t.kind? = some .program ∧ Grown t) :
    (Typing.annotate scope t).kind? = some .program ∧ Grown (Typing.annotate scope t) :=
  ⟨(Typing.kind?_annotate scope t).trans h.1, Typing.grown_annotate scope h.2⟩

theorem compileScoped_ends (st : Settings) (scope : Scope) {t : Tree} (h : t.kind? = some .program ∧ Grown t) :
    Ends (compileScoped st scope t).outcome := by
  obtain ⟨g, hg, hcode⟩ := exists_generateTree st scope (program_annotate scope h)
  unfold compileScoped
  rw [Typing.checkTypes_eq scope h.2]
  have hbind : ((Except.ok (Typing.annotate scope t)).mapError Halt.violation >>= generateTree st scope) = .ok g := hg
  rw [hbind]
  dsimp only
  cases houtcome : g.code with
  | ok code => exact .inl ⟨_, rfl⟩
  | error f => exact .inr ⟨.failure f, rfl, by rw [hcode f houtcome]; simp [compileKinds]⟩

theorem compileTree_ends [Library] (st : Settings) {t : Tree} (h : t.kind? = some .program ∧ Grown t) :
    Ends (compileTree st t).outcome := by
  have hdeclarations := declarations_ends st h
  unfold compileTree
  cases hd : declarations st t with
  | mk notes outcome =>
    rw [hd] at hdeclarations
    rcases hdeclarations with ⟨scope, rfl⟩ | ⟨halt, rfl, hkind⟩
    · exact compileScoped_ends st scope h
    · exact .inr ⟨halt, rfl, hkind⟩

/-- A text that has a tree compiles as its tree does. -/
theorem outcome_compile [Library] {st : Settings} {source : Bytes} {t : Tree} (h : tree source = .ok t) :
    (compile st source).outcome = (compileTree st t).outcome := by
  rw [compile, h]

/-- Every text compiles to a unit, or is refused with a lexical, syntactic, conversion or generation report.
The generator is always left as deep as a body is, with a single buffer. -/
theorem compile_ends [Library] (st : Settings) (source : Bytes) :
    ((∃ unit, (compile st source).outcome = .ok unit) ∨
      ∃ halt, (compile st source).outcome = .error halt ∧
        halt.kind? ∈ [some .lexical, some .syntactic, some .conversion, some .generation]) ∧
    ∀ stmts, (Code.Emitter.after stmts).indent = 1 ∧ (Code.Emitter.after stmts).out.length = 1 := by
  refine ⟨?_, fun stmts => ⟨Code.Emitter.indent_after stmts, ?_⟩⟩
  swap
  · obtain ⟨buffer, hout, _⟩ := Code.Emitter.out_after stmts
    rw [hout]
    rfl
  show Ends (compile st source).outcome
  unfold compile
  rcases tree_ends source with ⟨t, htree, hgrown, hkind⟩ | ⟨halt, htree, hkind⟩
  · rw [htree]
    exact compileTree_ends st ⟨hkind, hgrown⟩
  · rw [htree]
    refine .inr ⟨halt, rfl, ?_⟩
    rcases hkind with hkind | hkind <;> simp [compileKinds, hkind]

/-- The stages of a compilation that gives a unit. -/
theorem compile_eq_ok [Library] {st : Settings} {source : Bytes} {u : CompiledUnit} (h : (compile st source).outcome = .ok u) :
    ∃ t scope g, tree source = .ok t ∧ (t.kind? = some .program ∧ Grown t) ∧ (declarations st t).2 = .ok scope ∧
      generateTree st scope (Typing.annotate scope t) = .ok g ∧ g.code = .ok u.code ∧ u = .of st scope g.warnings u.code := by
  unfold compile at h
  rcases tree_ends source with ⟨t, htree, hgrown, hkind⟩ | ⟨halt, htree, -⟩
  swap
  · rw [htree] at h
    cases h
  rw [htree] at h
  dsimp only at h
  unfold compileTree at h
  cases hd : declarations st t with
  | mk notes outcome =>
    rw [hd] at h
    cases outcome with
    | error halt => cases h
    | ok scope =>
      have h : (compileScoped st scope t).outcome = .ok u := h
      have htyped : (Typing.annotate scope t).kind? = some .program ∧ Grown (Typing.annotate scope t) :=
        ⟨(Typing.kind?_annotate scope t).trans hkind, Typing.grown_annotate scope hgrown⟩
      obtain ⟨g, hg, -⟩ := exists_generateTree st scope htyped
      unfold compileScoped at h
      rw [Typing.checkTypes_eq scope hgrown] at h
      have hbind : ((Except.ok (Typing.annotate scope t)).mapError Halt.violation >>= generateTree st scope) = .ok g := hg
      rw [hbind] at h
      dsimp only at h
      cases hcode : g.code with
      | error f =>
        rw [hcode] at h
        cases h
      | ok code =>
        rw [hcode] at h
        cases h
        exact ⟨t, scope, g, htree, ⟨hkind, hgrown⟩, by rw [hd], hg, hcode, rfl⟩

end IrafCl.Script
