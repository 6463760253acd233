import IrafCl.Proofs.Script.Compile
import IrafCl.Proofs.Script.Lowering

/-!
# What is compiled

Lowering refuses a `goto` and a second default in a switch, and nothing else: it leaves no fault just where neither is
(`Stmt.Lowers.failures`). The second default would take the place of the first, so only without faults is every statement
of a program lowered. That is the case for each text that compiles (`exists_compiled`).
-/

namespace IrafCl.Script

/-! ## What lowering refuses -/

mutual

/-- Whether there is nothing in a statement that lowering refuses. -/
def Stmt.isSupported : Stmt → Bool
  | .jump _ => false
  | .labelled _ _ body => body.isSupported
  | .block body => Stmt.allSupported body
  | .branch _ yes => yes.isSupported
  | .branchElse _ yes no => yes.isSupported && no.isSupported
  | .loop _ body => body.isSupported
  | .forLoop _ _ _ body => body.isSupported
  | .switch _ clauses => Clause.casesSupported false clauses && Clause.defaultSupported clauses
  | .empty | .assign _ | .pipeline _ | .leave | .next | .done => true

def Stmt.allSupported : List Stmt → Bool
  | [] => true
  | s :: ss => s.isSupported && Stmt.allSupported ss

/-- Whether nothing in the cases is refused, and no default comes after one: `seen` says that there was one before. -/
def Clause.casesSupported (seen : Bool) : List Clause → Bool
  | [] => true
  | .case _ body :: rest => body.isSupported && Clause.casesSupported seen rest
  | .otherwise _ _ :: rest => !seen && Clause.casesSupported true rest

/-- Whether nothing in the last default is refused. -/
def Clause.defaultSupported : List Clause → Bool
  | [] => true
  | .case _ _ :: rest => Clause.defaultSupported rest
  | .otherwise _ body :: rest => if rest.any isDefault then Clause.defaultSupported rest else body.isSupported

end

/-- No default comes after another. -/
theorem Clause.any_isDefault : ∀ (clauses : List Clause), Clause.casesSupported true clauses = true → clauses.any isDefault = false
  | [], _ => rfl
  | .case labels body :: rest, h => by
    rw [Clause.casesSupported, Bool.and_eq_true] at h
    exact Clause.any_isDefault rest h.2
  | .otherwise line body :: rest, h => by
    rw [Clause.casesSupported] at h
    cases h

variable {c : Context}

theorem StagesLower.failures_eq {input : Option Bytes} {calls : List TaskCall} {p q : Progress} {code : List Code.Stmt}
    (h : StagesLower c input calls p code q) : q.failures = p.failures := by
  induction h with
  | nil => rfl
  | last => rfl
  | stage _ ih => exact ih

/-- A fault stays. -/
theorem failures_failed (p : Progress) (message : Bytes) (line : Int) : (p.failed message line).failures ≠ [] :=
  List.append_ne_nil_of_right_ne_nil _ (List.cons_ne_nil _ _)

mutual

/-- Lowering leaves no fault just if there was none before and nothing in the statement is refused. -/
theorem Stmt.Lowers.failures {s : Stmt} {p q : Progress} {code : List Code.Stmt} :
    s.Lowers c p code q → (q.failures = [] ↔ p.failures = [] ∧ s.isSupported = true)
  | .empty => (and_iff_left rfl).symm
  | .labelled hbody => hbody.failures
  | .assign => (and_iff_left rfl).symm
  | .pipeline hstages => by
    rw [hstages.failures_eq]
    exact (and_iff_left rfl).symm
  | .leave => (and_iff_left rfl).symm
  | .next => (and_iff_left rfl).symm
  | .done => (and_iff_left rfl).symm
  | .jump => iff_of_false (failures_failed p _ _) nofun
  | .block hbody => hbody.failures
  | .branch hyes => hyes.failures
  | .branchElse hyes hno => by rw [hno.failures, hyes.failures, and_assoc, Stmt.isSupported, Bool.and_eq_true]
  | .loop hbody => hbody.failures
  | .forLoop hbody => hbody.failures
  | .switch hcases hdefault => by
    rw [hdefault.failures, hcases.failures, and_assoc, Stmt.isSupported, Bool.and_eq_true]
    exact Iff.rfl

theorem Stmt.AllLower.failures {ss : List Stmt} {p q : Progress} {code : List Code.Stmt} :
    Stmt.AllLower c ss p code q → (q.failures = [] ↔ p.failures = [] ∧ Stmt.allSupported ss = true)
  | .nil => (and_iff_left rfl).symm
  | .cons hs hss => by rw [hss.failures, hs.failures, and_assoc, Stmt.allSupported, Bool.and_eq_true]

theorem Clause.CasesLower.failures {subject : Code.Expr} {seen : Bool} {clauses : List Clause} {p q : Progress}
    {cases : List Case} : Clause.CasesLower c subject seen clauses p cases q →
      (q.failures = [] ↔ p.failures = [] ∧ Clause.casesSupported seen clauses = true)
  | .nil => (and_iff_left rfl).symm
  | .case hbody hrest => by rw [hrest.failures, hbody.failures, and_assoc, Clause.casesSupported, Bool.and_eq_true]
  | .otherwise hrest => by
    rw [hrest.failures, Clause.casesSupported]
    cases seen with
    | true => exact iff_of_false (fun h => failures_failed p _ _ h.1) nofun
    | false => exact Iff.rfl

theorem Clause.DefaultLowers.failures {clauses : List Clause} {p q : Progress} {code : Option (List Code.Stmt)} :
    Clause.DefaultLowers c clauses p code q → (q.failures = [] ↔ p.failures = [] ∧ Clause.defaultSupported clauses = true)
  | .nil => (and_iff_left rfl).symm
  | .case hrest => hrest.failures
  | .earlier hany hrest => by rw [hrest.failures, Clause.defaultSupported, if_pos hany]
  | .last hany hbody => by rw [hbody.failures, Clause.defaultSupported, if_neg (Bool.eq_false_iff.mp hany)]

end

/-! ## Compiled texts -/

/-- A text is compiled to a unit: its tree, its declarations, its body and the statements that this is lowered to. -/
structure Compiled [Library] (st : Settings) (source : Bytes) (u : CompiledUnit) (t : Tree) (scope : Scope) (body : List Stmt)
    (stmts : List Code.Stmt) (p : Progress) : Prop where
  parsed : tree source = .ok t
  program : t.kind? = some .program ∧ Grown t
  declared : (declarations st t).2 = .ok scope
  read : body? (Typing.annotate scope t) = some body
  lowered : (Stmt.lowerAll (.of scope st.mode) body).run .start = (stmts, p)
  supported : Stmt.allSupported body = true
  unit : u = .of st scope u.warnings u.code
  code : u.code = Code.unlines (preamble scope st.filename p.usesPackage ++ Code.Stmt.allLines Code.bodyLevel stmts ++
    u.warnings.map warningLine)

/-- Whatever compiles has gone through every stage, and nothing in it is refused. -/
theorem exists_compiled [Library] {st : Settings} {source : Bytes} {u : CompiledUnit}
    (h : (compile st source).outcome = .ok u) : ∃ t scope body stmts p, Compiled st source u t scope body stmts p := by
  obtain ⟨t, scope, g, htree, ⟨hkind, hgrown⟩, hscope, hg, hcode, hunit⟩ := compile_eq_ok h
  obtain ⟨body, hbody, -⟩ := exists_body ((Typing.kind?_annotate scope t).trans hkind)
    (judges_any (Typing.grown_annotate scope hgrown))
  cases hrun : (Stmt.lowerAll (.of scope st.mode) body).run .start with
  | mk stmts p =>
  have hprogram := program_annotate scope ⟨hkind, hgrown⟩
  obtain ⟨-, hlines⟩ := code_generateTree hprogram hbody hrun hg hcode
  have hwarnings : g.warnings = u.warnings := by rw [hunit]; rfl
  rw [hwarnings] at hunit hlines
  refine ⟨t, scope, body, stmts, p, htree, ⟨hkind, hgrown⟩, hscope, hbody, hrun, ?_, hunit, ?_⟩
  · have hlowers := Stmt.allLower (.of scope st.mode) body .start
    rw [hrun] at hlowers
    refine (hlowers.failures.mp ?_).2
    rw [generateTree_eq hprogram hbody hrun] at hg
    cases hg
    dsimp only at hcode
    split at hcode
    · next hempty => exact List.isEmpty_iff.mp hempty
    · cases hcode
  · rw [hlines, Code.unlines, Code.unlines, Code.unlines, Code.unlines, List.flatMap_append, List.flatMap_append]

/-- What goes through every stage compiles, if lowering leaves no fault. -/
theorem compiles [Library] {st : Settings} {source : Bytes} {t : Tree} {scope : Scope} {body : List Stmt}
    {stmts : List Code.Stmt} {p : Progress} (hparsed : tree source = .ok t) (hdeclared : (declarations st t).2 = .ok scope)
    (hread : body? (Typing.annotate scope t) = some body)
    (hlowered : (Stmt.lowerAll (.of scope st.mode) body).run .start = (stmts, p)) (hfailures : p.failures = []) :
    ∃ u, (compile st source).outcome = .ok u ∧ Compiled st source u t scope body stmts p := by
  rcases tree_ends source with ⟨t', htree, hgrown, hkind⟩ | ⟨halt, htree, -⟩
  swap
  · rw [hparsed] at htree
    cases htree
  obtain rfl := Except.ok.inj (hparsed.symm.trans htree)
  have hscoped : ∃ u, (compileScoped st scope t).outcome = .ok u := by
    unfold compileScoped
    rw [Typing.checkTypes_eq scope hgrown]
    have hbind : ((Except.ok (Typing.annotate scope t)).mapError Halt.violation >>= generateTree st scope) =
      generateTree st scope (Typing.annotate scope t) := rfl
    rw [hbind, generateTree_eq (program_annotate scope ⟨hkind, hgrown⟩) hread hlowered, hfailures]
    exact ⟨_, rfl⟩
  have hcompile : (compile st source).outcome = (compileScoped st scope t).outcome := by
    rw [outcome_compile hparsed]
    unfold compileTree
    cases hd : declarations st t with
    | mk notes outcome =>
      rw [hd] at hdeclared
      obtain rfl := hdeclared
      rfl
  obtain ⟨u, hu⟩ := hscoped
  obtain ⟨t', scope', body', stmts', p', h⟩ := exists_compiled (hcompile.trans hu)
  obtain rfl := Except.ok.inj (hparsed.symm.trans h.parsed)
  obtain rfl := Except.ok.inj (hdeclared.symm.trans h.declared)
  obtain rfl := Option.some.inj (hread.symm.trans h.read)
  cases hlowered.symm.trans h.lowered
  exact ⟨u, hcompile.trans hu, h⟩

end IrafCl.Script
