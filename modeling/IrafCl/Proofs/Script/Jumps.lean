import IrafCl.Proofs.Code.Nesting
import IrafCl.Proofs.Script.Compiled
import IrafCl.Proofs.Script.Layout
import IrafCl.Proofs.Script.Unambiguous

/-!
# `break` and `next` in generated code

A `break` or a `next` becomes a `break` or a `continue` where it stands, and a loop becomes a `while`. A switch becomes an
`if` chain, which is no loop. So the jumps of the code are all in `while` blocks just if those of the script are all in
loops (`compile_jumps`). Nothing asks for that: a jump outside all loops is compiled like any other, and Python refuses the
code (`stray_break`).
-/

namespace IrafCl.Script

open Python (isIdentifier)

/-! ## Jumps outside loops -/

mutual

/-- Whether a `break` or a `next` stands in a statement outside all loops in it. -/
def Stmt.hasJump : Stmt → Bool
  | .leave | .next => true
  | .labelled _ _ body => body.hasJump
  | .block body => Stmt.anyJump body
  | .branch _ yes => yes.hasJump
  | .branchElse _ yes no => yes.hasJump || no.hasJump
  | .switch _ clauses => Clause.caseJump clauses || Clause.defaultJump clauses
  | _ => false

def Stmt.anyJump : List Stmt → Bool
  | [] => false
  | s :: ss => s.hasJump || Stmt.anyJump ss

def Clause.caseJump : List Clause → Bool
  | [] => false
  | .case _ body :: rest => body.hasJump || Clause.caseJump rest
  | .otherwise _ _ :: rest => Clause.caseJump rest

def Clause.defaultJump : List Clause → Bool
  | [] => false
  | .case _ _ :: rest => Clause.defaultJump rest
  | .otherwise _ body :: rest => body.hasJump || Clause.defaultJump rest

end

theorem defaultJump_of_any_isDefault {clauses : List Clause} (h : clauses.any isDefault = false) :
    Clause.defaultJump clauses = false := by
  induction clauses with
  | nil => rfl
  | cons clause clauses ih =>
    rw [List.any_cons, Bool.or_eq_false_iff] at h
    cases clause with
    | case labels body => exact ih h.2
    | otherwise line body => cases h.1

/-! ## Lowering -/

/-- Whether a jump stands outside loops in a case or in the default of a switch. -/
def casesJump (otherwise : Option (List Code.Stmt)) (cases : List Case) : Bool :=
  cases.any (fun x => Code.Stmt.anyJump x.2) || otherwise.any Code.Stmt.anyJump

theorem hasJump_caseChain (otherwise : Option (List Code.Stmt)) (cases : List Case) :
    (caseChain otherwise cases).hasJump = casesJump otherwise cases := by
  induction cases with
  | nil => cases otherwise <;> rfl
  | cons x cases ih => rw [caseChain, Code.Chain.hasJump, ih, casesJump, casesJump, List.any_cons, Bool.or_assoc]

theorem anyJump_switchChain (otherwise : Option (List Code.Stmt)) (cases : List Case) :
    Code.Stmt.anyJump (switchChain otherwise cases) = casesJump otherwise cases := by
  cases cases with
  | nil =>
    cases otherwise with
    | none => rfl
    | some body => simp [switchChain, casesJump, Code.Stmt.anyJump, Code.Stmt.hasJump, Code.Chain.hasJump]
  | cons x cases =>
    simp [switchChain, casesJump, Code.Stmt.anyJump, Code.Stmt.hasJump, hasJump_caseChain, Bool.or_assoc]

theorem hasJump_elseChain (folds : Bool) (body : List Code.Stmt) : (elseChain folds body).hasJump = Code.Stmt.anyJump body := by
  unfold elseChain
  split
  · simp [Code.Stmt.anyJump, Code.Stmt.hasJump, Code.Chain.hasJump]
  · rfl

variable {c : Context}

theorem anyJump_assignments (a : Option Assignment) : Code.Stmt.anyJump (a.toList.map (Assignment.lower c)) = false := by
  cases a with
  | none => rfl
  | some a =>
    obtain ⟨target, op, value⟩ := a
    cases op <;> rfl

/-- The statements of a pipeline are calls and deletions. -/
theorem StagesLower.anyJump {input : Option Bytes} {calls : List TaskCall} {p q : Progress} {code : List Code.Stmt}
    (h : StagesLower c input calls p code q) : Code.Stmt.anyJump code = false := by
  have hdrop (input : Option Bytes) : Code.Stmt.anyJump (dropPipe input) = false := by cases input <;> rfl
  induction h with
  | nil => rfl
  | @last input => exact hdrop input
  | @stage input _ _ _ _ code _ _ ih =>
    show Code.Stmt.anyJump (dropPipe input ++ code) = false
    rw [Code.anyJump_append, hdrop, ih]
    rfl

mutual

/-- A statement that is lowered without faults has a jump outside all loops just if its code has one. -/
theorem Stmt.Lowers.anyJump {s : Stmt} {p q : Progress} {code : List Code.Stmt} :
    s.Lowers c p code q → s.isSupported = true → Code.Stmt.anyJump code = s.hasJump
  | .empty, _ => rfl
  | .labelled hbody, h => hbody.anyJump h
  | .assign, _ => anyJump_assignments (some _)
  | .pipeline hstages, _ => hstages.anyJump
  | .leave, _ => rfl
  | .next, _ => rfl
  | .done, _ => rfl
  | .jump, h => by cases h
  | .block hbody, h => hbody.anyJump h
  | .branch hyes, h => by
    simp [Code.Stmt.anyJump, Code.Stmt.hasJump, Code.Chain.hasJump, Stmt.hasJump, hyes.anyJump h]
  | .branchElse hyes hno, h => by
    rw [Stmt.isSupported, Bool.and_eq_true] at h
    simp [Code.Stmt.anyJump, Code.Stmt.hasJump, Stmt.hasJump, hasJump_elseChain, hyes.anyJump h.1, hno.anyJump h.2]
  | .loop _, _ => rfl
  | .forLoop _, _ => by
    rw [Code.anyJump_append, anyJump_assignments]
    rfl
  | .switch hcases hdefault, h => by
    rw [Stmt.isSupported, Bool.and_eq_true] at h
    rw [Stmt.hasJump, ← hcases.anyJump h.1, ← hdefault.anyJump false h]
    exact anyJump_switchChain _ _

theorem Stmt.AllLower.anyJump {ss : List Stmt} {p q : Progress} {code : List Code.Stmt} :
    Stmt.AllLower c ss p code q → Stmt.allSupported ss = true → Code.Stmt.anyJump code = Stmt.anyJump ss
  | .nil, _ => rfl
  | .cons hs hss, h => by
    rw [Stmt.allSupported, Bool.and_eq_true] at h
    rw [Code.anyJump_append, Stmt.anyJump, hs.anyJump h.1, hss.anyJump h.2]

theorem Clause.CasesLower.anyJump {subject : Code.Expr} {seen : Bool} {clauses : List Clause} {p q : Progress}
    {cases : List Case} : Clause.CasesLower c subject seen clauses p cases q → Clause.casesSupported seen clauses = true →
      cases.any (fun x => Code.Stmt.anyJump x.2) = Clause.caseJump clauses
  | .nil, _ => rfl
  | .case hbody hrest, h => by
    rw [Clause.casesSupported, Bool.and_eq_true] at h
    rw [List.any_cons, Clause.caseJump, hbody.anyJump h.1, hrest.anyJump h.2]
  | .otherwise hrest, h => by
    rw [Clause.casesSupported, Bool.and_eq_true] at h
    exact hrest.anyJump h.2

theorem Clause.DefaultLowers.anyJump {clauses : List Clause} {p q : Progress} {code : Option (List Code.Stmt)} :
    Clause.DefaultLowers c clauses p code q → ∀ seen : Bool,
      Clause.casesSupported seen clauses = true ∧ Clause.defaultSupported clauses = true →
      code.any Code.Stmt.anyJump = Clause.defaultJump clauses
  | .nil, _, _ => rfl
  | .case hrest, seen, h => by
    rw [Clause.casesSupported, Bool.and_eq_true] at h
    exact hrest.anyJump seen ⟨h.1.2, h.2⟩
  | .earlier hany _, seen, h => by
    rw [Clause.casesSupported, Bool.and_eq_true] at h
    rw [Clause.any_isDefault _ h.1.2] at hany
    cases hany
  | .last hany hbody, seen, h => by
    rw [Clause.defaultSupported, if_neg (Bool.eq_false_iff.mp hany)] at h
    rw [Clause.defaultJump, defaultJump_of_any_isDefault hany, ← hbody.anyJump h.2, Bool.or_false]
    rfl

end

theorem Stmt.anyJump_lowerAll (ss : List Stmt) (h : Stmt.allSupported ss = true) (p : Progress) :
    Code.Stmt.anyJump ((Stmt.lowerAll c ss).run p).1 = Stmt.anyJump ss := (Stmt.allLower c ss p).anyJump h

/-! ## Around the statements -/

/-- The lines before the statements are no jumps and begin no loops. -/
theorem plain_preamble (scope : Scope) (filename : Bytes) (usesPackage : Bool) :
    ∀ line ∈ preamble scope filename usesPackage, ¬ Code.IsJump line ∧ ¬ Code.IsWhile line := by
  have hfixed : ∀ line ∈ imports ++ [[], "\tPkgName = iraf.curpack(); PkgBinary = iraf.curPkgbinary()"],
      ¬ Code.IsJump line ∧ ¬ Code.IsWhile line := by decide
  have hclose : Code.Marked ")" := ⟨41, by decide⟩
  have hfunction : ¬ Code.IsJump (functionLine scope) ∧ ¬ Code.IsWhile (functionLine scope) := by
    have hmark : Code.Marked "):" := ⟨41, by decide⟩
    refine ⟨(hmark.append_left _).not_isJump, Code.not_isWhile_of_head ?_⟩
    show some 100 ≠ some 119
    decide
  have hlist : ¬ Code.IsJump (listLine scope filename) ∧ ¬ Code.IsWhile (listLine scope filename) := by
    refine ⟨(hclose.append_left _).not_isJump, Code.not_isWhile_of_head ?_⟩
    show some 86 ≠ some 119
    decide
  have hparam (value : Bytes) (v : Variable) : ¬ Code.IsJump (paramLine value v) ∧ ¬ Code.IsWhile (paramLine value v) := by
    have hmark : Code.Marked "))" := ⟨41, by decide⟩
    refine ⟨(hmark.append_left _).not_isJump, Code.not_isWhile_of_head ?_⟩
    show some 86 ≠ some 119
    decide
  simp only [List.forall_mem_append, List.forall_mem_cons] at hfixed
  obtain ⟨himports, hblank, hpackage, hnil⟩ := hfixed
  simp only [preamble, List.forall_mem_append, List.forall_mem_cons, List.forall_mem_map]
  refine ⟨⟨⟨⟨⟨himports, hblank, hfunction, hblank, hlist, hnil⟩, fun v _ => hparam _ v⟩, fun v _ => hparam _ v⟩, ?_⟩, hblank, hnil⟩
  split
  · simp only [List.forall_mem_cons]
    exact ⟨hblank, hpackage, hnil⟩
  · exact hnil

/-- Nothing stands in a loop below lines that begin none. -/
theorem not_inLoop {before : List Bytes} (h : ∀ line ∈ before, ¬ Code.IsWhile line) (level : Nat) : ¬ Code.InLoop before level := by
  rintro ⟨above, head, between, rfl, hwhile, -⟩
  exact h head (by simp) hwhile

theorem nested_comments (before warnings : List Bytes) : Code.Nested before (warnings.map warningLine) := by
  refine Code.nested_of_marked ?_
  rw [List.forall_mem_map]
  have hmark : Code.Marked "# Warning: " := ⟨35, by decide⟩
  exact fun w _ => hmark.append_right _

variable {st : Settings} {source : Bytes} {u : CompiledUnit} {t : Tree} {scope : Scope} {body : List Stmt}
  {stmts : List Code.Stmt} {p : Progress}

/-- A printed line of the statements is one line. -/
theorem Compiled.oneLine [Library] (h : Compiled st source u t scope body stmts p) :
    ∀ line ∈ Code.Stmt.allLines Code.bodyLevel stmts, Python.OneLine line := by
  obtain ⟨body', hbody, hall⟩ := exists_body ((Typing.kind?_annotate scope t).trans h.program.1)
    (judges_printing st.mode h.parsed h.program.2)
  obtain rfl := Option.some.inj (h.read.symm.trans hbody)
  have hok := Stmt.areOk_lowerAll (isIdentifier_handle scope st.mode) body hall .start
  rw [h.lowered] at hok
  obtain ⟨ps, hps⟩ := Code.Stmt.exists_printAll Code.bodyLevel stmts hok
  rw [← hps.print]
  exact Python.Stmt.oneLine_printAll Code.bodyLevel ps hps.ok

/-- A text is refused, or compiled to the lines of a preamble, of its statements and of its warnings. A `break` or a
`continue` among them is always in the block of a `while` line just if no `break` and no `next` of the text stands outside
all loops. -/
theorem compile_jumps [Library] (st : Settings) (source : Bytes) : (∃ halt, (compile st source).outcome = .error halt) ∨
    ∃ u t scope body stmts p lines, (compile st source).outcome = .ok u ∧ Compiled st source u t scope body stmts p ∧
      lines = preamble scope st.filename p.usesPackage ++ Code.Stmt.allLines Code.bodyLevel stmts ++
        u.warnings.map warningLine ∧
      u.code = Code.unlines lines ∧ (∀ line ∈ Code.Stmt.allLines Code.bodyLevel stmts, Python.OneLine line) ∧
      (Code.Nested [] lines ↔ Stmt.anyJump body = false) := by
  cases hu : (compile st source).outcome with
  | error halt => exact .inl ⟨halt, rfl⟩
  | ok u =>
    obtain ⟨t, scope, body, stmts, p, h⟩ := exists_compiled hu
    refine .inr ⟨u, t, scope, body, stmts, p, _, rfl, h, rfl, h.code, h.oneLine, ?_⟩
    have hpreamble := plain_preamble scope st.filename p.usesPackage
    have hbefore : Code.Nested [] (preamble scope st.filename p.usesPackage) :=
      Code.nested_of_not_isJump fun line hline => (hpreamble line hline).1
    have hjumps := Stmt.anyJump_lowerAll (c := .of scope st.mode) body h.supported .start
    rw [h.lowered] at hjumps
    rw [Code.nested_append, Code.nested_append, and_iff_right hbefore, and_iff_left (nested_comments _ _), List.nil_append,
      Code.Stmt.nested_allLines, or_iff_right (not_inLoop (fun line hline => (hpreamble line hline).2) _), ← hjumps]

/-! ## A jump outside all loops -/

/-- A `break` that is all of a script. -/
def stray : Bytes := "break\n"

def strayTree : Tree :=
  .branch .program .unset [
    .branch .localDecls .unset [],
    .branch .stmtList .unset [.branch .stmtList .unset [], .branch .statement .unset [
      .branch .simpleStmt .unset [.leaf ⟨.kwBreak, "break", none, 1⟩], .branch .term .unset [.leaf ⟨.newline, "\n", none, 1⟩]]]]

theorem tree_stray : tree stray = .ok strayTree :=
  tree_eq_ok (by decide +kernel) (grown_of_grows rfl) rfl (by decide) (by decide)

/-- The lines above the `break`. -/
def strayAbove : List Bytes :=
  imports ++ [[], "def clscript(mode='al', DOLLARnargs=0, taskObj=None):", [],
    "\tVars = IrafParList(taskObj, 'clscript', 'clscript')",
    "\tVars.addParam(makeIrafPar(mode, datatype='string', name='mode', mode='h'))",
    "\tVars.addParam(makeIrafPar(DOLLARnargs, datatype='int', name='$nargs', mode='h'))", []]

def strayBreak : Bytes := "\tbreak"

/-- The `break` is compiled to a `break` in the body of the function, and no line above it begins a `while`. -/
theorem stray_break : ∃ u, (compile {} stray).outcome = .ok u ∧ u.code = Code.unlines (strayAbove ++ [strayBreak]) ∧
    Code.IsJump strayBreak ∧ (∀ line ∈ strayAbove, ¬ Code.IsWhile line) ∧ ¬ Code.Nested [] (strayAbove ++ [strayBreak]) := by
  obtain ⟨u, hu, hcode⟩ : ∃ u, (compileTree {} strayTree).outcome = .ok u ∧ u.code = Code.unlines (strayAbove ++ [strayBreak]) :=
    ⟨_, rfl, by decide +kernel⟩
  have hjump : Code.IsJump strayBreak := by decide
  have habove : ∀ line ∈ strayAbove, ¬ Code.IsWhile line := by decide
  exact ⟨u, (outcome_compile tree_stray).trans hu, hcode, hjump, habove, fun h => not_inLoop habove _ (h strayAbove strayBreak [] rfl hjump)⟩

end IrafCl.Script
