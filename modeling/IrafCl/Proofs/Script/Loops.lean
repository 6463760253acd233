import IrafCl.Proofs.Code.Running
import IrafCl.Proofs.Script.Lowering

/-!
# `for` loops in generated code

A `for` loop is run as its first assignment and a `while` that ends with the step. A `break` leaves the `while` before
the step, as it leaves the `for`. A `next` however becomes a `continue`, which goes back to the test at once: the step
is left out (`run_forLoop`). So the two loops agree where no `next` belongs to the loop, or where the loop has no step.
-/

namespace IrafCl.Script

open Code (Ending Machine andThen rounds)

/-! ## Statements without `next` -/

mutual

/-- Whether a `next` stands in a statement outside all loops in it. -/
def Stmt.hasNext : Stmt → Bool
  | .next => true
  | .labelled _ _ body => body.hasNext
  | .block body => Stmt.anyNext body
  | .branch _ yes => yes.hasNext
  | .branchElse _ yes no => yes.hasNext || no.hasNext
  | .switch _ clauses => Clause.anyNext clauses
  | _ => false

def Stmt.anyNext : List Stmt → Bool
  | [] => false
  | s :: ss => s.hasNext || Stmt.anyNext ss

def Clause.anyNext : List Clause → Bool
  | [] => false
  | .case _ body :: rest => body.hasNext || Clause.anyNext rest
  | .otherwise _ body :: rest => body.hasNext || Clause.anyNext rest

end

theorem hasNext_caseChain {otherwise : Option (List Code.Stmt)} (hotherwise : ∀ body ∈ otherwise, Code.Stmt.anyNext body = false)
    {cases : List Case} (hcases : ∀ x ∈ cases, Code.Stmt.anyNext x.2 = false) :
    (caseChain otherwise cases).hasNext = false := by
  induction cases with
  | nil =>
    cases otherwise with
    | none => rfl
    | some body => exact hotherwise body rfl
  | cons x cases ih =>
    rw [List.forall_mem_cons] at hcases
    rw [caseChain, Code.Chain.hasNext, hcases.1, ih hcases.2]
    rfl

theorem anyNext_switchChain {otherwise : Option (List Code.Stmt)} (hotherwise : ∀ body ∈ otherwise, Code.Stmt.anyNext body = false)
    {cases : List Case} (hcases : ∀ x ∈ cases, Code.Stmt.anyNext x.2 = false) :
    Code.Stmt.anyNext (switchChain otherwise cases) = false := by
  cases cases with
  | nil =>
    cases otherwise with
    | none => rfl
    | some body =>
      simp [switchChain, Code.Stmt.anyNext, Code.Stmt.hasNext, Code.Chain.hasNext, hotherwise body rfl]
  | cons x cases =>
    rw [List.forall_mem_cons] at hcases
    simp [switchChain, Code.Stmt.anyNext, Code.Stmt.hasNext, hcases.1, hasNext_caseChain hotherwise hcases.2]

theorem hasNext_elseChain {folds : Bool} {body : List Code.Stmt} (h : Code.Stmt.anyNext body = false) :
    (elseChain folds body).hasNext = false := by
  unfold elseChain
  split
  · simpa [Code.Stmt.anyNext, Code.Stmt.hasNext, Code.Chain.hasNext] using h
  · exact h

variable {c : Context}

/-- The statements of a pipeline are calls and deletions. -/
theorem StagesLower.anyNext {input : Option Bytes} {calls : List TaskCall} {p q : Progress} {code : List Code.Stmt}
    (h : StagesLower c input calls p code q) : Code.Stmt.anyNext code = false := by
  have hdrop (input : Option Bytes) : Code.Stmt.anyNext (dropPipe input) = false := by cases input <;> rfl
  induction h with
  | nil => rfl
  | @last input => exact hdrop input
  | @stage input _ _ _ _ code _ _ ih =>
    show Code.Stmt.anyNext (dropPipe input ++ code) = false
    rw [Code.anyNext_append, hdrop, ih]
    rfl

theorem anyNext_assignments (c : Context) (a : Option Assignment) :
    Code.Stmt.anyNext (a.toList.map (Assignment.lower c)) = false := by
  cases a with
  | none => rfl
  | some a =>
    obtain ⟨target, op, value⟩ := a
    cases op <;> rfl

mutual

theorem Stmt.Lowers.anyNext {s : Stmt} {p q : Progress} {code : List Code.Stmt} :
    s.Lowers c p code q → s.hasNext = false → Code.Stmt.anyNext code = false
  | .empty, _ => rfl
  | .labelled hbody, h => hbody.anyNext h
  | .assign, _ => anyNext_assignments c (some _)
  | .pipeline hstages, _ => hstages.anyNext
  | .leave, _ => rfl
  | .next, h => by cases h
  | .done, _ => rfl
  | .jump, _ => rfl
  | .block hbody, h => hbody.anyNext h
  | .branch hyes, h => by simp [Code.Stmt.anyNext, Code.Stmt.hasNext, Code.Chain.hasNext, hyes.anyNext h]
  | .branchElse hyes hno, h => by
    rw [Stmt.hasNext, Bool.or_eq_false_iff] at h
    simp [Code.Stmt.anyNext, Code.Stmt.hasNext, hyes.anyNext h.1, hasNext_elseChain (hno.anyNext h.2)]
  | .loop _, _ => rfl
  | .forLoop _, _ => by
    rw [Code.anyNext_append, anyNext_assignments]
    rfl
  | .switch hcases hdefault, h => anyNext_switchChain (hdefault.anyNext h) (hcases.anyNext h)

theorem Stmt.AllLower.anyNext {ss : List Stmt} {p q : Progress} {code : List Code.Stmt} :
    Stmt.AllLower c ss p code q → Stmt.anyNext ss = false → Code.Stmt.anyNext code = false
  | .nil, _ => rfl
  | .cons hs hss, h => by
    rw [Stmt.anyNext, Bool.or_eq_false_iff] at h
    rw [Code.anyNext_append, hs.anyNext h.1, hss.anyNext h.2]
    rfl

theorem Clause.CasesLower.anyNext {subject : Code.Expr} {seen : Bool} {clauses : List Clause} {p q : Progress}
    {cases : List Case} : Clause.CasesLower c subject seen clauses p cases q → Clause.anyNext clauses = false →
      ∀ x ∈ cases, Code.Stmt.anyNext x.2 = false
  | .nil, _ => List.forall_mem_nil _
  | .case hbody hrest, h => by
    rw [Clause.anyNext, Bool.or_eq_false_iff] at h
    exact List.forall_mem_cons.mpr ⟨hbody.anyNext h.1, hrest.anyNext h.2⟩
  | .otherwise hrest, h => by
    rw [Clause.anyNext, Bool.or_eq_false_iff] at h
    exact hrest.anyNext h.2

theorem Clause.DefaultLowers.anyNext {clauses : List Clause} {p q : Progress} {code : Option (List Code.Stmt)} :
    Clause.DefaultLowers c clauses p code q → Clause.anyNext clauses = false → ∀ body ∈ code, Code.Stmt.anyNext body = false
  | .nil, _ => by simp
  | .case hrest, h => by
    rw [Clause.anyNext, Bool.or_eq_false_iff] at h
    exact hrest.anyNext h.2
  | .earlier _ hrest, h => by
    rw [Clause.anyNext, Bool.or_eq_false_iff] at h
    exact hrest.anyNext h.2
  | .last _ hbody, h => by
    rw [Clause.anyNext, Bool.or_eq_false_iff] at h
    rintro _ ⟨⟩
    exact hbody.anyNext h.1

end

/-- A statement without `next` is lowered to statements without `continue`. -/
theorem Stmt.anyNext_lower (c : Context) (s : Stmt) (h : s.hasNext = false) (p : Progress) :
    Code.Stmt.anyNext ((s.lower c).run p).1 = false := (s.lowers c p).anyNext h

/-! ## What a `for` loop does -/

section
variable {σ : Type}

/-- What an optional test does. A missing one is true. -/
def runTest (m : Machine σ) (c : Context) : Option Expr → σ → Bool × σ
  | some e, s => m.test (e.lower c) s
  | none, s => (true, s)

/-- What an optional assignment does. -/
def runAssign (m : Machine σ) (c : Context) : Option Assignment → σ → σ
  | some a, s => m.act (a.lower c) s
  | none, s => s

/-- The rounds of a `for` loop: a test, the body, and then the step, which is its own after a `next`. A `break` or a
`return` ends the loop without a step. -/
def forRounds (test : σ → Bool × σ) (body : σ → Ending × σ) (step nextStep : σ → σ) : Nat → σ → Ending × σ
  | 0, s => (.running, s)
  | n + 1, s =>
    match test s with
    | (false, s) => (.passed, s)
    | (true, s) =>
      match body s with
      | (.passed, s) => forRounds test body step nextStep n (step s)
      | (.next, s) => forRounds test body step nextStep n (nextStep s)
      | (.leave, s) => (.passed, s)
      | (.done, s) => (.done, s)
      | (.running, s) => (.running, s)

/-- A loop whose body ends with the step leaves it out after a `continue`. -/
theorem rounds_andThen (test : σ → Bool × σ) (body : σ → Ending × σ) (step : σ → σ) (n : Nat) (s : σ) :
    rounds test (andThen body fun s => (.passed, step s)) n s = forRounds test body step id n s := by
  induction n generalizing s with
  | zero => rfl
  | succ n ih =>
    rw [rounds, forRounds]
    cases test s with
    | mk holds s =>
      cases holds with
      | false => rfl
      | true =>
        dsimp only [andThen]
        cases body s with
        | mk ending s => cases ending <;> first | rfl | exact ih _

/-- Where the body never ends in a `next`, it does not matter what follows one. -/
theorem forRounds_of_ne_next {test : σ → Bool × σ} {body : σ → Ending × σ} (hbody : ∀ s, (body s).1 ≠ .next)
    (step f g : σ → σ) (n : Nat) (s : σ) : forRounds test body step f n s = forRounds test body step g n s := by
  induction n generalizing s with
  | zero => rfl
  | succ n ih =>
    rw [forRounds, forRounds]
    cases test s with
    | mk holds s =>
      cases holds with
      | false => rfl
      | true =>
        have hne := hbody s
        dsimp only
        revert hne
        cases body s with
        | mk ending s =>
          intro hne
          cases ending with
          | passed => exact ih _
          | next => exact absurd rfl hne
          | leave => rfl
          | done => rfl
          | running => rfl

theorem runAll_assignments (m : Machine σ) (fuel : Nat) (c : Context) (a : Option Assignment) :
    Code.Stmt.runAll m fuel (a.toList.map (Assignment.lower c)) = fun s => (.passed, runAssign m c a s) := by
  cases a with
  | none => rfl
  | some a =>
    obtain ⟨target, op, value⟩ := a
    cases op <;> rfl

theorem test_testCode (m : Machine σ) (c : Context) (test : Option Expr) : m.test (testCode c test) = runTest m c test := by
  funext s
  cases test with
  | none => exact m.test_one s
  | some e => rfl

/-- The code of a `for` loop runs the loop without the steps that follow a `next`. -/
theorem runAll_lower_forLoop (m : Machine σ) (fuel : Nat) (c : Context) (first : Option Assignment) (test : Option Expr)
    (step : Option Assignment) (body : Stmt) (p : Progress) (s : σ) :
    Code.Stmt.runAll m fuel (((Stmt.forLoop first test step body).lower c).run p).1 s =
      forRounds (runTest m c test) (Code.Stmt.runAll m fuel ((body.lower c).run p).1) (runAssign m c step) id fuel
        (runAssign m c first s) := by
  rw [lower_forLoop]
  dsimp only
  rw [Code.runAll_append, runAll_assignments, Code.runAll_singleton]
  show Code.Stmt.run m fuel _ (runAssign m c first s) = _
  rw [Code.Stmt.run, Code.runAll_append, runAll_assignments, test_testCode]
  exact rounds_andThen _ _ _ _ _

/-- The code of a `for` loop runs the first assignment once, and then tests, bodies and steps in the order of the loop,
for any number of rounds and any machine. A `break` leaves the loop without a step. After a `next` the step is left
out too, against the meaning of the loop; so the code does what the loop means where no `next` in the body belongs to
the loop, or where there is no step. -/
theorem run_forLoop (m : Machine σ) (fuel : Nat) (c : Context) (first : Option Assignment) (test : Option Expr)
    (step : Option Assignment) (body : Stmt) (p : Progress) (s : σ) :
    Code.Stmt.runAll m fuel (((Stmt.forLoop first test step body).lower c).run p).1 s =
      forRounds (runTest m c test) (Code.Stmt.runAll m fuel ((body.lower c).run p).1) (runAssign m c step) id fuel
        (runAssign m c first s) ∧
    (body.hasNext = false ∨ step = none →
      Code.Stmt.runAll m fuel (((Stmt.forLoop first test step body).lower c).run p).1 s =
        forRounds (runTest m c test) (Code.Stmt.runAll m fuel ((body.lower c).run p).1) (runAssign m c step)
          (runAssign m c step) fuel (runAssign m c first s)) := by
  have hskips := runAll_lower_forLoop m fuel c first test step body p s
  refine ⟨hskips, ?_⟩
  rintro (hnext | rfl)
  · have hne := Code.Stmt.runAll_ne_next m fuel _ (body.anyNext_lower c hnext p)
    rw [hskips]
    exact forRounds_of_ne_next hne _ _ _ _ _
  · exact hskips

end

/-- The loop `for (i = 1; i < 5; i += 1)`. -/
def fromOneToFour (body : Stmt) : Stmt :=
  .forLoop (some ⟨.name "i", .set, .constant ⟨.integer, "1", [], 1⟩⟩)
    (some (.binary .lt (.name "i") (.constant ⟨.integer, "5", [], 1⟩)))
    (some ⟨.name "i", .add, .constant ⟨.integer, "1", [], 1⟩⟩) body

/-- The value of `i` in this loop: an assignment sets it to one, and an update adds one. -/
def counter : Machine Nat where
  test e i := (e.text = "1" || i < 5, i)
  act stmt i := match stmt with
    | .assign _ _ => 1
    | .update _ _ _ => i + 1
    | _ => i
  test_one _ := rfl

/-- With a body that is `next` alone, the loop counts to five and ends; its code never counts and never ends. -/
theorem run_forLoop_next :
    (∀ fuel, Code.Stmt.runAll counter fuel (((fromOneToFour .next).lower (.of .empty "proc")).run .start).1 0 =
      (.running, 1)) ∧
    forRounds (fun i => (decide (i < 5), i)) (Code.Stmt.runAll counter 5 ((Stmt.next.lower (.of .empty "proc")).run .start).1)
      (· + 1) (· + 1) 5 1 = (.passed, 5) := by
  refine ⟨fun fuel => ?_, by decide⟩
  have hbody : Code.Stmt.runAll counter fuel ((Stmt.next.lower (.of .empty "proc")).run .start).1 = fun s => (.next, s) := by
    rw [Stmt.lower]
    exact Code.runAll_singleton _ _ _
  rw [fromOneToFour, runAll_lower_forLoop, hbody]
  show forRounds _ _ _ _ fuel 1 = _
  generalize fuel = n
  induction n with
  | zero => rfl
  | succ n ih => exact ih

end IrafCl.Script
