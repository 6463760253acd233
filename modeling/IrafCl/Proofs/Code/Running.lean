import IrafCl.Code.Stmt

/-!
# Running generated code

What tests and simple statements do is left to a machine; what statements do together follows from their form. A loop is
given a number of rounds, and a run that uses them up stops where it is. So runs that are equal for every number of
rounds do the same things in the same order whether they end or not, and all the more if the state of the machine
records what it does.
-/

namespace IrafCl.Code

/-- How the run of statements ends: at the last one, at a `break`, a `continue` or a `return`, or not within the rounds. -/
inductive Ending where
  | passed
  | leave
  | next
  | done
  | running
  deriving DecidableEq, Repr

/-- What tests and simple statements do to a state. The number 1 is true. -/
structure Machine (σ : Type) where
  test : Expr → σ → Bool × σ
  act : Stmt → σ → σ
  test_one : ∀ s, test (.number "1") s = (true, s)

variable {σ : Type}

/-- One part after another, unless the first part ends early. -/
def andThen (first second : σ → Ending × σ) (s : σ) : Ending × σ :=
  match first s with
  | (.passed, s) => second s
  | (.leave, s) => (.leave, s)
  | (.next, s) => (.next, s)
  | (.done, s) => (.done, s)
  | (.running, s) => (.running, s)

/-- The rounds of a loop: a `break` leaves it, and a `continue` goes to the next test. -/
def rounds (test : σ → Bool × σ) (body : σ → Ending × σ) : Nat → σ → Ending × σ
  | 0, s => (.running, s)
  | n + 1, s =>
    match test s with
    | (false, s) => (.passed, s)
    | (true, s) =>
      match body s with
      | (.passed, s) => rounds test body n s
      | (.next, s) => rounds test body n s
      | (.leave, s) => (.passed, s)
      | (.done, s) => (.done, s)
      | (.running, s) => (.running, s)

mutual

/-- The run of a statement. Each loop in it is given the same number of rounds. -/
def Stmt.run (m : Machine σ) (fuel : Nat) : Stmt → σ → Ending × σ
  | .leave, s => (.leave, s)
  | .next, s => (.next, s)
  | .done, s => (.done, s)
  | .loop test body, s => rounds (m.test test) (Stmt.runAll m fuel body) fuel s
  | .choose test body rest, s =>
    match m.test test s with
    | (true, s) => Stmt.runAll m fuel body s
    | (false, s) => rest.run m fuel s
  | .assign target value, s => (.passed, m.act (.assign target value) s)
  | .update target op value, s => (.passed, m.act (.update target op value) s)
  | .call names fn args, s => (.passed, m.act (.call names fn args) s)
  | .delete name, s => (.passed, m.act (.delete name) s)

def Stmt.runAll (m : Machine σ) (fuel : Nat) : List Stmt → σ → Ending × σ
  | [], s => (.passed, s)
  | stmt :: stmts, s => andThen (stmt.run m fuel) (Stmt.runAll m fuel stmts) s

def Chain.run (m : Machine σ) (fuel : Nat) : Chain → σ → Ending × σ
  | .none, s => (.passed, s)
  | .elseIf test body rest, s =>
    match m.test test s with
    | (true, s) => Stmt.runAll m fuel body s
    | (false, s) => rest.run m fuel s
  | .otherwise body, s => Stmt.runAll m fuel body s

end

/-! ## Sequences -/

theorem andThen_passed (first : σ → Ending × σ) : andThen first (fun s => (.passed, s)) = first := by
  funext s
  unfold andThen
  split <;> next h => exact h.symm

theorem andThen_assoc (a b c : σ → Ending × σ) : andThen (andThen a b) c = andThen a (andThen b c) := by
  funext s
  unfold andThen
  cases a s with
  | mk ending s => cases ending <;> rfl

theorem runAll_append (m : Machine σ) (fuel : Nat) (xs ys : List Stmt) :
    Stmt.runAll m fuel (xs ++ ys) = andThen (Stmt.runAll m fuel xs) (Stmt.runAll m fuel ys) := by
  induction xs with
  | nil => rfl
  | cons x xs ih =>
    funext s
    rw [List.cons_append, Stmt.runAll, ih, ← andThen_assoc]
    rfl

theorem runAll_singleton (m : Machine σ) (fuel : Nat) (stmt : Stmt) : Stmt.runAll m fuel [stmt] = stmt.run m fuel := by
  funext s
  rw [Stmt.runAll]
  exact congrFun (andThen_passed _) s

/-! ## Statements without `continue` -/

mutual

/-- Whether a `continue` stands in a statement outside all loops in it. -/
def Stmt.hasNext : Stmt → Bool
  | .next => true
  | .choose _ body rest => Stmt.anyNext body || rest.hasNext
  | _ => false

def Stmt.anyNext : List Stmt → Bool
  | [] => false
  | stmt :: stmts => stmt.hasNext || Stmt.anyNext stmts

def Chain.hasNext : Chain → Bool
  | .none => false
  | .elseIf _ body rest => Stmt.anyNext body || rest.hasNext
  | .otherwise body => Stmt.anyNext body

end

theorem anyNext_append (xs ys : List Stmt) : Stmt.anyNext (xs ++ ys) = (Stmt.anyNext xs || Stmt.anyNext ys) := by
  induction xs with
  | nil => rfl
  | cons x xs ih => rw [List.cons_append, Stmt.anyNext, ih, Stmt.anyNext, Bool.or_assoc]

theorem andThen_ne_next {first second : σ → Ending × σ} (hfirst : ∀ s, (first s).1 ≠ .next)
    (hsecond : ∀ s, (second s).1 ≠ .next) (s : σ) : (andThen first second s).1 ≠ .next := by
  have h := hfirst s
  unfold andThen
  revert h
  cases first s with
  | mk ending s =>
    intro h
    cases ending with
    | passed => exact hsecond s
    | next => exact absurd rfl h
    | leave => nofun
    | done => nofun
    | running => nofun

/-- A loop takes every `continue` in its body for itself. -/
theorem rounds_ne_next (test : σ → Bool × σ) (body : σ → Ending × σ) (n : Nat) (s : σ) : (rounds test body n s).1 ≠ .next := by
  induction n generalizing s with
  | zero => nofun
  | succ n ih =>
    rw [rounds]
    split
    · nofun
    · split
      · exact ih _
      · exact ih _
      all_goals nofun

mutual

theorem Stmt.run_ne_next (m : Machine σ) (fuel : Nat) : ∀ (stmt : Stmt), stmt.hasNext = false → ∀ s, (stmt.run m fuel s).1 ≠ .next
  | .next, h, s => by cases h
  | .loop test body, h, s => by
    rw [Stmt.run]
    exact rounds_ne_next _ _ _ _
  | .choose test body rest, h, s => by
    rw [Stmt.hasNext, Bool.or_eq_false_iff] at h
    rw [Stmt.run]
    split
    · exact Stmt.runAll_ne_next m fuel body h.1 _
    · exact rest.run_ne_next m fuel h.2 _
  | .leave, _, s => nofun
  | .done, _, s => nofun
  | .assign _ _, _, s => nofun
  | .update _ _ _, _, s => nofun
  | .call _ _ _, _, s => nofun
  | .delete _, _, s => nofun

theorem Stmt.runAll_ne_next (m : Machine σ) (fuel : Nat) :
    ∀ (stmts : List Stmt), Stmt.anyNext stmts = false → ∀ s, (Stmt.runAll m fuel stmts s).1 ≠ .next
  | [], _, s => nofun
  | stmt :: stmts, h, s => by
    rw [Stmt.anyNext, Bool.or_eq_false_iff] at h
    rw [Stmt.runAll]
    exact andThen_ne_next (stmt.run_ne_next m fuel h.1) (Stmt.runAll_ne_next m fuel stmts h.2) s

theorem Chain.run_ne_next (m : Machine σ) (fuel : Nat) : ∀ (chain : Chain), chain.hasNext = false → ∀ s, (chain.run m fuel s).1 ≠ .next
  | .none, _, s => nofun
  | .elseIf test body rest, h, s => by
    rw [Chain.hasNext, Bool.or_eq_false_iff] at h
    rw [Chain.run]
    split
    · exact Stmt.runAll_ne_next m fuel body h.1 _
    · exact rest.run_ne_next m fuel h.2 _
  | .otherwise body, h, s => by
    rw [Chain.run]
    exact Stmt.runAll_ne_next m fuel body h s

end

end IrafCl.Code
