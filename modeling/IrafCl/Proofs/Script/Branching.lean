import IrafCl.Proofs.Script.Loops
import IrafCl.Proofs.Text.Bytes

/-!
# Branches in generated code

An `if` chain runs the first branch whose test is true, or else the last one, whether the code folds it into one chain
or not. A `switch` compares a temporary with the constants of its cases and keeps the default for the end, so the order
of the clauses matters only among the cases. The temporary is the switch's own: no statement in its clauses binds it
(`Numbered`). Both run the statements that the script selects (`run_selected`).
-/

namespace IrafCl.Code

/-! ## Names that statements bind -/

/-- The name that an assignment to an expression binds. -/
def Expr.bound : Expr → List Bytes
  | .path [name] => [name]
  | _ => []

mutual

/-- The names that a statement binds or drops, with all statements in it. -/
def Stmt.bound : Stmt → List Bytes
  | .assign target _ | .update target _ _ => target.bound
  | .call names _ _ => names
  | .delete name => [name]
  | .leave | .next | .done => []
  | .loop _ body => Stmt.allBound body
  | .choose _ body rest => Stmt.allBound body ++ rest.bound

def Stmt.allBound : List Stmt → List Bytes
  | [] => []
  | stmt :: stmts => stmt.bound ++ Stmt.allBound stmts

def Chain.bound : Chain → List Bytes
  | .none => []
  | .elseIf _ body rest => Stmt.allBound body ++ rest.bound
  | .otherwise body => Stmt.allBound body

end

theorem allBound_append (xs ys : List Stmt) : Stmt.allBound (xs ++ ys) = Stmt.allBound xs ++ Stmt.allBound ys := by
  induction xs with
  | nil => rfl
  | cons x xs ih => rw [List.cons_append, Stmt.allBound, ih, Stmt.allBound, List.append_assoc]

end IrafCl.Code

namespace IrafCl.Script

open Code (Ending Machine)

/-! ## The temporaries of switches -/

theorem switchName_injective : Function.Injective switchName := fun _ _ h =>
  Bytes.ofNat_injective (List.append_cancel_left h)

theorem switchName_head (n : Nat) : (switchName n).head? = some 83 := rfl

/-- The switches in some code are numbered from one number to another: the code binds none of the temporaries that
switches before it have. -/
structure Numbered (p : Progress) (names : List Bytes) (q : Progress) : Prop where
  le : p.switches ≤ q.switches
  fresh : ∀ n, switchName n ∈ names → p.switches < n

section Numbered

variable {p q r : Progress} {names more : List Bytes}

theorem Numbered.append (h : Numbered p names q) (h' : Numbered q more r) : Numbered p (names ++ more) r := by
  refine ⟨Nat.le_trans h.le h'.le, fun n hn => ?_⟩
  rcases List.mem_append.mp hn with hn | hn
  · exact h.fresh n hn
  · exact Nat.lt_of_le_of_lt h.le (h'.fresh n hn)

/-- Names that begin otherwise are no temporaries of switches. -/
theorem numbered_of_head (hle : p.switches ≤ q.switches) (h : ∀ name ∈ names, name.head? ≠ some 83) : Numbered p names q :=
  ⟨hle, fun n hn => absurd (switchName_head n) (h _ hn)⟩

theorem numbered_nil (hle : p.switches ≤ q.switches) : Numbered p [] q := numbered_of_head hle nofun

end Numbered

variable {c : Context}

/-! ## Statements without switches -/

/-- A reference binds at most the name that marks the end of a file. -/
theorem head_of_mem_bound {path name : Bytes} (h : name ∈ (c.reference path).bound ∨ name ∈ (c.array path).bound) :
    name.head? ≠ some 83 := by
  have hne : Code.parts path ≠ [] := Bytes.pieces_ne_nil _ path
  have hunder {owner : Bytes} {parts : List Bytes} (h : parts ≠ []) : (under owner parts).bound = [] := by
    cases parts with
    | nil => exact absurd rfl h
    | cons part parts => rfl
  have hdeclared : (Context.declaredName (Code.parts path)).bound = [] := by
    unfold Context.declaredName
    split
    · split <;> rfl
    · exact hunder hne
  have hfree : ∀ name ∈ (c.freeName (Code.parts path)).bound, name = "EOF" := by
    intro name hname
    unfold Context.freeName at hname
    split at hname
    · next heof =>
      split at hname
      · next heq => rw [heq] at hname; exact List.mem_singleton.mp hname
      · cases hname
    · split at hname
      · cases hname
      · rw [hunder hne] at hname; cases hname
    · split at hname
      · cases hname
      · rw [hunder hne] at hname; cases hname
    · rw [hunder hne] at hname; cases hname
  have hname : name = "EOF" := by
    unfold Context.reference Context.array at h
    dsimp only at h
    split at h
    · rw [hdeclared, hunder hne] at h
      simp at h
    · exact hfree name (or_self_iff.mp h)
  rw [hname]
  decide

theorem numbered_assignment (a : Assignment) (p : Progress) : Numbered p (Code.Stmt.allBound [a.lower c]) p := by
  obtain ⟨target, op, value⟩ := a
  have htarget : ∀ name ∈ (target.lower c).bound, name.head? ≠ some 83 := by
    intro name hname
    cases target with
    | name path => exact head_of_mem_bound (.inl hname)
    | element path index => cases hname
  refine numbered_of_head (Nat.le_refl _) fun name hname => htarget name ?_
  cases op <;> simpa [Assignment.lower, Code.Stmt.allBound, Code.Stmt.bound] using hname

theorem numbered_assignments (a : Option Assignment) (p : Progress) :
    Numbered p (Code.Stmt.allBound (a.toList.map (Assignment.lower c))) p := by
  cases a with
  | none => exact numbered_nil (Nat.le_refl _)
  | some a => exact numbered_assignment a p

/-- The stages of a pipeline bind temporaries of their own, and a package definition its names. -/
theorem StagesLower.numbered {input : Option Bytes} {calls : List TaskCall} {p q : Progress} {code : List Code.Stmt}
    (h : StagesLower c input calls p code q) :
    (∀ pipe ∈ input, pipe.head? ≠ some 83) → Numbered p (Code.Stmt.allBound code) q := by
  have hcall {names : List Bytes} (hnames : ∀ name ∈ names, name.head? ≠ some 83) (extra : List Code.Arg) (t : TaskCall) :
      ∀ name ∈ (t.lower c names extra).bound, name.head? ≠ some 83 := by
    rw [TaskCall.lower, Code.Stmt.bound]
    split
    · decide
    · exact hnames
  have hdrop {input : Option Bytes} (hinput : ∀ pipe ∈ input, pipe.head? ≠ some 83) :
      ∀ name ∈ Code.Stmt.allBound (dropPipe input), name.head? ≠ some 83 := by
    cases input with
    | none => exact nofun
    | some pipe => simpa [dropPipe, Code.Stmt.allBound, Code.Stmt.bound] using hinput
  induction h with
  | nil => exact fun _ => numbered_nil (Nat.le_refl _)
  | last =>
    intro hinput
    rw [Code.Stmt.allBound]
    refine numbered_of_head (Nat.le_refl _) (List.forall_mem_append.mpr ⟨?_, hdrop hinput⟩)
    exact hcall (List.forall_mem_nil _) _ _
  | @stage input t next rest p code q _ ih =>
    intro hinput
    have hpipe : ∀ pipe ∈ some (pipeName (p.pipes + 1)), pipe.head? ≠ some 83 := by
      rintro _ ⟨⟩
      show some 80 ≠ some 83
      decide
    have hlater := ih hpipe
    rw [Code.Stmt.allBound, Code.allBound_append]
    refine (numbered_of_head (Nat.le_refl _) (hcall (by simpa using hpipe) _ t)).append
      ((numbered_of_head (Nat.le_refl _) (hdrop hinput)).append ⟨hlater.le, hlater.fresh⟩)

/-! ## Every statement -/

/-- The names that the cases of a switch bind, and those of its default. -/
def casesBound (otherwise : Option (List Code.Stmt)) (cases : List Case) : List Bytes :=
  cases.flatMap (fun x => Code.Stmt.allBound x.2) ++ otherwise.toList.flatMap Code.Stmt.allBound

theorem bound_caseChain (otherwise : Option (List Code.Stmt)) (cases : List Case) :
    (caseChain otherwise cases).bound = casesBound otherwise cases := by
  induction cases with
  | nil =>
    cases otherwise with
    | none => rfl
    | some body => simp [caseChain, casesBound, Code.Chain.bound]
  | cons x cases ih => simp [caseChain, casesBound, Code.Chain.bound, ih]

theorem bound_switchChain (otherwise : Option (List Code.Stmt)) (cases : List Case) :
    Code.Stmt.allBound (switchChain otherwise cases) = casesBound otherwise cases := by
  cases cases with
  | nil =>
    cases otherwise with
    | none => rfl
    | some body => simp [switchChain, casesBound, Code.Stmt.allBound, Code.Stmt.bound, Code.Chain.bound]
  | cons x cases =>
    simp [switchChain, casesBound, Code.Stmt.allBound, Code.Stmt.bound, bound_caseChain]

theorem bound_elseChain (folds : Bool) (body : List Code.Stmt) : (elseChain folds body).bound = Code.Stmt.allBound body := by
  unfold elseChain
  split
  · simp [Code.Stmt.allBound, Code.Stmt.bound, Code.Chain.bound]
  · rfl

theorem casesBound_eq (otherwise : Option (List Code.Stmt)) (cases : List Case) :
    casesBound otherwise cases = casesBound none cases ++ casesBound otherwise [] := by
  simp [casesBound]

/-- A switch has a number of its own. -/
theorem numbered_switch (p : Progress) : Numbered p [switchName (p.switches + 1)] p.inSwitch := by
  refine ⟨Nat.le_succ _, fun n hn => ?_⟩
  rw [switchName_injective (List.mem_singleton.mp hn)]
  exact Nat.lt_succ_self _

mutual

/-- Lowering a statement numbers the switches in it from where it begins. -/
theorem Stmt.Lowers.numbered {s : Stmt} {p q : Progress} {code : List Code.Stmt} :
    s.Lowers c p code q → Numbered p (Code.Stmt.allBound code) q
  | .empty => numbered_nil (Nat.le_refl _)
  | .labelled hbody => ⟨hbody.numbered.le, hbody.numbered.fresh⟩
  | .assign => numbered_assignment _ p
  | .pipeline hstages => hstages.numbered nofun
  | .leave => numbered_nil (Nat.le_refl _)
  | .next => numbered_nil (Nat.le_refl _)
  | .done => numbered_nil (Nat.le_refl _)
  | .jump => numbered_nil (Nat.le_refl _)
  | .block hbody => hbody.numbered
  | .branch hyes => by simpa [Code.Stmt.allBound, Code.Stmt.bound, Code.Chain.bound] using hyes.numbered
  | .branchElse hyes hno => by
    simpa [Code.Stmt.allBound, Code.Stmt.bound, bound_elseChain] using hyes.numbered.append hno.numbered
  | .loop hbody => by simpa [Code.Stmt.allBound, Code.Stmt.bound] using hbody.numbered
  | .forLoop hbody => by
    rw [Code.allBound_append]
    refine (numbered_assignments _ p).append ?_
    simpa [Code.Stmt.allBound, Code.Stmt.bound, Code.allBound_append] using hbody.numbered.append (numbered_assignments _ q)
  | .switch hcases hdefault => by
    show Numbered p ([switchName (p.switches + 1)] ++ Code.Stmt.allBound (switchChain _ _)) q
    rw [bound_switchChain, casesBound_eq]
    exact (numbered_switch p).append (hcases.numbered.append hdefault.numbered)

theorem Stmt.AllLower.numbered {ss : List Stmt} {p q : Progress} {code : List Code.Stmt} :
    Stmt.AllLower c ss p code q → Numbered p (Code.Stmt.allBound code) q
  | .nil => numbered_nil (Nat.le_refl _)
  | .cons hs hss => by
    rw [Code.allBound_append]
    exact hs.numbered.append hss.numbered

theorem Clause.CasesLower.numbered {subject : Code.Expr} {seen : Bool} {clauses : List Clause} {p q : Progress}
    {cases : List Case} : Clause.CasesLower c subject seen clauses p cases q → Numbered p (casesBound none cases) q
  | .nil => numbered_nil (Nat.le_refl _)
  | .case hbody hrest => by simpa [casesBound] using hbody.numbered.append hrest.numbered
  | .otherwise hrest => by
    have hnumbered := hrest.numbered
    exact ⟨by simpa using hnumbered.le, fun n hn => by simpa using hnumbered.fresh n hn⟩

theorem Clause.DefaultLowers.numbered {clauses : List Clause} {p q : Progress} {code : Option (List Code.Stmt)} :
    Clause.DefaultLowers c clauses p code q → Numbered p (casesBound code []) q
  | .nil => numbered_nil (Nat.le_refl _)
  | .case hrest => hrest.numbered
  | .earlier _ hrest => hrest.numbered
  | .last _ hbody => by simpa [casesBound] using hbody.numbered

end

theorem Clause.numbered_lowerCases (c : Context) (subject : Code.Expr) (clauses : List Clause) (seen : Bool) (p : Progress) :
    Numbered p (casesBound none ((Clause.lowerCases c subject seen clauses).run p).1)
      ((Clause.lowerCases c subject seen clauses).run p).2 :=
  (Clause.casesLower c subject seen clauses p).numbered

theorem Clause.numbered_lowerDefault (c : Context) (clauses : List Clause) (p : Progress) :
    Numbered p (casesBound ((Clause.lowerDefault c clauses).run p).1 []) ((Clause.lowerDefault c clauses).run p).2 :=
  (Clause.defaultLowers c clauses p).numbered

/-! ## What a script selects -/

/-- The first of some arms whose test is true, and the state after the tests up to it. -/
def firstArm {σ α β : Type} (test : α → σ → Bool × σ) : List (α × β) → σ → Option β × σ
  | [], x => (none, x)
  | (a, b) :: arms, x =>
    match test a x with
    | (true, x) => (some b, x)
    | (false, x) => firstArm test arms x

/-- The branches of an `if` chain with their tests. -/
def Stmt.arms : Stmt → List (Expr × Stmt)
  | .branch test yes => [(test, yes)]
  | .branchElse test yes no => (test, yes) :: no.arms
  | _ => []

/-- The last branch of an `if` chain, which has no test. -/
def Stmt.final : Stmt → Option Stmt
  | .branch _ _ => none
  | .branchElse _ _ no => no.final
  | s => some s

/-- What an `if` chain selects: the first branch whose test is true, or else the last one. -/
def Stmt.select {σ : Type} (test : Expr → σ → Bool × σ) (s : Stmt) (x : σ) : Option Stmt × σ :=
  match firstArm test s.arms x with
  | (some body, x) => (some body, x)
  | (none, x) => (s.final, x)

/-- The first clause of a switch with a constant that matches. -/
def Clause.matching (holds : SignedConstant → Bool) : List Clause → Option Stmt
  | [] => none
  | .case labels body :: rest => if labels.any holds then some body else Clause.matching holds rest
  | .otherwise _ _ :: rest => Clause.matching holds rest

/-- The default of a switch, wherever it stands. -/
def Clause.default? : List Clause → Option Stmt
  | [] => none
  | .case _ _ :: rest => Clause.default? rest
  | .otherwise _ body :: _ => some body

/-- What a switch selects: the first clause with a constant that matches, or else the default. -/
def Clause.select (holds : SignedConstant → Bool) (clauses : List Clause) : Option Stmt :=
  (Clause.matching holds clauses).or (Clause.default? clauses)

section Run

variable {σ ν : Type} {m : Machine σ} {fuel : Nat}

/-- The code of a statement that may be there, lowered where at least so many switches have their numbers. -/
inductive LoweredFrom (c : Context) (numbered : Nat) : Option Stmt → Option (List Code.Stmt) → Prop where
  | none : LoweredFrom c numbered none none
  | some {body : Stmt} {q : Progress} (h : numbered ≤ q.switches) :
      LoweredFrom c numbered (some body) (some ((body.lower c).run q).1)

theorem LoweredFrom.mono {c : Context} {a b : Nat} {selected : Option Stmt} {code : Option (List Code.Stmt)}
    (h : LoweredFrom c b selected code) (hle : a ≤ b) : LoweredFrom c a selected code := by
  cases h with
  | none => exact .none
  | some h => exact .some (Nat.le_trans hle h)

theorem LoweredFrom.or {c : Context} {numbered : Nat} {first second : Option Stmt} {code code' : Option (List Code.Stmt)}
    (h : LoweredFrom c numbered first code) (h' : LoweredFrom c numbered second code') :
    LoweredFrom c numbered (first.or second) (code.or code') := by
  cases h with
  | none => exact h'
  | some h => exact .some h

/-- From a state, some code runs as the code of the statement that is selected does from the state after the tests. If
none is selected, nothing more runs. -/
def RunsAs (m : Machine σ) (fuel : Nat) (c : Context) (numbered : Nat) (code : List Code.Stmt) (x : σ)
    (selected : Option Stmt × σ) : Prop :=
  ∃ chosen, LoweredFrom c numbered selected.1 chosen ∧
    Code.Stmt.runAll m fuel code x = Code.Stmt.runAll m fuel (chosen.getD []) selected.2

/-! ## `if` chains -/

/-- Folding an `if` into the chain does not change what is run. -/
theorem run_elseChain (folds : Bool) (body : List Code.Stmt) :
    (elseChain folds body).run m fuel = Code.Stmt.runAll m fuel body := by
  unfold elseChain
  split
  · next test yes rest =>
    funext x
    rw [Code.runAll_singleton, Code.Chain.run, Code.Stmt.run]
  · rfl

theorem runAll_choose {test : Code.Expr} {yes : List Code.Stmt} {rest : Code.Chain} {x x' : σ} {holds : Bool}
    (h : m.test test x = (holds, x')) : Code.Stmt.runAll m fuel [.choose test yes rest] x =
      if holds then Code.Stmt.runAll m fuel yes x' else rest.run m fuel x' := by
  rw [Code.runAll_singleton, Code.Stmt.run, h]
  cases holds <;> rfl

theorem select_branchElse {test : Expr → σ → Bool × σ} {e : Expr} {yes no : Stmt} {x x' : σ} {holds : Bool}
    (h : test e x = (holds, x')) :
    (Stmt.branchElse e yes no).select test x = if holds then (some yes, x') else no.select test x' := by
  rw [Stmt.select, Stmt.arms, firstArm, h]
  cases holds <;> rfl

/-- An `if` chain runs the branch that it selects. -/
theorem Stmt.runsAs_select (m : Machine σ) (fuel : Nat) (c : Context) : ∀ (s : Stmt) (p : Progress) (x : σ),
    RunsAs m fuel c p.switches ((s.lower c).run p).1 x (s.select (fun e => m.test (e.lower c)) x)
  | .branch test yes, p, x => by
    rw [Stmt.lower]
    show RunsAs m fuel c p.switches [.choose (test.lower c) ((yes.lower c).run p).1 .none] x _
    rw [Stmt.select, Stmt.arms, firstArm]
    cases htest : m.test (test.lower c) x with
    | mk holds x' =>
      cases holds with
      | true => exact ⟨_, .some (Nat.le_refl _), runAll_choose htest⟩
      | false => exact ⟨_, .none, runAll_choose htest⟩
  | .branchElse test yes no, p, x => by
    have hno := no.runsAs_select m fuel c ((yes.lower c).run p).2
    have hle := (yes.lowers c p).numbered.le
    rw [Stmt.lower]
    show RunsAs m fuel c p.switches [.choose (test.lower c) ((yes.lower c).run p).1
      (elseChain (isBranch no) ((no.lower c).run ((yes.lower c).run p).2).1)] x _
    cases htest : m.test (test.lower c) x with
    | mk holds x' =>
      rw [select_branchElse htest]
      cases holds with
      | true => exact ⟨_, .some (Nat.le_refl _), runAll_choose htest⟩
      | false =>
        obtain ⟨chosen, hchosen, hrun⟩ := hno x'
        exact ⟨chosen, hchosen.mono hle, ((runAll_choose htest).trans (congrFun (run_elseChain _ _) x')).trans hrun⟩
  | .empty, p, x => ⟨_, .some (Nat.le_refl _), rfl⟩
  | .labelled _ _ _, p, x => ⟨_, .some (Nat.le_refl _), rfl⟩
  | .assign _, p, x => ⟨_, .some (Nat.le_refl _), rfl⟩
  | .pipeline _, p, x => ⟨_, .some (Nat.le_refl _), rfl⟩
  | .leave, p, x => ⟨_, .some (Nat.le_refl _), rfl⟩
  | .next, p, x => ⟨_, .some (Nat.le_refl _), rfl⟩
  | .done, p, x => ⟨_, .some (Nat.le_refl _), rfl⟩
  | .jump _, p, x => ⟨_, .some (Nat.le_refl _), rfl⟩
  | .block _, p, x => ⟨_, .some (Nat.le_refl _), rfl⟩
  | .loop _ _, p, x => ⟨_, .some (Nat.le_refl _), rfl⟩
  | .forLoop _ _ _ _, p, x => ⟨_, .some (Nat.le_refl _), rfl⟩
  | .switch _ _, p, x => ⟨_, .some (Nat.le_refl _), rfl⟩

/-! ## Switches -/

/-- A machine whose names hold values. An assignment to a name stores a value, and whether a name is one of some constants
is whether its value is the same as that of one of them. -/
structure ValueMachine (σ ν : Type) extends Machine σ where
  value : Code.Expr → σ → ν × σ
  constant : Code.Expr → ν
  load : Bytes → σ → ν
  store : Bytes → ν → σ → σ
  same : ν → ν → Bool
  act_assign : ∀ name e x, act (.assign (.name name) e) x = store name (value e x).1 (value e x).2
  load_store : ∀ name v x, load name (store name v x) = v
  test_oneOf : ∀ name constants x,
    test (.oneOf (.name name) constants) x = (constants.any fun e => same (load name x) (constant e), x)

/-- Whether a value is the same as a constant. -/
def ValueMachine.holds (m : ValueMachine σ ν) (v : ν) (l : SignedConstant) : Bool := m.same v (m.constant l.lower)

/-- The code of a switch runs the first of its cases whose test is true, or else the default. -/
theorem runAll_switchChain (otherwise : Option (List Code.Stmt)) (cases : List Case) (x : σ) :
    Code.Stmt.runAll m fuel (switchChain otherwise cases) x =
      Code.Stmt.runAll m fuel (((firstArm m.test cases x).1.or otherwise).getD []) (firstArm m.test cases x).2 := by
  have hchain (cases : List Case) : ∀ x, (caseChain otherwise cases).run m fuel x =
      Code.Stmt.runAll m fuel (((firstArm m.test cases x).1.or otherwise).getD []) (firstArm m.test cases x).2 := by
    induction cases with
    | nil => intro x; cases otherwise <;> rfl
    | cons arm cases ih =>
      intro x
      obtain ⟨test, body⟩ := arm
      rw [caseChain, Code.Chain.run, firstArm]
      cases m.test test x with
      | mk holds x =>
        cases holds with
        | true => rfl
        | false => exact ih x
  cases cases with
  | nil =>
    cases otherwise with
    | none => rfl
    | some body => exact runAll_choose (m.test_one x)
  | cons arm cases =>
    obtain ⟨test, body⟩ := arm
    rw [switchChain, firstArm]
    cases htest : m.test test x with
    | mk holds x =>
      rw [runAll_choose htest]
      cases holds with
      | true => rfl
      | false => exact hchain cases x

/-- The first case that is true is the first clause with a constant that matches. -/
theorem firstArm_lowerCases (m : ValueMachine σ ν) (c : Context) (name : Bytes) (x : σ) :
    ∀ (clauses : List Clause) (seen : Bool) (p : Progress), ∃ chosen,
      LoweredFrom c p.switches (Clause.matching (m.holds (m.load name x)) clauses) chosen ∧
      firstArm m.test ((Clause.lowerCases c (.name name) seen clauses).run p).1 x = (chosen, x)
  | [], seen, p => ⟨none, .none, rfl⟩
  | .case labels body :: rest, seen, p => by
    obtain ⟨chosen, hchosen, hrest⟩ := firstArm_lowerCases m c name x rest seen ((body.lower c).run p).2
    have htest : m.test (.oneOf (.name name) (labels.map SignedConstant.lower)) x =
        (labels.any (m.holds (m.load name x)), x) := by
      rw [m.test_oneOf, List.any_map]
      rfl
    rw [Clause.lowerCases, Clause.matching]
    show ∃ chosen, _ ∧ firstArm m.test ((.oneOf (.name name) (labels.map SignedConstant.lower), ((body.lower c).run p).1) ::
      ((Clause.lowerCases c (.name name) seen rest).run ((body.lower c).run p).2).1) x = (chosen, x)
    rw [firstArm, htest]
    cases labels.any (m.holds (m.load name x)) with
    | true => exact ⟨_, .some (Nat.le_refl _), rfl⟩
    | false => exact ⟨chosen, hchosen.mono (body.lowers c p).numbered.le, hrest⟩
  | .otherwise line body :: rest, seen, p => by
    rw [Clause.lowerCases, Clause.matching]
    cases seen with
    | true => exact firstArm_lowerCases m c name x rest true (p.atDefault true line)
    | false => exact firstArm_lowerCases m c name x rest true p

/-- The only default is the one that is lowered. -/
theorem loweredFrom_default (c : Context) (p : Progress) : ∀ (clauses : List Clause), (clauses.filter isDefault).length ≤ 1 →
    LoweredFrom c p.switches (Clause.default? clauses) ((Clause.lowerDefault c clauses).run p).1
  | [], _ => .none
  | .case labels body :: rest, h => by
    rw [Clause.lowerDefault, Clause.default?]
    exact loweredFrom_default c p rest h
  | .otherwise line body :: rest, h => by
    have hrest : rest.any isDefault = false := by
      rw [List.filter_cons_of_pos rfl, List.length_cons] at h
      rw [List.any_eq_false]
      exact List.filter_eq_nil_iff.mp (List.length_eq_zero_iff.mp (by omega))
    rw [Clause.lowerDefault, Clause.default?, if_neg (by rw [hrest]; decide)]
    exact .some (Nat.le_refl _)

/-- A switch stores its value in the temporary and runs the clause that it selects. -/
theorem runsAs_switch (m : ValueMachine σ ν) (fuel : Nat) (c : Context) (subject : Expr) {clauses : List Clause}
    (hdefault : (clauses.filter isDefault).length ≤ 1) (p : Progress) {x x' : σ} {v : ν}
    (hvalue : m.value (subject.lower c) x = (v, x')) :
    RunsAs m.toMachine fuel c (p.switches + 1) (((Stmt.switch subject clauses).lower c).run p).1 x
      (Clause.select (m.holds v) clauses, m.store (switchName (p.switches + 1)) v x') := by
  have hassign : m.act (.assign (.name (switchName (p.switches + 1))) (subject.lower c)) x =
      m.store (switchName (p.switches + 1)) v x' := by
    rw [m.act_assign, hvalue]
  obtain ⟨chosen, hchosen, hcases⟩ := firstArm_lowerCases m c (switchName (p.switches + 1))
    (m.store (switchName (p.switches + 1)) v x') clauses false p.inSwitch
  rw [m.load_store] at hchosen
  have hle := (Clause.numbered_lowerCases c (.name (switchName (p.switches + 1))) clauses false p.inSwitch).le
  have hotherwise := (loweredFrom_default c (switchCases c clauses p).2 clauses hdefault).mono hle
  refine ⟨_, hchosen.or hotherwise, ?_⟩
  rw [lower_switch]
  show Code.Stmt.runAll m.toMachine fuel (switchChain _ (switchCases c clauses p).1) (m.act _ x) = _
  rw [hassign, runAll_switchChain, switchCases, hcases]

/-! ## The theorem -/

/-- Whatever the tests and the values of a machine are, and wherever a statement stands: an `if` chain runs the first
branch whose test is true, or else the last one. A switch with at most one default runs its first clause with a constant
that is the value of the switch, and the default, before or after the cases, just if there is none. The value is
in a temporary that no statement in the clauses binds, as deep as it may be. -/
theorem run_selected (σ ν : Type) (fuel : Nat) (c : Context) (p : Progress) :
    (∀ (m : Machine σ) (s : Stmt) (x : σ),
      RunsAs m fuel c p.switches ((s.lower c).run p).1 x (s.select (fun e => m.test (e.lower c)) x)) ∧
    (∀ (m : ValueMachine σ ν) (subject : Expr) (clauses : List Clause) (x x' : σ) (v : ν),
      (clauses.filter isDefault).length ≤ 1 → m.value (subject.lower c) x = (v, x') →
      RunsAs m.toMachine fuel c (p.switches + 1) (((Stmt.switch subject clauses).lower c).run p).1 x
        (Clause.select (m.holds v) clauses, m.store (switchName (p.switches + 1)) v x')) ∧
    ∀ (subject : Expr) (clauses : List Clause), ∃ chain,
      (((Stmt.switch subject clauses).lower c).run p).1 =
        .assign (.name (switchName (p.switches + 1))) (subject.lower c) :: chain ∧
      switchName (p.switches + 1) ∉ Code.Stmt.allBound chain := by
  refine ⟨fun m s x => s.runsAs_select m fuel c p x,
    fun m subject clauses x x' v hdefault hvalue => runsAs_switch m fuel c subject hdefault p hvalue,
    fun subject clauses => ?_⟩
  have hcases := Clause.numbered_lowerCases c (.name (switchName (p.switches + 1))) clauses false p.inSwitch
  have hdefault := Clause.numbered_lowerDefault c clauses (switchCases c clauses p).2
  refine ⟨_, congrArg Prod.fst (lower_switch c subject clauses p), fun hmem => ?_⟩
  rw [bound_switchChain, casesBound_eq] at hmem
  exact Nat.lt_irrefl _ ((hcases.append hdefault).fresh _ hmem)

end Run

/-- A machine that keeps the texts of what is assigned, the last first. -/
def texts : ValueMachine (List (Bytes × Bytes)) Bytes where
  test e x := match e with
    | .oneOf (.path [name]) constants => (constants.any fun e => (x.lookup name).getD [] == e.text, x)
    | e => (e.text != "0", x)
  act stmt x := match stmt with
    | .assign target value => (target.text, value.text) :: x
    | _ => x
  test_one _ := rfl
  value e x := (e.text, x)
  constant := Code.Expr.text
  load name x := (x.lookup name).getD []
  store name v x := (name, v) :: x
  same := (· == ·)
  act_assign name e x := by
    have hname : (Code.Expr.name name).text = name := Bytes.join_singleton "." name
    show ((Code.Expr.name name).text, e.text) :: x = (name, e.text) :: x
    rw [hname]
  load_store name v x := by rw [List.lookup_cons_self]; rfl
  test_oneOf _ _ _ := rfl

/-- The assignment of a digit to `i`. -/
def assignDigit (digit : Bytes) : Stmt := .assign ⟨.name "i", .set, .constant ⟨.integer, digit, [], 1⟩⟩

/-- The clauses `default: switch (7) { default: i = 5 }` and `case 1: i = 1`. -/
def defaultFirst : List Clause :=
  [.otherwise 1 (.switch (.constant ⟨.integer, "7", [], 1⟩) [.otherwise 1 (assignDigit "5")]),
    .case [⟨none, ⟨.integer, "1", [], 1⟩, 1⟩] (assignDigit "1")]

/-- Of these clauses the value 3 selects the default, whose switch has another temporary. -/
theorem run_selected_default : (defaultFirst.filter isDefault).length ≤ 1 ∧
    RunsAs texts.toMachine 1 (.of .empty "proc") 1
      (((Stmt.switch (.constant ⟨.integer, "3", [], 1⟩) defaultFirst).lower (.of .empty "proc")).run .start).1 []
      (some (.switch (.constant ⟨.integer, "7", [], 1⟩) [.otherwise 1 (assignDigit "5")]), [("SwitchVal1", "3")]) ∧
    Code.Stmt.runAll texts.toMachine 1
      (((Stmt.switch (.constant ⟨.integer, "3", [], 1⟩) defaultFirst).lower (.of .empty "proc")).run .start).1 [] =
      ((.passed, [("taskObj.i", "5"), ("SwitchVal2", "7"), ("SwitchVal1", "3")]) : Ending × List (Bytes × Bytes)) :=
  ⟨by decide, (run_selected _ _ 1 (.of .empty "proc") .start).2.1 texts (.constant ⟨.integer, "3", [], 1⟩) defaultFirst [] []
    "3" (by decide) rfl, by decide⟩

end IrafCl.Script
