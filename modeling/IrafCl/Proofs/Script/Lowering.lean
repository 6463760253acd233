import IrafCl.Script.Lowering.Stmt

/-!
# The rules of lowering

What a statement is lowered to, and what has been used up and found then: one rule for each form of a statement, for the
stages of a pipeline and for the clauses of a switch, of which the cases are lowered before the default wherever that stands.
Lowering follows the rules, and they give nothing else (`Stmt.lowers_iff`). So what holds of the code of every statement is
proved rule by rule.
-/

namespace IrafCl.Script

/-! ## Temporaries -/

/-- The temporary of a pipeline stage with a number. -/
def pipeName (n : Nat) : Bytes := "Pipe" ++ Bytes.ofNat n

/-- The temporary of the switch with a number. -/
def switchName (n : Nat) : Bytes := "SwitchVal" ++ Bytes.ofNat n

/-! ## Progress -/

namespace Progress

/-- A label has been dropped. -/
def warned (p : Progress) (label : Bytes) (line : Int) : Progress :=
  { p with warnings := p.warnings ++ [atLineText ("label '" ++ label ++ "' ignored") line] }

/-- A fault has been found. -/
def failed (p : Progress) (message : Bytes) (line : Int) : Progress :=
  { p with failures := p.failures ++ [.atLine .syntactic line message] }

/-- A stage of a pipeline has its temporary. -/
def inPipe (p : Progress) : Progress := { p with pipes := p.pipes + 1 }

/-- What lowering has used up once a switch has its temporary. -/
def inSwitch (p : Progress) : Progress := { p with switches := p.switches + 1 }

/-- A task has been called. -/
def called (p : Progress) (t : TaskCall) : Progress := { p with usesPackage := p.usesPackage || t.usesPackage }

/-- A default clause is a fault if there was one before. -/
def atDefault (p : Progress) (seen : Bool) (line : Int) : Progress :=
  if seen then p.failed "multiple default clauses in switch" line else p

section atDefault

variable (p : Progress) (seen : Bool) (line : Int)

@[simp] theorem pipes_atDefault : (p.atDefault seen line).pipes = p.pipes := by cases seen <;> rfl

@[simp] theorem switches_atDefault : (p.atDefault seen line).switches = p.switches := by cases seen <;> rfl

@[simp] theorem warnings_atDefault : (p.atDefault seen line).warnings = p.warnings := by cases seen <;> rfl

end atDefault

end Progress

/-! ## The rules -/

/-- The test of the code of a `for` loop. -/
def testCode (c : Context) : Option Expr → Code.Expr
  | some e => e.lower c
  | none => .number "1"

/-- The stages of a pipeline, of which the first reads from `input`, are lowered to statements. -/
inductive StagesLower (c : Context) : Option Bytes → List TaskCall → Progress → List Code.Stmt → Progress → Prop
  | nil {input p} : StagesLower c input [] p [] p
  | last {input t p} : StagesLower c input [t] p (t.lower c [] (inputArgs input) :: dropPipe input) (p.called t)
  | stage {input t next rest p code q} :
    StagesLower c (some (pipeName (p.pipes + 1))) (next :: rest) (p.inPipe.called t) code q →
    StagesLower c input (t :: next :: rest) p
      (t.lower c [pipeName (p.pipes + 1)] (inputArgs input ++ [.keyword "Stdout" (.number "1")]) :: (dropPipe input ++ code)) q

mutual

/-- A statement is lowered to statements, from the progress before it to the progress after it. -/
inductive Stmt.Lowers (c : Context) : Stmt → Progress → List Code.Stmt → Progress → Prop
  | empty {p} : Stmt.Lowers c .empty p [] p
  | labelled {label line body p code q} : Stmt.Lowers c body (p.warned label line) code q →
    Stmt.Lowers c (.labelled label line body) p code q
  | assign {a p} : Stmt.Lowers c (.assign a) p [a.lower c] p
  | pipeline {calls p code q} : StagesLower c none calls p code q → Stmt.Lowers c (.pipeline calls) p code q
  | leave {p} : Stmt.Lowers c .leave p [.leave] p
  | next {p} : Stmt.Lowers c .next p [.next] p
  | done {p} : Stmt.Lowers c .done p [.done] p
  | jump {line p} : Stmt.Lowers c (.jump line) p [] (p.failed "GOTO is not supported" line)
  | block {body p code q} : Stmt.AllLower c body p code q → Stmt.Lowers c (.block body) p code q
  | branch {test yes p code q} : Stmt.Lowers c yes p code q →
    Stmt.Lowers c (.branch test yes) p [.choose (test.lower c) code .none] q
  | branchElse {test yes no p code q rest r} : Stmt.Lowers c yes p code q → Stmt.Lowers c no q rest r →
    Stmt.Lowers c (.branchElse test yes no) p [.choose (test.lower c) code (elseChain (isBranch no) rest)] r
  | loop {test body p code q} : Stmt.Lowers c body p code q →
    Stmt.Lowers c (.loop test body) p [.loop (test.lower c) code] q
  | forLoop {first test step body p code q} : Stmt.Lowers c body p code q →
    Stmt.Lowers c (.forLoop first test step body) p (first.toList.map (Assignment.lower c) ++
      [.loop (testCode c test) (code ++ step.toList.map (Assignment.lower c))]) q
  | switch {subject clauses p cases q otherwise r} :
    Clause.CasesLower c (.name (switchName (p.switches + 1))) false clauses p.inSwitch cases q →
    Clause.DefaultLowers c clauses q otherwise r →
    Stmt.Lowers c (.switch subject clauses) p
      (.assign (.name (switchName (p.switches + 1))) (subject.lower c) :: switchChain otherwise cases) r

/-- The statements of a list are lowered one after the other. -/
inductive Stmt.AllLower (c : Context) : List Stmt → Progress → List Code.Stmt → Progress → Prop
  | nil {p} : Stmt.AllLower c [] p [] p
  | cons {s ss p code q rest r} : Stmt.Lowers c s p code q → Stmt.AllLower c ss q rest r →
    Stmt.AllLower c (s :: ss) p (code ++ rest) r

/-- The cases of a switch are lowered in order. The defaults among them are only looked at. -/
inductive Clause.CasesLower (c : Context) : Code.Expr → Bool → List Clause → Progress → List Case → Progress → Prop
  | nil {subject seen p} : Clause.CasesLower c subject seen [] p [] p
  | case {subject seen labels body rest p code q cases r} : Stmt.Lowers c body p code q →
    Clause.CasesLower c subject seen rest q cases r →
    Clause.CasesLower c subject seen (.case labels body :: rest) p
      ((.oneOf subject (labels.map SignedConstant.lower), code) :: cases) r
  | otherwise {subject seen line body rest p cases q} :
    Clause.CasesLower c subject true rest (p.atDefault seen line) cases q →
    Clause.CasesLower c subject seen (.otherwise line body :: rest) p cases q

/-- The last default of a switch is lowered. -/
inductive Clause.DefaultLowers (c : Context) : List Clause → Progress → Option (List Code.Stmt) → Progress → Prop
  | nil {p} : Clause.DefaultLowers c [] p none p
  | case {labels body rest p code q} : Clause.DefaultLowers c rest p code q →
    Clause.DefaultLowers c (.case labels body :: rest) p code q
  | earlier {line body rest p code q} : rest.any isDefault = true → Clause.DefaultLowers c rest p code q →
    Clause.DefaultLowers c (.otherwise line body :: rest) p code q
  | last {line body rest p code q} : rest.any isDefault = false → Stmt.Lowers c body p code q →
    Clause.DefaultLowers c (.otherwise line body :: rest) p (some code) q

end

/-! ## Lowering follows the rules -/

variable (c : Context)

theorem lower_forLoop (first : Option Assignment) (test : Option Expr) (step : Option Assignment) (body : Stmt)
    (p : Progress) : ((Stmt.forLoop first test step body).lower c).run p =
      (first.toList.map (Assignment.lower c) ++
        [.loop (testCode c test) (((body.lower c).run p).1 ++ step.toList.map (Assignment.lower c))],
        ((body.lower c).run p).2) := by
  rw [Stmt.lower.eq_def]
  cases test <;> rfl

/-- The cases of a switch, whose clauses are lowered from some point on. -/
def switchCases (clauses : List Clause) (p : Progress) : List Case × Progress :=
  (Clause.lowerCases c (.name (switchName (p.switches + 1))) false clauses).run p.inSwitch

theorem lower_switch (subject : Expr) (clauses : List Clause) (p : Progress) :
    ((Stmt.switch subject clauses).lower c).run p =
      (.assign (.name (switchName (p.switches + 1))) (subject.lower c) ::
          switchChain ((Clause.lowerDefault c clauses).run (switchCases c clauses p).2).1 (switchCases c clauses p).1,
        ((Clause.lowerDefault c clauses).run (switchCases c clauses p).2).2) := by
  rw [Stmt.lower]
  rfl

theorem stagesLower (calls : List TaskCall) : ∀ (input : Option Bytes) (p : Progress),
    StagesLower c input calls p ((lowerStages c input calls).run p).1 ((lowerStages c input calls).run p).2 := by
  induction calls with
  | nil => exact fun _ _ => .nil
  | cons t calls ih =>
    intro input p
    cases calls with
    | nil => exact .last
    | cons next rest => exact .stage (ih _ _)

mutual

theorem Stmt.lowers : ∀ (s : Stmt) (p : Progress), s.Lowers c p ((s.lower c).run p).1 ((s.lower c).run p).2
  | .empty, p => by
    rw [Stmt.lower]
    exact .empty
  | .labelled label line body, p => by
    rw [Stmt.lower]
    exact .labelled (body.lowers _)
  | .assign a, p => by
    rw [Stmt.lower]
    exact .assign
  | .pipeline calls, p => by
    rw [Stmt.lower]
    exact .pipeline (stagesLower c calls none p)
  | .leave, p => by
    rw [Stmt.lower]
    exact .leave
  | .next, p => by
    rw [Stmt.lower]
    exact .next
  | .done, p => by
    rw [Stmt.lower]
    exact .done
  | .jump line, p => by
    rw [Stmt.lower]
    exact .jump
  | .block body, p => by
    rw [Stmt.lower]
    exact .block (Stmt.allLower body p)
  | .branch test yes, p => by
    rw [Stmt.lower]
    exact .branch (yes.lowers p)
  | .branchElse test yes no, p => by
    rw [Stmt.lower]
    exact .branchElse (yes.lowers p) (no.lowers _)
  | .loop test body, p => by
    rw [Stmt.lower]
    exact .loop (body.lowers p)
  | .forLoop first test step body, p => by
    rw [lower_forLoop]
    exact .forLoop (body.lowers p)
  | .switch subject clauses, p => by
    rw [lower_switch]
    exact .switch (Clause.casesLower _ false clauses p.inSwitch) (Clause.defaultLowers clauses _)

theorem Stmt.allLower : ∀ (ss : List Stmt) (p : Progress),
    Stmt.AllLower c ss p ((Stmt.lowerAll c ss).run p).1 ((Stmt.lowerAll c ss).run p).2
  | [], p => by
    rw [Stmt.lowerAll]
    exact .nil
  | s :: ss, p => by
    rw [Stmt.lowerAll]
    exact .cons (s.lowers p) (Stmt.allLower ss _)

theorem Clause.casesLower (subject : Code.Expr) : ∀ (seen : Bool) (clauses : List Clause) (p : Progress),
    Clause.CasesLower c subject seen clauses p ((Clause.lowerCases c subject seen clauses).run p).1
      ((Clause.lowerCases c subject seen clauses).run p).2
  | seen, [], p => by
    rw [Clause.lowerCases]
    exact .nil
  | seen, .case labels body :: rest, p => by
    rw [Clause.lowerCases]
    exact .case (body.lowers p) (Clause.casesLower subject seen rest _)
  | seen, .otherwise line body :: rest, p => by
    have hrest := Clause.casesLower subject true rest (p.atDefault seen line)
    rw [Clause.lowerCases]
    cases seen with
    | true => exact .otherwise hrest
    | false => exact .otherwise hrest

theorem Clause.defaultLowers : ∀ (clauses : List Clause) (p : Progress),
    Clause.DefaultLowers c clauses p ((Clause.lowerDefault c clauses).run p).1 ((Clause.lowerDefault c clauses).run p).2
  | [], p => by
    rw [Clause.lowerDefault]
    exact .nil
  | .case labels body :: rest, p => by
    rw [Clause.lowerDefault]
    exact .case (Clause.defaultLowers rest p)
  | .otherwise line body :: rest, p => by
    rw [Clause.lowerDefault]
    split
    · next hany => exact .earlier hany (Clause.defaultLowers rest p)
    · next hany => exact .last (Bool.eq_false_iff.mpr hany) (body.lowers p)

end

/-! ## Nothing else does -/

variable {c}

/-- A step of lowering goes on with what the step before it gives. -/
theorem run_bind {α β : Type} {x : Lower α} {a : α} {p q : Progress} (h : x.run p = (a, q)) (f : α → Lower β) :
    (x >>= f).run p = (f a).run q := by
  show (f (x.run p).1).run (x.run p).2 = _
  rw [h]

theorem StagesLower.run_eq {input : Option Bytes} {calls : List TaskCall} {p q : Progress} {code : List Code.Stmt}
    (h : StagesLower c input calls p code q) : (lowerStages c input calls).run p = (code, q) := by
  induction h with
  | nil => rfl
  | last => rfl
  | @stage input t next rest p code q _ ih =>
    have hpipe : freshPipe.run p = (pipeName (p.pipes + 1), p.inPipe) := rfl
    have hcalled : (notePackage t).run p.inPipe = ((), p.inPipe.called t) := rfl
    rw [lowerStages, run_bind hpipe, run_bind hcalled, run_bind ih]
    rfl

mutual

theorem Stmt.Lowers.run_eq {s : Stmt} {p q : Progress} {code : List Code.Stmt} :
    s.Lowers c p code q → (s.lower c).run p = (code, q)
  | .empty => by
    rw [Stmt.lower]
    rfl
  | .labelled hbody => by
    rw [Stmt.lower]
    exact hbody.run_eq
  | .assign => by
    rw [Stmt.lower]
    rfl
  | .pipeline hstages => by
    rw [Stmt.lower]
    exact hstages.run_eq
  | .leave => by
    rw [Stmt.lower]
    rfl
  | .next => by
    rw [Stmt.lower]
    rfl
  | .done => by
    rw [Stmt.lower]
    rfl
  | .jump => by
    rw [Stmt.lower]
    rfl
  | .block hbody => by
    rw [Stmt.lower]
    exact hbody.run_eq
  | .branch hyes => by
    rw [Stmt.lower, run_bind hyes.run_eq]
    rfl
  | .branchElse hyes hno => by
    rw [Stmt.lower, run_bind hyes.run_eq, run_bind hno.run_eq]
    rfl
  | .loop hbody => by
    rw [Stmt.lower, run_bind hbody.run_eq]
    rfl
  | .forLoop hbody => by rw [lower_forLoop, hbody.run_eq]
  | .switch hcases hdefault => by rw [lower_switch, switchCases, hcases.run_eq, hdefault.run_eq]

theorem Stmt.AllLower.run_eq {ss : List Stmt} {p q : Progress} {code : List Code.Stmt} :
    Stmt.AllLower c ss p code q → (Stmt.lowerAll c ss).run p = (code, q)
  | .nil => by
    rw [Stmt.lowerAll]
    rfl
  | .cons hs hss => by
    rw [Stmt.lowerAll, run_bind hs.run_eq, run_bind hss.run_eq]
    rfl

theorem Clause.CasesLower.run_eq {subject : Code.Expr} {seen : Bool} {clauses : List Clause} {p q : Progress}
    {cases : List Case} : Clause.CasesLower c subject seen clauses p cases q →
      (Clause.lowerCases c subject seen clauses).run p = (cases, q)
  | .nil => by
    rw [Clause.lowerCases]
    rfl
  | .case hbody hrest => by
    rw [Clause.lowerCases, run_bind hbody.run_eq, run_bind hrest.run_eq]
    rfl
  | .otherwise hrest => by
    have hrun := hrest.run_eq
    rw [Clause.lowerCases]
    cases seen with
    | true => exact hrun
    | false => exact hrun

theorem Clause.DefaultLowers.run_eq {clauses : List Clause} {p q : Progress} {code : Option (List Code.Stmt)} :
    Clause.DefaultLowers c clauses p code q → (Clause.lowerDefault c clauses).run p = (code, q)
  | .nil => by
    rw [Clause.lowerDefault]
    rfl
  | .case hrest => by
    rw [Clause.lowerDefault]
    exact hrest.run_eq
  | .earlier hany hrest => by
    rw [Clause.lowerDefault, if_pos hany]
    exact hrest.run_eq
  | .last hany hbody => by
    rw [Clause.lowerDefault, if_neg (Bool.eq_false_iff.mp hany), run_bind hbody.run_eq]
    rfl

end

/-- A statement is lowered to what the rules give for it. -/
theorem Stmt.lowers_iff {s : Stmt} {p q : Progress} {code : List Code.Stmt} :
    s.Lowers c p code q ↔ (s.lower c).run p = (code, q) := by
  refine ⟨fun h => h.run_eq, fun h => ?_⟩
  have hlowers := s.lowers c p
  rwa [h] at hlowers

end IrafCl.Script
