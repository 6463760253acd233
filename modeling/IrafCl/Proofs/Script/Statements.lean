import IrafCl.Proofs.Code.Blocks
import IrafCl.Proofs.Python.Sums
import IrafCl.Proofs.Script.Lowering
import IrafCl.Proofs.Script.Precedence
import IrafCl.Proofs.Script.Programs

/-!
# Statements are printed as Python statements

Every part of a statement is printed as Python has it: a target as something to assign to, a value and a test as an
expression, a task as a call of which each argument is one. So are the statements that a statement is lowered to, block
by block (`Stmt.Lowers.areOk`).
-/

namespace IrafCl.Script

open Python (isIdentifier isExpr isTarget operandLevel signLevel Reads Unnegated)
open Code (Prints IsPath)

variable {c : Context}

theorem printed_constantArg {key : Option Bytes} {k : Constant} (hkey : ∀ name ∈ key, Lexicon.name.Matches name)
    (hk : k.IsLexed) : (Arg.mk key (.constant k)).Printed c := by
  have hprints : (Expr.constant k).Printed c operandLevel := prints_constant hk
  exact ⟨hprints.weaken (by decide), hkey⟩

/-- What is printed for the parts of statements. -/
def printing (c : Context) : Judgement where
  expr e := e.Printed c 0 ∧ Unnegated (e.lower c).text
  subscripts es := es ≠ [] ∧ ∀ e ∈ es, IsIndex c e
  arg a := a.Printed c
  redirection op := isIdentifier (redirectionKey op) = true
  constant k hk := by
    have hprints : (Expr.constant k).Printed c operandLevel := prints_constant hk
    exact ⟨hprints.weaken (by decide), hprints.reads.unnegated (by decide)⟩
  constantArg _ _ := printed_constantArg

/-! ## Assignments -/

theorem isExpr_of_reads {n : Nat} {s : Bytes} {e : Python.Tree} (h : Reads n s e) : isExpr s = true := by
  rw [isExpr, h.read_eq]
  rfl

/-- A target where it stands as a value. -/
def Target.expr : Target → Expr
  | .name path => .name path
  | .element path index => .element path index

theorem Target.lower_expr (t : Target) : t.expr.lower c = t.lower c := by
  cases t <;> rw [Target.expr, Expr.lower, Target.lower]

theorem isAssignable_target (c : Context) (t : Target) : (t.expr.leftNested.meaning c).isAssignable = true := by
  cases t with
  | name path =>
    rw [Target.expr, Expr.leftNested, Expr.meaning]
    unfold referenceTree
    split <;> rfl
  | element path index => rw [Target.expr, Expr.leftNested, Expr.meaning]; rfl

/-- A target is printed as an operand, with each of its subscripts. -/
theorem printed_target (hc : isIdentifier c.handle = true) {J : Judgement}
    (hindex : ∀ es, J.subscripts es → es ≠ [] ∧ ∀ e ∈ es, IsIndex c e) {t : Target} (h : t.Holds J) :
    t.expr.Printed c operandLevel := by
  cases t with
  | name path => exact prints_reference hc h
  | element path index =>
    obtain ⟨hne, hall⟩ := hindex index h.2
    exact printed_element hc h.1 hne hall

/-- A target is printed as an operand that can be assigned to. -/
theorem reads_target (hc : isIdentifier c.handle = true) {t : Target} (h : t.Holds (printing c)) :
    ∃ x, Reads operandLevel (t.lower c).text x ∧ x.isAssignable = true := by
  have hprinted := printed_target hc (fun _ hes => hes) h
  unfold Expr.Printed at hprinted
  rw [t.lower_expr] at hprinted
  exact ⟨_, hprinted.reads, isAssignable_target c t⟩

theorem isOk_assignment (hc : isIdentifier c.handle = true) {a : Assignment} (h : a.Holds (printing c)) : (a.lower c).IsOk := by
  obtain ⟨x, htarget, hassignable⟩ := reads_target hc h.1
  obtain ⟨hvalue, hunnegated⟩ := h.2
  have hisTarget : isTarget (a.target.lower c).text = true := by rw [isTarget, htarget.read_eq]; exact hassignable
  have hisExpr : isExpr (a.value.lower c).text = true := isExpr_of_reads hvalue.reads
  obtain ⟨target, op, value⟩ := a
  cases op with
  | set => exact ⟨hisTarget, hisExpr⟩
  | add => exact ⟨hisTarget, rfl, hisExpr⟩
  | sub => exact ⟨hisTarget, rfl, hisExpr⟩
  | mul => exact ⟨hisTarget, rfl, hisExpr⟩
  | div =>
    refine ⟨hisTarget, ?_, hisExpr⟩
    split <;> rfl
  | append =>
    obtain ⟨e, he⟩ := htarget.after hvalue.reads hunnegated
    refine ⟨hisTarget, ?_⟩
    rw [Code.Expr.text]
    exact isExpr_of_reads he

/-! ## Tasks -/

theorem prints_name {name : Bytes} (h : isIdentifier name = true) : Prints operandLevel (Code.Expr.name name).text (.path [name]) :=
  Code.prints_path ⟨by simp, by simpa using h⟩

theorem prints_arg {a : Arg} (h : a.Printed c) : (a.lower c).Prints := ⟨a.item c, h.item, a.all_item c⟩

theorem prints_redirection {r : Redirection} (h : r.Holds (printing c)) : (r.lower c).Prints :=
  Code.prints_keyword h.1 h.2.1

theorem lowerAll_eq_map (c : Context) (as : List Arg) : Arg.lowerAll c as = as.map (Arg.lower c) := by
  induction as with
  | nil => rfl
  | cons a as ih => rw [Arg.lowerAll, ih, List.map_cons]

theorem mem_lowerAll {as : List Arg} {x : Code.Arg} (h : x ∈ Arg.lowerAll c as) : ∃ a ∈ as, a.lower c = x := by
  rw [lowerAll_eq_map] at h
  exact List.mem_map.mp h

theorem prints_packageArgs (t : TaskCall) : ∀ a ∈ t.packageArgs, a.Prints := by
  have hnames : ∀ n ∈ packageNames, isIdentifier n = true := by decide
  intro a ha
  unfold TaskCall.packageArgs at ha
  split at ha
  · obtain ⟨n, hn, rfl⟩ := List.mem_map.mp ha
    exact Code.prints_keyword (hnames n hn) ((prints_name (hnames n hn)).weaken (by decide))
  · cases ha

theorem isPath_taskPath {task : Bytes} (h : Lexicon.name.Matches task) : IsPath (taskPath task) := by
  unfold taskPath
  repeat' split
  all_goals first | decide | exact isPath_functionPath h

theorem isOk_taskCall {t : TaskCall} (h : t.Holds (printing c)) {names : List Bytes}
    (hnames : ∀ name ∈ names, isIdentifier name = true) {extra : List Code.Arg} (hextra : ∀ a ∈ extra, a.Prints) :
    (t.lower c names extra).IsOk := by
  refine Code.isOk_call ?_ (isPath_taskPath h.task) ?_
  · split
    · decide
    · exact hnames
  · simp only [List.forall_mem_append]
    refine ⟨⟨⟨fun x hx => ?_, fun x hx => ?_⟩, prints_packageArgs t⟩, hextra⟩
    · obtain ⟨a, ha, rfl⟩ := mem_lowerAll hx
      exact prints_arg (h.args a ha)
    · obtain ⟨r, hr, rfl⟩ := List.mem_map.mp hx
      exact prints_redirection (h.redirections r hr)

/-- A word with a number after it is a name. -/
theorem isIdentifier_numbered {word : Bytes} (h : isIdentifier word = true) (n : Nat) :
    isIdentifier (word ++ Bytes.ofNat n) = true := by
  have hfree : Code.keywords.all (fun k => k.all fun b => !Bytes.isDigit b) = true := by decide
  have hdigits := (Python.digits_ofNat n).1
  have hkeyword : word ++ Bytes.ofNat n ∉ Code.keywords := by
    intro hmem
    obtain ⟨b, hb⟩ := List.exists_mem_of_ne_nil _ (Bytes.ofNat_ne_nil n)
    have hdigit := List.all_eq_true.mp (List.all_eq_true.mp hfree _ hmem) b (List.mem_append_right _ hb)
    rw [hdigits b hb] at hdigit
    cases hdigit
  simp only [isIdentifier, Bool.and_eq_true, Bool.not_eq_true', List.isEmpty_eq_false_iff] at h
  obtain ⟨⟨⟨hne, hhead⟩, -⟩, hbytes⟩ := h
  simp only [isIdentifier, Bool.and_eq_true, Bool.not_eq_true', List.isEmpty_eq_false_iff]
  refine ⟨⟨⟨by simp [hne], ?_⟩, by simpa using hkeyword⟩, ?_⟩
  · rw [List.head?_append_of_ne_nil _ hne]
    exact hhead
  · rw [List.all_append, hbytes, Bool.true_and, List.all_eq_true]
    intro b hb
    simp [hdigits b hb]

theorem prints_inputArgs {input : Option Bytes} (h : ∀ pipe ∈ input, isIdentifier pipe = true) :
    ∀ a ∈ inputArgs input, a.Prints := by
  cases input with
  | none => exact nofun
  | some pipe =>
    have hpipe : (Code.Arg.keyword "Stdin" (.name pipe)).Prints :=
      Code.prints_keyword (by decide) ((prints_name (h pipe rfl)).weaken (by decide))
    simpa [inputArgs] using hpipe

theorem areOk_dropPipe {input : Option Bytes} (h : ∀ pipe ∈ input, isIdentifier pipe = true) :
    ∀ s ∈ dropPipe input, s.IsOk := by
  cases input with
  | none => exact nofun
  | some pipe =>
    have hpipe : (Code.Stmt.delete pipe).IsOk := h pipe rfl
    simpa [dropPipe] using hpipe

/-- The stages of a pipeline are calls, and deletions of what they read. -/
theorem StagesLower.areOk {input : Option Bytes} {calls : List TaskCall} {p q : Progress} {code : List Code.Stmt}
    (h : StagesLower c input calls p code q) : (∀ t ∈ calls, t.Holds (printing c)) →
      (∀ pipe ∈ input, isIdentifier pipe = true) → ∀ s ∈ code, s.IsOk := by
  induction h with
  | nil => exact fun _ _ => List.forall_mem_nil _
  | last =>
    intro hcalls hinput
    rw [List.forall_mem_singleton] at hcalls
    exact List.forall_mem_cons.mpr ⟨isOk_taskCall hcalls (List.forall_mem_nil _) (prints_inputArgs hinput), areOk_dropPipe hinput⟩
  | @stage input t next rest p code q _ ih =>
    intro hcalls hinput
    rw [List.forall_mem_cons] at hcalls
    have hpipe : isIdentifier (pipeName (p.pipes + 1)) = true := isIdentifier_numbered (by decide) _
    have hone : (Code.Arg.keyword "Stdout" (.number "1")).Prints :=
      Code.prints_keyword (by decide) ((Code.prints_number (Python.numeral_ofNat 1)).weaken (by decide))
    have hextra : ∀ a ∈ inputArgs input ++ [Code.Arg.keyword "Stdout" (.number "1")], a.Prints :=
      List.forall_mem_append.mpr ⟨prints_inputArgs hinput, by simpa using hone⟩
    refine List.forall_mem_cons.mpr ⟨isOk_taskCall hcalls.1 (by simpa using hpipe) hextra, ?_⟩
    exact List.forall_mem_append.mpr ⟨areOk_dropPipe hinput, ih hcalls.2 (by simpa using hpipe)⟩

/-! ## Tests -/

theorem isTest_of_printed {e : Expr} (h : e.Printed c 0) : (e.lower c).IsTest :=
  ⟨.expr (e.lower c).text, isExpr_of_reads h.reads, rfl⟩

theorem isTest_one : (Code.Expr.number "1").IsTest := ⟨.expr "1", by decide, rfl⟩

theorem isTest_testCode {test : Option Expr} (h : ∀ e ∈ test, e.Printed c 0) : (testCode c test).IsTest := by
  cases test with
  | none => exact isTest_one
  | some e => exact isTest_of_printed (h e rfl)

theorem isExpr_signedConstant {l : SignedConstant} (h : l.constant.IsLexed) : isExpr l.lower.text = true := by
  have hprints := prints_constant h
  have hsigned := hprints.weaken (n := signLevel) (by decide)
  unfold SignedConstant.lower
  split
  · exact isExpr_of_reads hprints.reads
  · exact isExpr_of_reads hsigned.plus.reads
  · exact isExpr_of_reads hsigned.minus.reads

theorem texts_eq_map (es : List Code.Expr) : Code.Expr.texts es = es.map Code.Expr.text := by
  induction es with
  | nil => rfl
  | cons e es ih => rw [Code.Expr.texts, ih, List.map_cons]

/-- The test of a case: whether the value of the switch is one of the labels. -/
theorem isTest_case {name : Bytes} (hname : isIdentifier name = true) {labels : List SignedConstant}
    (h : labels ≠ [] ∧ ∀ l ∈ labels, l.constant.IsLexed) :
    (Code.Expr.oneOf (.name name) (labels.map SignedConstant.lower)).IsTest := by
  refine ⟨.oneOf name (labels.map fun l => l.lower.text), ?_, ?_⟩
  · simp only [Python.Test.isOk, hname, Bool.true_and, Bool.and_eq_true, Bool.not_eq_true', List.isEmpty_eq_false_iff,
      List.all_map, List.all_eq_true]
    exact ⟨by simpa using h.1, fun l hl => isExpr_signedConstant (h.2 l hl)⟩
  · rw [Python.Test.text, Code.Expr.text, texts_eq_map, List.map_map]
    have hdotted : (Code.Expr.name name).text = name := Bytes.join_singleton "." name
    rw [hdotted]
    rfl

/-! ## Chains -/

theorem isOk_elseChain {folds : Bool} {body : List Code.Stmt} (h : Code.Stmt.AreOk body) : (elseChain folds body).IsOk := by
  unfold elseChain
  split
  · exact h.1
  · exact h

/-- A case is tested and done as Python has it. -/
def CaseIsOk (x : Case) : Prop := x.1.IsTest ∧ Code.Stmt.AreOk x.2

theorem isOk_caseChain {otherwise : Option (List Code.Stmt)} (hotherwise : ∀ body ∈ otherwise, Code.Stmt.AreOk body)
    {cases : List Case} (hcases : ∀ x ∈ cases, CaseIsOk x) : (caseChain otherwise cases).IsOk := by
  induction cases with
  | nil =>
    cases otherwise with
    | none => trivial
    | some body => exact hotherwise body rfl
  | cons x cases ih =>
    rw [List.forall_mem_cons] at hcases
    exact ⟨hcases.1.1, hcases.1.2, ih hcases.2⟩

theorem areOk_switchChain {otherwise : Option (List Code.Stmt)} (hotherwise : ∀ body ∈ otherwise, Code.Stmt.AreOk body)
    {cases : List Case} (hcases : ∀ x ∈ cases, CaseIsOk x) : Code.Stmt.AreOk (switchChain otherwise cases) := by
  cases cases with
  | nil =>
    cases otherwise with
    | none => trivial
    | some body => exact ⟨⟨isTest_one, hotherwise body rfl, trivial⟩, trivial⟩
  | cons x cases =>
    rw [List.forall_mem_cons] at hcases
    exact ⟨⟨hcases.1.1, hcases.1.2, isOk_caseChain hotherwise hcases.2⟩, trivial⟩

/-! ## Statements -/

theorem areOk_append {ss ss' : List Code.Stmt} (h : Code.Stmt.AreOk ss) (h' : Code.Stmt.AreOk ss') :
    Code.Stmt.AreOk (ss ++ ss') := by
  rw [Code.areOk_iff] at h h' ⊢
  exact List.forall_mem_append.mpr ⟨h, h'⟩

theorem areOk_assignments (hc : isIdentifier c.handle = true) {a : Option Assignment} (h : ∀ x ∈ a, x.Holds (printing c)) :
    Code.Stmt.AreOk (a.toList.map (Assignment.lower c)) := by
  cases a with
  | none => trivial
  | some a => exact ⟨isOk_assignment hc (h a rfl), trivial⟩

mutual

/-- A statement is lowered to statements that are printed as Python has them. -/
theorem Stmt.Lowers.areOk (hc : isIdentifier c.handle = true) {s : Stmt} {p q : Progress} {code : List Code.Stmt} :
    s.Lowers c p code q → s.Holds (printing c) → Code.Stmt.AreOk code
  | .empty, _ => trivial
  | .labelled hbody, h => hbody.areOk hc h.2
  | .assign, h => ⟨isOk_assignment hc h, trivial⟩
  | .pipeline hstages, h => Code.areOk_iff.mpr (hstages.areOk h nofun)
  | .leave, _ => ⟨trivial, trivial⟩
  | .next, _ => ⟨trivial, trivial⟩
  | .done, _ => ⟨trivial, trivial⟩
  | .jump, _ => trivial
  | .block hbody, h => hbody.areOk hc h
  | .branch hyes, h => ⟨⟨isTest_of_printed h.1.1, hyes.areOk hc h.2, trivial⟩, trivial⟩
  | .branchElse hyes hno, h =>
    ⟨⟨isTest_of_printed h.1.1, hyes.areOk hc h.2.1, isOk_elseChain (hno.areOk hc h.2.2)⟩, trivial⟩
  | .loop hbody, h => ⟨⟨isTest_of_printed h.1.1, hbody.areOk hc h.2⟩, trivial⟩
  | .forLoop hlowers, h => by
    obtain ⟨hfirst, htest, hstep, hbody⟩ := h
    have hcode := areOk_append (hlowers.areOk hc hbody) (areOk_assignments hc hstep)
    exact areOk_append (areOk_assignments hc hfirst) ⟨⟨isTest_testCode fun e he => (htest e he).1, hcode⟩, trivial⟩
  | .switch hcases hdefault, h => by
    have hname : isIdentifier (switchName (p.switches + 1)) = true := isIdentifier_numbered (by decide) _
    have htarget := (prints_name hname).reads
    refine ⟨⟨?_, isExpr_of_reads h.1.1.reads⟩, areOk_switchChain (hdefault.areOk hc h.2)
      (hcases.areOk hc (fun _ hlabels => isTest_case hname hlabels) h.2)⟩
    rw [isTarget, htarget.read_eq]
    rfl

theorem Stmt.AllLower.areOk (hc : isIdentifier c.handle = true) {ss : List Stmt} {p q : Progress} {code : List Code.Stmt} :
    Stmt.AllLower c ss p code q → Stmt.AllHold (printing c) ss → Code.Stmt.AreOk code
  | .nil, _ => trivial
  | .cons hs hss, h => areOk_append (hs.areOk hc h.1) (hss.areOk hc h.2)

/-- The cases are tested as Python has it if the value that they are tested on is. -/
theorem Clause.CasesLower.areOk (hc : isIdentifier c.handle = true) {subject : Code.Expr} {seen : Bool} {clauses : List Clause}
    {p q : Progress} {cases : List Case} : Clause.CasesLower c subject seen clauses p cases q →
      (∀ labels : List SignedConstant, (labels ≠ [] ∧ ∀ l ∈ labels, l.constant.IsLexed) →
        (Code.Expr.oneOf subject (labels.map SignedConstant.lower)).IsTest) →
      Clause.AllHold (printing c) clauses → ∀ x ∈ cases, CaseIsOk x
  | .nil, _, _ => List.forall_mem_nil _
  | .case hbody hrest, htest, h =>
    List.forall_mem_cons.mpr ⟨⟨htest _ h.1, hbody.areOk hc h.2.1⟩, hrest.areOk hc htest h.2.2⟩
  | .otherwise hrest, htest, h => hrest.areOk hc htest h.2

theorem Clause.DefaultLowers.areOk (hc : isIdentifier c.handle = true) {clauses : List Clause} {p q : Progress}
    {code : Option (List Code.Stmt)} : Clause.DefaultLowers c clauses p code q → Clause.AllHold (printing c) clauses →
      ∀ body ∈ code, Code.Stmt.AreOk body
  | .nil, _ => by simp
  | .case hrest, h => hrest.areOk hc h.2.2
  | .earlier _ hrest, h => hrest.areOk hc h.2
  | .last _ hbody, h => by
    rintro _ ⟨⟩
    exact hbody.areOk hc h.1

end

theorem Stmt.areOk_lowerAll (hc : isIdentifier c.handle = true) (ss : List Stmt) (h : Stmt.AllHold (printing c) ss)
    (p : Progress) : Code.Stmt.AreOk ((Stmt.lowerAll c ss).run p).1 := (Stmt.allLower c ss p).areOk hc h

end IrafCl.Script
