import IrafCl.Library.Standard
import IrafCl.Proofs.Script.Compiled
import IrafCl.Proofs.Script.Subterms
import IrafCl.Proofs.Script.Unambiguous

/-!
# Arguments of calls in generated code

Python takes no argument without a keyword after one with, and no keyword twice (`Code.LegalKeys`). The arguments of a call
are written in the order that the script has them, whatever that is, and a task call then gets the keywords of its
redirections, of the enclosing package and of the pipes, whether they are there already or not. So the calls of the code are
legal just if those of the script are, with each keyword spelled as the code has it and these keywords added
(`compile_arguments`).
-/

namespace IrafCl.Code

/-- What Python asks of the keywords in a call: after the first argument with one all have one, and none is there twice. -/
def LegalKeys (keys : List (Option Bytes)) : Prop :=
  keys.Pairwise (fun a b => a.isSome = true → b.isSome = true) ∧ (keys.filterMap id).Nodup

instance : DecidablePred LegalKeys := fun _ => inferInstanceAs (Decidable (_ ∧ _))

/-- An expression is no call, or one that Python takes. -/
def Expr.LegalCall : Expr → Prop
  | .call _ args => LegalKeys (args.map Arg.key)
  | _ => True

theorem legalKeys_cons_none {keys : List (Option Bytes)} : LegalKeys (none :: keys) ↔ LegalKeys keys := by
  simp [LegalKeys]

/-- Arguments without keywords are legal. -/
theorem legalKeys_of_none {keys : List (Option Bytes)} (h : ∀ k ∈ keys, k = none) : LegalKeys keys := by
  induction keys with
  | nil => exact ⟨.nil, .nil⟩
  | cons k keys ih =>
    rw [List.forall_mem_cons] at h
    rw [h.1, legalKeys_cons_none]
    exact ih h.2

end IrafCl.Code

namespace IrafCl.Script

open Code (LegalKeys)

/-! ## Calls in scripts -/

/-- The keyword of an argument as the code spells it. -/
def Arg.spelling (a : Arg) : Option Bytes := a.key.map Code.identifier

/-- An expression is no call, or one whose arguments stand as Python takes them. -/
def Expr.OrderlyCall : Expr → Prop
  | .call _ args | .cast _ args => LegalKeys (args.map Arg.spelling)
  | _ => True

/-- The keywords of a task call: those of its arguments, its redirections, the enclosing package and the pipes. -/
def TaskCall.keys (t : TaskCall) (piped : List Bytes) : List (Option Bytes) :=
  t.args.map Arg.spelling ++
    ((t.redirections.map fun r => redirectionKey r.op) ++ (if t.usesPackage then packageNames else []) ++ piped).map some

/-- The arguments of a task call, and of each call in them, stand as Python takes them. -/
structure TaskCall.Orderly (piped : List Bytes) (t : TaskCall) : Prop where
  keys : LegalKeys (t.keys piped)
  args : Arg.AllOf Expr.OrderlyCall t.args
  files : ∀ r ∈ t.redirections, r.file.All Expr.OrderlyCall

/-- The keyword of the pipe that a task reads from. -/
def inputKeys (reads : Bool) : List Bytes := if reads then ["Stdin"] else []

/-- The stages of a pipeline are orderly: all but the first read from a pipe, and all but the last write to one. -/
def OrderlyStages (reads : Bool) : List TaskCall → Prop
  | [] => True
  | [t] => t.Orderly (inputKeys reads)
  | t :: next :: rest => t.Orderly (inputKeys reads ++ [Bytes.ofString "Stdout"]) ∧ OrderlyStages true (next :: rest)

/-- The calls in a target are orderly. -/
def Target.Orderly : Target → Prop
  | .name _ => True
  | .element _ index => Expr.AllOf Expr.OrderlyCall index

def Assignment.Orderly (a : Assignment) : Prop := a.target.Orderly ∧ a.value.All Expr.OrderlyCall

mutual

/-- The calls in a statement are orderly. -/
def Stmt.Orderly : Stmt → Prop
  | .empty | .leave | .next | .done | .jump _ => True
  | .labelled _ _ body => body.Orderly
  | .assign a => a.Orderly
  | .pipeline calls => OrderlyStages false calls
  | .block body => Stmt.AllOrderly body
  | .branch test yes => test.All Expr.OrderlyCall ∧ yes.Orderly
  | .branchElse test yes no => test.All Expr.OrderlyCall ∧ yes.Orderly ∧ no.Orderly
  | .loop test body => test.All Expr.OrderlyCall ∧ body.Orderly
  | .forLoop first test step body =>
    (∀ a ∈ first, a.Orderly) ∧ (∀ e ∈ test, e.All Expr.OrderlyCall) ∧ (∀ a ∈ step, a.Orderly) ∧ body.Orderly
  | .switch subject clauses =>
    subject.All Expr.OrderlyCall ∧ Clause.CasesOrderly clauses ∧ Clause.DefaultOrderly clauses

def Stmt.AllOrderly : List Stmt → Prop
  | [] => True
  | s :: ss => s.Orderly ∧ Stmt.AllOrderly ss

def Clause.CasesOrderly : List Clause → Prop
  | [] => True
  | .case _ body :: rest => body.Orderly ∧ Clause.CasesOrderly rest
  | .otherwise _ _ :: rest => Clause.CasesOrderly rest

def Clause.DefaultOrderly : List Clause → Prop
  | [] => True
  | .case _ _ :: rest => Clause.DefaultOrderly rest
  | .otherwise _ body :: rest => body.Orderly ∧ Clause.DefaultOrderly rest

end

/-! ## Expressions -/

variable {c : Context}

theorem key_lower (a : Arg) : (a.lower c).key = a.spelling := by
  obtain ⟨key, e⟩ := a
  rw [Arg.lower]
  rfl

theorem keys_lowerAll (as : List Arg) : (Arg.lowerAll c as).map Code.Arg.key = as.map Arg.spelling := by
  induction as with
  | nil => rfl
  | cons a as ih => rw [Arg.lowerAll, List.map_cons, List.map_cons, ih, key_lower]

theorem keys_lowerScanned (as : List Arg) : (Arg.lowerScanned c as).map Code.Arg.key = as.map Arg.spelling := by
  induction as with
  | nil => rfl
  | cons a as ih =>
    rw [Arg.lowerScanned, List.map_cons, List.map_cons, ih]
    congr 1
    split
    · next path h =>
      unfold plainName? at h
      split at h
      · rfl
      · cases h
    · exact key_lower a

theorem legal_constant (k : Constant) : k.lower.All Code.Expr.LegalCall := by
  unfold Constant.lower
  split
  all_goals try trivial
  refine ⟨Code.legalKeys_of_none ?_, Code.Arg.allOf_iff.mpr ?_⟩
  · simp [sexagesimalPart, Code.Arg.positional, Code.Arg.key]
  · simp [sexagesimalPart, Code.Arg.positional, Code.Arg.value, Code.Expr.All, Code.Expr.LegalCall]

theorem legal_signedConstant (k : SignedConstant) : k.lower.All Code.Expr.LegalCall := by
  unfold SignedConstant.lower
  split
  · exact legal_constant k.constant
  · exact ⟨trivial, legal_constant k.constant⟩
  · exact ⟨trivial, legal_constant k.constant⟩

theorem legal_owned {owner : Bytes} {e : Code.Expr} (h : Owned owner e) : e.All Code.Expr.LegalCall := by
  cases h <;> trivial

theorem legal_reference (path : Bytes) : (c.reference path).All Code.Expr.LegalCall ∧ (c.array path).All Code.Expr.LegalCall := by
  obtain ⟨⟨_, -, href⟩, ⟨_, -, harray⟩⟩ := owned_reference c path
  exact ⟨legal_owned href, legal_owned harray⟩

theorem legal_zeroBased {e : Expr} {lowered : Code.Expr} (h : lowered.All Code.Expr.LegalCall ↔ e.All Expr.OrderlyCall) :
    (zeroBased e lowered).All Code.Expr.LegalCall ↔ e.All Expr.OrderlyCall := by
  unfold zeroBased
  split
  · next n hn =>
    unfold constantIndex? at hn
    split at hn
    · exact iff_of_true trivial trivial
    · cases hn
  · split <;> simpa [Code.Expr.All, Code.Expr.LegalCall] using h

mutual

/-- The calls in the code of an expression are legal just if those in the expression are orderly. -/
theorem Expr.legal_lower (c : Context) : ∀ (e : Expr), (e.lower c).All Code.Expr.LegalCall ↔ e.All Expr.OrderlyCall
  | .constant k => by
    rw [Expr.lower]
    exact iff_of_true (legal_constant k) trivial
  | .name path => by
    rw [Expr.lower]
    exact iff_of_true (legal_reference path).1 trivial
  | .element path index => by
    rw [Expr.lower, Code.Expr.All, Expr.legal_lowerIndices c index, Expr.All]
    exact and_congr Iff.rfl (and_iff_right (legal_reference path).2)
  | .call fn args => by
    rw [Expr.lower, Expr.All]
    split
    · next hempty =>
      rw [List.isEmpty_iff.mp hempty]
      exact Iff.rfl
    split
    · have hlocals : (Code.Expr.call ["locals"] []).All Code.Expr.LegalCall := ⟨Code.legalKeys_of_none nofun, trivial⟩
      rw [Code.Expr.All, Code.Expr.LegalCall, List.map_cons, keys_lowerScanned]
      exact and_congr Code.legalKeys_cons_none ((and_iff_right hlocals).trans (Arg.legal_lowerScanned c args))
    · rw [Code.Expr.All, Code.Expr.LegalCall, keys_lowerAll, Arg.legal_lowerAll c args]
      exact Iff.rfl
  | .cast type args => by
    rw [Expr.lower, Code.Expr.All, Code.Expr.LegalCall, keys_lowerAll, Arg.legal_lowerAll c args]
    exact Iff.rfl
  | .paren e => by
    rw [Expr.lower, Code.Expr.All, e.legal_lower c]
    exact Iff.rfl
  | .unary .not e => by
    rw [Expr.lower, Code.Expr.All, Code.Expr.All, e.legal_lower c]
    exact and_iff_right trivial
  | .unary .minus e => by
    rw [Expr.lower, Code.Expr.All, e.legal_lower c]
    exact Iff.rfl
  | .unary .plus e => by
    rw [Expr.lower, Code.Expr.All, e.legal_lower c]
    exact Iff.rfl
  | .binary op l r => by
    rw [Expr.lower, Code.Expr.All, l.legal_lower c, r.legal_lower c]
    exact Iff.rfl
  | .convert types e => by
    have he := e.legal_lower c
    rw [Expr.lower, Expr.All, ← he]
    split
    · refine and_congr (iff_of_true ?_ trivial) (and_iff_left trivial)
      exact Code.legalKeys_of_none (List.forall_mem_singleton.mpr rfl)
    · exact (and_iff_right trivial).symm

theorem Expr.legal_lowerIndices (c : Context) : ∀ (es : List Expr),
    Code.Expr.AllOf Code.Expr.LegalCall (Expr.lowerIndices c es) ↔ Expr.AllOf Expr.OrderlyCall es
  | [] => Iff.rfl
  | e :: es => by
    rw [Expr.lowerIndices]
    exact and_congr (legal_zeroBased (e.legal_lower c)) (Expr.legal_lowerIndices c es)

theorem Arg.legal_lowerAll (c : Context) : ∀ (as : List Arg),
    Code.Arg.AllOf Code.Expr.LegalCall (Arg.lowerAll c as) ↔ Arg.AllOf Expr.OrderlyCall as
  | [] => Iff.rfl
  | .mk key e :: as => by
    rw [Arg.lowerAll, Arg.lower]
    exact and_congr (e.legal_lower c) (Arg.legal_lowerAll c as)

theorem Arg.legal_lowerScanned (c : Context) : ∀ (as : List Arg),
    Code.Arg.AllOf Code.Expr.LegalCall (Arg.lowerScanned c as) ↔ Arg.AllOf Expr.OrderlyCall as
  | [] => Iff.rfl
  | .mk key e :: as => by
    have has := Arg.legal_lowerScanned c as
    have he := e.legal_lower c
    rw [Arg.lowerScanned]
    split
    · next path h =>
      unfold plainName? at h
      split at h
      · next heq =>
        cases heq
        exact and_congr (iff_of_true trivial trivial) has
      · cases h
    · rw [Arg.lower]
      exact and_congr he has

end

/-! ## Tasks -/

/-- The calls in some arguments are legal, and so is the call if the keywords that it is given besides are those of pipes. -/
theorem legal_taskCall (t : TaskCall) (names : List Bytes) {extra : List Code.Arg} {piped : List Bytes}
    (hkeys : extra.map Code.Arg.key = piped.map some) (hextra : Code.Arg.AllOf Code.Expr.LegalCall extra) :
    (t.lower c names extra).All Code.Expr.LegalCall ↔ t.Orderly piped := by
  have hpackage : t.packageArgs.map Code.Arg.key = (if t.usesPackage then packageNames else []).map some := by
    unfold TaskCall.packageArgs
    split <;> rfl
  have hpackageArgs : Code.Arg.AllOf Code.Expr.LegalCall t.packageArgs := by
    unfold TaskCall.packageArgs
    split
    · exact ⟨trivial, trivial, trivial⟩
    · trivial
  have hredirections : (t.redirections.map (Redirection.lower c)).map Code.Arg.key =
      (t.redirections.map fun r => redirectionKey r.op).map some := by
    rw [List.map_map, List.map_map]
    rfl
  have hfiles : Code.Arg.AllOf Code.Expr.LegalCall (t.redirections.map (Redirection.lower c)) ↔
      ∀ r ∈ t.redirections, r.file.All Expr.OrderlyCall := by
    rw [Code.Arg.allOf_iff, List.forall_mem_map]
    exact forall₂_congr fun r _ => r.file.legal_lower c
  rw [TaskCall.lower, Code.Stmt.All, Code.Expr.All, Code.Expr.LegalCall]
  simp only [List.map_append, keys_lowerAll, hredirections, hpackage, hkeys, Code.Arg.allOf_append, Arg.legal_lowerAll, hfiles,
    and_iff_left hpackageArgs, and_iff_left hextra]
  constructor
  · rintro ⟨hlegal, hargs, hfiles⟩
    exact ⟨by simpa only [TaskCall.keys, List.map_append, List.append_assoc] using hlegal, hargs, hfiles⟩
  · rintro ⟨hlegal, hargs, hfiles⟩
    exact ⟨by simpa only [TaskCall.keys, List.map_append, List.append_assoc] using hlegal, hargs, hfiles⟩

theorem keys_inputArgs (input : Option Bytes) : (inputArgs input).map Code.Arg.key = (inputKeys input.isSome).map some := by
  cases input <;> rfl

theorem legal_inputArgs (input : Option Bytes) : Code.Arg.AllOf Code.Expr.LegalCall (inputArgs input) := by
  cases input with
  | none => trivial
  | some pipe => exact ⟨trivial, trivial⟩

theorem StagesLower.legal {input : Option Bytes} {calls : List TaskCall} {p q : Progress} {code : List Code.Stmt}
    (h : StagesLower c input calls p code q) :
    Code.Stmt.AllOf Code.Expr.LegalCall code ↔ OrderlyStages input.isSome calls := by
  induction h with
  | nil => exact Iff.rfl
  | @last input t =>
    rw [Code.Stmt.AllOf, and_iff_left (all_dropPipe input)]
    exact legal_taskCall t [] (keys_inputArgs input) (legal_inputArgs input)
  | @stage input t _ _ _ _ _ _ ih =>
    have hkeys : (inputArgs input ++ [Code.Arg.keyword "Stdout" (.number "1")]).map Code.Arg.key =
        (inputKeys input.isSome ++ [Bytes.ofString "Stdout"]).map some := by
      rw [List.map_append, keys_inputArgs, List.map_append]
      rfl
    have hextra : Code.Arg.AllOf Code.Expr.LegalCall (inputArgs input ++ [Code.Arg.keyword "Stdout" (.number "1")]) :=
      Code.Arg.allOf_append.mpr ⟨legal_inputArgs input, trivial, trivial⟩
    rw [Code.Stmt.AllOf, Code.Stmt.allOf_append, and_iff_right (all_dropPipe input)]
    exact and_congr (legal_taskCall t _ hkeys hextra) ih

/-! ## Statements -/

theorem legal_target (target : Target) : (target.lower c).All Code.Expr.LegalCall ↔ target.Orderly := by
  cases target with
  | name path => exact iff_of_true (legal_reference path).1 trivial
  | element path index =>
    refine (and_iff_right trivial).trans ((and_iff_right (legal_reference path).2).trans ?_)
    exact Expr.legal_lowerIndices c index

theorem legal_assignment (a : Assignment) : (a.lower c).All Code.Expr.LegalCall ↔ a.Orderly := by
  obtain ⟨target, op, value⟩ := a
  have htarget := legal_target (c := c) target
  have hvalue := value.legal_lower c
  cases op <;>
    simp [Assignment.lower, Assignment.Orderly, Code.Stmt.All, Code.Expr.All, Code.Expr.LegalCall, htarget, hvalue]

theorem legal_assignments (a : Option Assignment) :
    Code.Stmt.AllOf Code.Expr.LegalCall (a.toList.map (Assignment.lower c)) ↔ ∀ x ∈ a, x.Orderly := by
  cases a with
  | none => exact iff_of_true trivial nofun
  | some a => simpa [Code.Stmt.AllOf] using legal_assignment a

theorem legal_testCode (test : Option Expr) :
    (testCode c test).All Code.Expr.LegalCall ↔ ∀ e ∈ test, e.All Expr.OrderlyCall := by
  cases test with
  | none => exact iff_of_true trivial nofun
  | some e => exact (e.legal_lower c).trans (by simp)

theorem legal_case {subject : Code.Expr} (h : subject.All Code.Expr.LegalCall) (labels : List SignedConstant) :
    (Code.Expr.oneOf subject (labels.map SignedConstant.lower)).All Code.Expr.LegalCall := by
  refine ⟨trivial, h, Code.Expr.allOf_iff.mpr ?_⟩
  exact List.forall_mem_map.mpr fun l _ => legal_signedConstant l

theorem defaultOrderly_of_any_isDefault {clauses : List Clause} (h : clauses.any isDefault = false) :
    Clause.DefaultOrderly clauses := by
  induction clauses with
  | nil => trivial
  | cons clause clauses ih =>
    rw [List.any_cons, Bool.or_eq_false_iff] at h
    cases clause with
    | case labels body => exact ih h.2
    | otherwise line body => cases h.1

mutual

/-- A statement that is lowered without faults has orderly calls just if the calls in its code are legal. -/
theorem Stmt.Lowers.legal {s : Stmt} {p q : Progress} {code : List Code.Stmt} :
    s.Lowers c p code q → s.isSupported = true → (Code.Stmt.AllOf Code.Expr.LegalCall code ↔ s.Orderly)
  | .empty, _ => Iff.rfl
  | .labelled hbody, h => hbody.legal h
  | .assign, _ => (and_iff_left trivial).trans (legal_assignment _)
  | .pipeline hstages, _ => hstages.legal
  | .leave, _ => and_iff_left trivial
  | .next, _ => and_iff_left trivial
  | .done, _ => and_iff_left trivial
  | .jump, h => by cases h
  | .block hbody, h => hbody.legal h
  | .branch hyes, h => by
    rw [Code.Stmt.AllOf, Code.Stmt.All, Code.Stmt.AllOf, and_true, Code.Chain.All, and_true]
    exact and_congr (Expr.legal_lower c _) (hyes.legal h)
  | .branchElse hyes hno, h => by
    rw [Stmt.isSupported, Bool.and_eq_true] at h
    rw [Code.Stmt.AllOf, Code.Stmt.All, Code.Stmt.AllOf, and_true, all_elseChain]
    exact and_congr (Expr.legal_lower c _) (and_congr (hyes.legal h.1) (hno.legal h.2))
  | .loop hbody, h => by
    rw [Code.Stmt.AllOf, Code.Stmt.All, Code.Stmt.AllOf, and_true]
    exact and_congr (Expr.legal_lower c _) (hbody.legal h)
  | .forLoop hbody, h => by
    rw [Code.Stmt.allOf_append, Code.Stmt.AllOf, Code.Stmt.All, Code.Stmt.allOf_append, Code.Stmt.AllOf, and_true,
      legal_assignments, legal_assignments, legal_testCode, hbody.legal h, Stmt.Orderly, and_comm (b := ∀ x ∈ _, _)]
  | .switch hcases hdefault, h => by
    rw [Stmt.isSupported, Bool.and_eq_true] at h
    rw [Code.Stmt.AllOf, all_switchChain trivial, CasesAll, hcases.legal trivial h.1, hdefault.legal false h]
    exact and_congr ((and_iff_right trivial).trans (Expr.legal_lower c _)) Iff.rfl

theorem Stmt.AllLower.legal {ss : List Stmt} {p q : Progress} {code : List Code.Stmt} :
    Stmt.AllLower c ss p code q → Stmt.allSupported ss = true →
      (Code.Stmt.AllOf Code.Expr.LegalCall code ↔ Stmt.AllOrderly ss)
  | .nil, _ => Iff.rfl
  | .cons hs hss, h => by
    rw [Stmt.allSupported, Bool.and_eq_true] at h
    exact Code.Stmt.allOf_append.trans (and_congr (hs.legal h.1) (hss.legal h.2))

theorem Clause.CasesLower.legal {subject : Code.Expr} {seen : Bool} {clauses : List Clause} {p q : Progress}
    {cases : List Case} : Clause.CasesLower c subject seen clauses p cases q → subject.All Code.Expr.LegalCall →
      Clause.casesSupported seen clauses = true →
      ((∀ x ∈ cases, x.1.All Code.Expr.LegalCall ∧ Code.Stmt.AllOf Code.Expr.LegalCall x.2) ↔ Clause.CasesOrderly clauses)
  | .nil, _, _ => iff_of_true (List.forall_mem_nil _) trivial
  | .case hbody hrest, hsubject, h => by
    rw [Clause.casesSupported, Bool.and_eq_true] at h
    refine List.forall_mem_cons.trans (and_congr ?_ (hrest.legal hsubject h.2))
    exact (and_iff_right (legal_case hsubject _)).trans (hbody.legal h.1)
  | .otherwise hrest, hsubject, h => by
    rw [Clause.casesSupported, Bool.and_eq_true] at h
    exact hrest.legal hsubject h.2

theorem Clause.DefaultLowers.legal {clauses : List Clause} {p q : Progress} {code : Option (List Code.Stmt)} :
    Clause.DefaultLowers c clauses p code q → ∀ seen : Bool,
      Clause.casesSupported seen clauses = true ∧ Clause.defaultSupported clauses = true →
      ((∀ body ∈ code, Code.Stmt.AllOf Code.Expr.LegalCall body) ↔ Clause.DefaultOrderly clauses)
  | .nil, _, _ => iff_of_true nofun trivial
  | .case hrest, seen, h => by
    rw [Clause.casesSupported, Bool.and_eq_true] at h
    exact hrest.legal seen ⟨h.1.2, h.2⟩
  | .earlier hany _, seen, h => by
    rw [Clause.casesSupported, Bool.and_eq_true] at h
    rw [Clause.any_isDefault _ h.1.2] at hany
    cases hany
  | .last hany hbody, seen, h => by
    rw [Clause.defaultSupported, if_neg (Bool.eq_false_iff.mp hany)] at h
    rw [Clause.DefaultOrderly, and_iff_left (defaultOrderly_of_any_isDefault hany), ← hbody.legal h.2]
    simp

end

theorem Stmt.legal_lowerAll (c : Context) (ss : List Stmt) (h : Stmt.allSupported ss = true) (p : Progress) :
    Code.Stmt.AllOf Code.Expr.LegalCall ((Stmt.lowerAll c ss).run p).1 ↔ Stmt.AllOrderly ss :=
  (Stmt.allLower c ss p).legal h

/-! ## Compiled texts -/

/-- A text is refused, or compiled. Then the arguments of each call in its statements, with the keywords of redirections,
pipes and packages, stand as Python takes them just if the text has them so. -/
theorem compile_arguments [Library] (st : Settings) (source : Bytes) : (∃ halt, (compile st source).outcome = .error halt) ∨
    ∃ u t scope body stmts p, (compile st source).outcome = .ok u ∧ Compiled st source u t scope body stmts p ∧
      (Code.Stmt.AllOf Code.Expr.LegalCall stmts ↔ Stmt.AllOrderly body) := by
  cases hu : (compile st source).outcome with
  | error halt => exact .inl ⟨halt, rfl⟩
  | ok u =>
    obtain ⟨t, scope, body, stmts, p, h⟩ := exists_compiled hu
    refine .inr ⟨u, t, scope, body, stmts, p, rfl, h, ?_⟩
    have hlegal := Stmt.legal_lowerAll (.of scope st.mode) body h.supported .start
    rwa [h.lowered] at hlegal

/-- An argument after one with a keyword, two keywords that are spelled alike, and a redirection into a pipe. -/
def disorder : Bytes := "foo a=1 2\nfoo in=1 PYin=2\nfoo > x | bar\n"

/-- An integer as an argument in command mode. -/
def countTree (digits : Bytes) (line : Int) : Tree := .branch .constant .unset [.leaf ⟨.integer, digits, none, line⟩]

/-- An integer as an argument with a keyword. -/
def keywordTree (key digits : Bytes) (line : Int) : Tree :=
  .branch .cmdArg .unset [.leaf ⟨.ident, key, none, line⟩, .leaf ⟨.equals, "=", none, line⟩, countTree digits line]

/-- A task with two arguments. -/
def pairTree (task : Bytes) (first second : Tree) (line : Int) : Tree :=
  .branch .taskCall .unset [.leaf ⟨.ident, task, none, line⟩,
    .branch .cmdArgs .unset [.branch .cmdArgs .unset [.branch .cmdArgs .unset [], first], second], .branch .redirs .unset []]

def statementTree (pipeline : Tree) (line : Int) : Tree :=
  .branch .statement .unset [.branch .simpleStmt .unset [pipeline], .branch .term .unset [.leaf ⟨.newline, "\n", none, line⟩]]

def disorderTree : Tree :=
  .branch .program .unset [
    .branch .localDecls .unset [],
    .branch .stmtList .unset [
      .branch .stmtList .unset [
        .branch .stmtList .unset [
          .branch .stmtList .unset [],
          statementTree (.branch .pipeline .unset [
            pairTree "foo" (keywordTree "a" "1" 1) (.branch .cmdArg .unset [countTree "2" 1]) 1]) 1],
        statementTree (.branch .pipeline .unset [pairTree "foo" (keywordTree "in" "1" 2) (keywordTree "PYin" "2" 2) 2]) 2],
      statementTree (.branch .pipeline .unset [
        .branch .pipeline .unset [.branch .taskCall .unset [
          .leaf ⟨.ident, "foo", none, 3⟩, .branch .cmdArgs .unset [],
          .branch .redirs .unset [.branch .redirs .unset [], .branch .redir .unset [.leaf ⟨.gt, ">", none, 3⟩,
            .branch .redirTarget .unset [.leaf ⟨.ident, "x", none, 3⟩]]]]],
        .leaf ⟨.pipe, "|", none, 3⟩,
        .branch .taskCall .unset [.leaf ⟨.ident, "bar", none, 3⟩, .branch .cmdArgs .unset [], .branch .redirs .unset []]]) 3]]

theorem tree_disorder : tree disorder = .ok disorderTree :=
  tree_eq_ok (by decide +kernel) (grown_of_grows rfl) rfl (by decide) (by decide)

/-- The calls `iraf.foo(a=1, 2)`, `iraf.foo(PYin=1, PYin=2)` and `Pipe1 = iraf.foo(Stdout='x', Stdout=1)`. -/
def illegal : List Code.Stmt :=
  [.call [] ["iraf", "foo"] [.mk (some "a") true (.number "1"), .mk none true (.number "2")],
    .call [] ["iraf", "foo"] [.mk (some "PYin") true (.number "1"), .mk (some "PYin") true (.number "2")],
    .call ["Pipe1"] ["iraf", "foo"] [.keyword "Stdout" (.string "x"), .keyword "Stdout" (.number "1")]]

/-- Each of the three lines is compiled to a call that Python does not take. -/
theorem disorder_illegal : ∃ u t scope body stmts p, (compile {} disorder).outcome = .ok u ∧
    Compiled {} disorder u t scope body stmts p ∧
    stmts = illegal ++ [.call [] ["iraf", "bar"] [.keyword "Stdin" (.name "Pipe1")], .delete "Pipe1"] ∧
    ∀ s ∈ illegal, ¬ s.All Code.Expr.LegalCall := by
  obtain ⟨scope, hscope⟩ : ∃ scope, (declarations {} disorderTree).2 = .ok scope := ⟨_, rfl⟩
  obtain ⟨u, hu, h⟩ := compiles tree_disorder hscope rfl rfl rfl
  refine ⟨u, _, scope, _, _, _, hu, h, rfl, ?_⟩
  have htwice (key : Bytes) : ¬ LegalKeys [some key, some key] := by simp [LegalKeys]
  have hlate (key : Bytes) : ¬ LegalKeys [some key, none] := by simp [LegalKeys]
  simp only [illegal, List.forall_mem_cons]
  exact ⟨fun h => hlate "a" h.1, fun h => htwice "PYin" h.1, fun h => htwice "Stdout" h.1, nofun⟩

end IrafCl.Script
