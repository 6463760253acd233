import IrafCl.Proofs.Code.Wording
import IrafCl.Proofs.Script.Statements
import IrafCl.Proofs.Script.Subterms

/-!
# The words of a script in generated code

Names, constants and keywords with texts that fit their kinds become paths, literals and words of Python. So whatever a
script is lowered to is worded in all its parts (`Stmt.Lowers.worded`), and written without control bytes.
-/

namespace IrafCl.Script

open Python (isIdentifier)
open Code (IsPath Keyed)

variable {c : Context}

/-! ## Keywords -/

/-- The keyword of an argument becomes a word. -/
theorem isWordByte_key {a : Arg} (h : a.Named) : ∀ key ∈ (a.lower c).key, ∀ b ∈ key, Python.isWordByte b = true := by
  obtain ⟨key, e⟩ := a
  rw [Arg.lower]
  intro k hk
  obtain ⟨name, hname, rfl⟩ := Option.mem_map.mp hk
  obtain ⟨hstart, hbytes⟩ := word_of_matches (h name hname)
  exact (isWord_identifier hstart hbytes).bytes

theorem keyed_lowerAll {as : List Arg} (h : ∀ a ∈ as, a.Named) : Keyed (Arg.lowerAll c as) := by
  intro x hx
  obtain ⟨a, ha, rfl⟩ := mem_lowerAll hx
  exact isWordByte_key (h a ha)

theorem keyed_lowerScanned {as : List Arg} (h : ∀ a ∈ as, a.Named) : Keyed (Arg.lowerScanned c as) := by
  induction as with
  | nil => exact List.forall_mem_nil _
  | cons a as ih =>
    rw [List.forall_mem_cons] at h
    rw [Arg.lowerScanned]
    refine List.forall_mem_cons.mpr ⟨?_, ih h.2⟩
    split
    · rintro _ ⟨⟩
    · exact isWordByte_key h.1

/-! ## Expressions -/

/-- The functions that are called in the code of expressions. -/
inductive IsFunction : List Bytes → Prop where
  | task {fn : Bytes} (h : Lexicon.name.Matches fn) : IsFunction (functionPath fn)
  | cast (type : Bytes) : IsFunction (castFunction type)
  | conversion {types : Types} {fn : List Bytes} (h : conversion? types = some fn) : IsFunction fn
  | locals : IsFunction ["locals"]

/-- What makes a property hold all over the code of expressions: it holds of the code of constants and names, of calls with
proper keywords, and of whatever has no name or number of its own. -/
structure Pervades (c : Context) (P : Code.Expr → Prop) : Prop where
  one : P (.number "1")
  constant {k : Constant} (hk : k.IsLexed) : k.lower.All P
  reference {path : Bytes} (h : Lexicon.name.Matches path) : (c.reference path).All P
  array {path : Bytes} (h : Lexicon.name.Matches path) : (c.array path).All P
  call {fn : List Bytes} {args : List Code.Arg} (hfn : IsFunction fn) (hargs : Keyed args) : P (.call fn args)
  bare {e : Code.Expr} (h : e.isBare = true) : P e

section Pervades

variable {P : Code.Expr → Prop}

theorem all_signedConstant (hP : Pervades c P) {k : SignedConstant} (hk : k.constant.IsLexed) : k.lower.All P := by
  have hconstant := hP.constant hk
  unfold SignedConstant.lower
  split
  · exact hconstant
  · exact ⟨hP.bare rfl, hconstant⟩
  · exact ⟨hP.bare rfl, hconstant⟩

theorem all_zeroBased (hP : Pervades c P) {e : Expr} {lowered : Code.Expr} (h : lowered.All P) :
    (zeroBased e lowered).All P := by
  unfold zeroBased
  split
  · exact hP.bare rfl
  · split
    · exact ⟨hP.bare rfl, h⟩
    · exact ⟨hP.bare rfl, hP.bare rfl, h⟩

mutual

/-- The property holds in all parts of the code of an expression. -/
theorem Expr.all_lower (hP : Pervades c P) : ∀ (e : Expr), e.All Expr.IsLexed → (e.lower c).All P
  | .constant k, h => by
    rw [Expr.lower]
    exact hP.constant h
  | .name path, h => by
    rw [Expr.lower]
    exact hP.reference h
  | .element path index, h => by
    rw [Expr.lower]
    exact ⟨hP.bare rfl, hP.array h.1, Expr.all_lowerIndices hP index h.2⟩
  | .call fn args, h => by
    have hfn : IsFunction (functionPath fn) := .task h.1.1
    rw [Expr.lower]
    split
    · exact ⟨hP.call hfn nofun, trivial⟩
    split
    · have hlocals : (Code.Expr.call ["locals"] []).All P := ⟨hP.call .locals nofun, trivial⟩
      exact ⟨hP.call hfn (List.forall_mem_cons.mpr ⟨nofun, keyed_lowerScanned h.1.2⟩), hlocals,
        Arg.all_lowerScanned hP args h.2⟩
    · exact ⟨hP.call hfn (keyed_lowerAll h.1.2), Arg.all_lowerAll hP args h.2⟩
  | .cast type args, h => by
    rw [Expr.lower]
    exact ⟨hP.call (.cast type) (keyed_lowerAll h.1), Arg.all_lowerAll hP args h.2⟩
  | .paren e, h => by
    rw [Expr.lower]
    exact ⟨hP.bare rfl, e.all_lower hP h.2⟩
  | .unary .not e, h => by
    rw [Expr.lower]
    exact ⟨hP.bare rfl, hP.bare rfl, e.all_lower hP h.2⟩
  | .unary .minus e, h => by
    rw [Expr.lower]
    exact ⟨hP.bare rfl, e.all_lower hP h.2⟩
  | .unary .plus e, h => by
    rw [Expr.lower]
    exact ⟨hP.bare rfl, e.all_lower hP h.2⟩
  | .binary op l r, h => by
    rw [Expr.lower]
    exact ⟨hP.bare rfl, l.all_lower hP h.2.1, r.all_lower hP h.2.2⟩
  | .convert types e, h => by
    have he := e.all_lower hP h.2
    rw [Expr.lower]
    split
    · next fn hconversion => exact ⟨hP.call (.conversion hconversion) (List.forall_mem_singleton.mpr nofun), he, trivial⟩
    · exact he

theorem Expr.all_lowerIndices (hP : Pervades c P) : ∀ (es : List Expr),
    Expr.AllOf Expr.IsLexed es → Code.Expr.AllOf P (Expr.lowerIndices c es)
  | [], _ => trivial
  | e :: es, h => by
    rw [Expr.lowerIndices]
    exact ⟨all_zeroBased hP (e.all_lower hP h.1), Expr.all_lowerIndices hP es h.2⟩

theorem Arg.all_lowerAll (hP : Pervades c P) : ∀ (as : List Arg),
    Arg.AllOf Expr.IsLexed as → Code.Arg.AllOf P (Arg.lowerAll c as)
  | [], _ => trivial
  | .mk key e :: as, h => by
    rw [Arg.lowerAll, Arg.lower]
    exact ⟨e.all_lower hP h.1, Arg.all_lowerAll hP as h.2⟩

theorem Arg.all_lowerScanned (hP : Pervades c P) : ∀ (as : List Arg),
    Arg.AllOf Expr.IsLexed as → Code.Arg.AllOf P (Arg.lowerScanned c as)
  | [], _ => trivial
  | .mk key e :: as, h => by
    have he := e.all_lower hP h.1
    have has := Arg.all_lowerScanned hP as h.2
    rw [Arg.lowerScanned]
    split
    · exact ⟨hP.bare rfl, has⟩
    · rw [Arg.lower]
      exact ⟨he, has⟩

end

/-! ## Assignments and tests -/

theorem all_target (hP : Pervades c P) {t : Target} (h : t.Holds .lexed) : (t.lower c).All P := by
  cases t with
  | name path => exact hP.reference h
  | element path index => exact ⟨hP.bare rfl, hP.array h.1, Expr.all_lowerIndices hP index h.2⟩

theorem all_assignment (hP : Pervades c P) {a : Assignment} (h : a.Holds .lexed) : (a.lower c).All P := by
  have htarget := all_target hP h.1
  have hvalue : (a.value.lower c).All P := a.value.all_lower hP h.2
  obtain ⟨target, op, value⟩ := a
  cases op with
  | append => exact ⟨htarget, hP.bare rfl, htarget, hvalue⟩
  | _ => exact ⟨htarget, hvalue⟩

theorem all_assignments (hP : Pervades c P) {a : Option Assignment} (h : ∀ x ∈ a, x.Holds .lexed) :
    Code.Stmt.AllOf P (a.toList.map (Assignment.lower c)) := by
  cases a with
  | none => trivial
  | some a => exact ⟨all_assignment hP (h a rfl), trivial⟩

theorem all_testCode (hP : Pervades c P) {test : Option Expr} (h : ∀ e ∈ test, e.All Expr.IsLexed) :
    (testCode c test).All P := by
  cases test with
  | none => exact hP.one
  | some e => exact e.all_lower hP (h e rfl)

/-- The test of a case on some value. -/
theorem all_case (hP : Pervades c P) {subject : Code.Expr} (hsubject : subject.All P) {labels : List SignedConstant}
    (h : ∀ l ∈ labels, l.constant.IsLexed) : (Code.Expr.oneOf subject (labels.map SignedConstant.lower)).All P := by
  refine ⟨hP.bare rfl, hsubject, Code.Expr.allOf_iff.mpr ?_⟩
  exact List.forall_mem_map.mpr fun l hl => all_signedConstant hP (h l hl)

end Pervades

/-! ## Words -/

theorem worded_constant {k : Constant} (hk : k.IsLexed) : k.lower.All Code.Expr.Worded := by
  unfold Constant.IsLexed at hk
  unfold Constant.lower
  split
  · next hkind => rw [hkind] at hk; exact numeral_integer hk
  · next hkind => rw [hkind] at hk; exact numeral_octal hk
  · next hkind => rw [hkind] at hk; exact numeral_hexadecimal hk
  · next hkind => rw [hkind] at hk; exact numeral_float hk
  · next hkind =>
    rw [hkind] at hk
    refine ⟨⟨by decide, ?_⟩, Code.Arg.allOf_iff.mpr ?_⟩
    · exact List.forall_mem_map.mpr fun part _ => nofun
    · rw [List.forall_mem_map]
      exact numeral_sexagesimal hk
  · trivial
  · next hkind =>
    rw [hkind] at hk
    rcases hk with htext | htext
    · rw [htext]
      show IsPath ["yes"]
      decide
    · rw [htext]
      show IsPath ["no"]
      decide
  · next hkind =>
    rw [hkind] at hk
    rw [hk]
    show IsPath ["INDEF"]
    decide

theorem IsReference.worded {e : Code.Expr} (h : IsReference e) : e.All Code.Expr.Worded := by
  cases h with
  | path hids => exact hids
  | field howner hparam hname _ => exact ⟨howner, hparam.isWordByte, hname.isWordByte⟩

theorem IsFunction.isPath {fn : List Bytes} (h : IsFunction fn) : IsPath fn := by
  cases h with
  | task h => exact isPath_functionPath h
  | cast type => exact isPath_castFunction type
  | conversion h => exact isPath_conversion h
  | locals => decide

/-- The code of expressions is worded in all its parts. -/
theorem pervades_worded (hc : isIdentifier c.handle = true) : Pervades c Code.Expr.Worded where
  one := Python.numeral_ofNat 1
  constant := worded_constant
  reference h := (isReference_reference hc h).worded
  array h := (isReference_array hc h).worded
  call hfn hargs := ⟨hfn.isPath, hargs⟩
  bare := Code.Expr.worded_of_isBare

/-! ## Tasks -/

/-- Arguments that are worded in all their parts, under keywords made of the bytes of words. -/
def ArgsWorded (args : List Code.Arg) : Prop := Keyed args ∧ Code.Arg.AllOf Code.Expr.Worded args

theorem argsWorded_append {as bs : List Code.Arg} (ha : ArgsWorded as) (hb : ArgsWorded bs) : ArgsWorded (as ++ bs) :=
  ⟨List.forall_mem_append.mpr ⟨ha.1, hb.1⟩, Code.Arg.allOf_append.mpr ⟨ha.2, hb.2⟩⟩

theorem argsWorded_lowerAll (hc : isIdentifier c.handle = true) {as : List Arg} (h : ∀ a ∈ as, a.IsLexed) :
    ArgsWorded (Arg.lowerAll c as) :=
  ⟨keyed_lowerAll fun a ha => (h a ha).1, Arg.all_lowerAll (pervades_worded hc) as (Arg.allOf_iff.mpr fun a ha => (h a ha).2)⟩

theorem argsWorded_nil : ArgsWorded [] := ⟨nofun, trivial⟩

theorem argsWorded_cons {key : Bytes} (hkey : key.all Python.isWordByte = true) {e : Code.Expr}
    (he : e.All Code.Expr.Worded) {as : List Code.Arg} (has : ArgsWorded as) : ArgsWorded (.keyword key e :: as) := by
  refine ⟨List.forall_mem_cons.mpr ⟨?_, has.1⟩, he, has.2⟩
  rintro _ ⟨⟩
  exact List.all_eq_true.mp hkey

theorem worded_name {name : Bytes} (h : isIdentifier name = true) : (Code.Expr.name name).All Code.Expr.Worded :=
  ⟨List.cons_ne_nil _ _, by simpa using h⟩

theorem isWordByte_redirectionKey (op : Bytes) : (redirectionKey op).all Python.isWordByte = true := by
  have either {P : Prop} [Decidable P] {s t : Bytes} (hs : s.all Python.isWordByte = true)
      (ht : t.all Python.isWordByte = true) : (if P then s else t).all Python.isWordByte = true := by
    split <;> assumption
  unfold redirectionKey
  repeat refine either (by decide) ?_
  rfl

theorem argsWorded_redirections (hc : isIdentifier c.handle = true) {rs : List Redirection} (h : ∀ r ∈ rs, r.Holds .lexed) :
    ArgsWorded (rs.map (Redirection.lower c)) := by
  induction rs with
  | nil => exact argsWorded_nil
  | cons r rs ih =>
    rw [List.forall_mem_cons] at h
    exact argsWorded_cons (isWordByte_redirectionKey r.op) (r.file.all_lower (pervades_worded hc) h.1.2) (ih h.2)

theorem argsWorded_packageArgs (t : TaskCall) : ArgsWorded t.packageArgs := by
  unfold TaskCall.packageArgs
  split
  · exact argsWorded_cons (by decide) (worded_name (by decide))
      (argsWorded_cons (by decide) (worded_name (by decide)) argsWorded_nil)
  · exact argsWorded_nil

theorem argsWorded_inputArgs {input : Option Bytes} (h : ∀ pipe ∈ input, isIdentifier pipe = true) :
    ArgsWorded (inputArgs input) := by
  cases input with
  | none => exact argsWorded_nil
  | some pipe => exact argsWorded_cons (by decide) (worded_name (h pipe rfl)) argsWorded_nil

theorem worded_taskCall (hc : isIdentifier c.handle = true) {t : TaskCall} (h : t.Holds .lexed) (names : List Bytes)
    {extra : List Code.Arg} (hextra : ArgsWorded extra) : (t.lower c names extra).All Code.Expr.Worded := by
  obtain ⟨hkeyed, hargs⟩ := argsWorded_append (argsWorded_append (argsWorded_append (argsWorded_lowerAll hc h.args)
    (argsWorded_redirections hc h.redirections)) (argsWorded_packageArgs t)) hextra
  exact ⟨⟨isPath_taskPath h.task, hkeyed⟩, hargs⟩

/-- No expression is written to drop a pipe. -/
theorem all_dropPipe {P : Code.Expr → Prop} (input : Option Bytes) : Code.Stmt.AllOf P (dropPipe input) := by
  cases input with
  | none => trivial
  | some pipe => exact ⟨trivial, trivial⟩

theorem StagesLower.worded (hc : isIdentifier c.handle = true) {input : Option Bytes} {calls : List TaskCall} {p q : Progress}
    {code : List Code.Stmt} (h : StagesLower c input calls p code q) : (∀ t ∈ calls, t.Holds .lexed) →
      (∀ pipe ∈ input, isIdentifier pipe = true) → Code.Stmt.AllOf Code.Expr.Worded code := by
  induction h with
  | nil => exact fun _ _ => trivial
  | @last input t p =>
    intro hcalls hinput
    rw [List.forall_mem_singleton] at hcalls
    exact ⟨worded_taskCall hc hcalls [] (argsWorded_inputArgs hinput), all_dropPipe input⟩
  | @stage input t next rest p code q _ ih =>
    intro hcalls hinput
    rw [List.forall_mem_cons] at hcalls
    have hpipe : isIdentifier (pipeName (p.pipes + 1)) = true := isIdentifier_numbered (by decide) _
    have hone : (Code.Expr.number "1").All Code.Expr.Worded := (pervades_worded hc).one
    have hout : ArgsWorded [.keyword "Stdout" (.number "1")] := argsWorded_cons (by decide) hone argsWorded_nil
    refine ⟨worded_taskCall hc hcalls.1 _ (argsWorded_append (argsWorded_inputArgs hinput) hout), ?_⟩
    exact Code.Stmt.allOf_append.mpr ⟨all_dropPipe input, ih hcalls.2 (by simpa using hpipe)⟩

/-! ## Chains -/

/-- What holds of the tests and the bodies of some cases. -/
def CasesAll (P : Code.Expr → Prop) (otherwise : Option (List Code.Stmt)) (cases : List Case) : Prop :=
  (∀ x ∈ cases, x.1.All P ∧ Code.Stmt.AllOf P x.2) ∧ ∀ body ∈ otherwise, Code.Stmt.AllOf P body

section Chains

variable {P : Code.Expr → Prop} {otherwise : Option (List Code.Stmt)}

theorem casesAll_nil : CasesAll P otherwise [] ↔ ∀ body ∈ otherwise, Code.Stmt.AllOf P body :=
  and_iff_right (List.forall_mem_nil _)

theorem casesAll_cons {x : Case} {cases : List Case} :
    CasesAll P otherwise (x :: cases) ↔ x.1.All P ∧ Code.Stmt.AllOf P x.2 ∧ CasesAll P otherwise cases := by
  rw [CasesAll, List.forall_mem_cons, and_assoc, and_assoc]
  rfl

theorem all_caseChain (otherwise : Option (List Code.Stmt)) (cases : List Case) :
    (caseChain otherwise cases).All P ↔ CasesAll P otherwise cases := by
  induction cases with
  | nil =>
    rw [casesAll_nil]
    cases otherwise with
    | none => exact iff_of_true trivial nofun
    | some body => simp [caseChain, Code.Chain.All]
  | cons x cases ih => rw [caseChain, Code.Chain.All, ih, casesAll_cons]

theorem all_switchChain (hone : P (.number "1")) (otherwise : Option (List Code.Stmt)) (cases : List Case) :
    Code.Stmt.AllOf P (switchChain otherwise cases) ↔ CasesAll P otherwise cases := by
  cases cases with
  | nil =>
    rw [casesAll_nil]
    cases otherwise with
    | none => exact iff_of_true trivial nofun
    | some body => exact ⟨fun h _ hbody => Option.some.inj hbody ▸ h.1.2.1, fun h => ⟨⟨hone, h body rfl, trivial⟩, trivial⟩⟩
  | cons x cases =>
    rw [switchChain, Code.Stmt.AllOf, Code.Stmt.All, all_caseChain, casesAll_cons, Code.Stmt.AllOf, and_true]

theorem all_elseChain (folds : Bool) (body : List Code.Stmt) :
    (elseChain folds body).All P ↔ Code.Stmt.AllOf P body := by
  unfold elseChain
  split
  · exact (and_iff_left trivial).symm
  · rfl

end Chains

/-! ## Statements -/

mutual

/-- The code of a statement is worded in all its parts. -/
theorem Stmt.Lowers.worded (hc : isIdentifier c.handle = true) {s : Stmt} {p q : Progress} {code : List Code.Stmt} :
    s.Lowers c p code q → s.Holds .lexed → Code.Stmt.AllOf Code.Expr.Worded code
  | .empty, _ => trivial
  | .labelled hbody, h => hbody.worded hc h.2
  | .assign, h => ⟨all_assignment (pervades_worded hc) h, trivial⟩
  | .pipeline hstages, h => hstages.worded hc h nofun
  | .leave, _ => ⟨trivial, trivial⟩
  | .next, _ => ⟨trivial, trivial⟩
  | .done, _ => ⟨trivial, trivial⟩
  | .jump, _ => trivial
  | .block hbody, h => hbody.worded hc h
  | .branch hyes, h => ⟨⟨Expr.all_lower (pervades_worded hc) _ h.1, hyes.worded hc h.2, trivial⟩, trivial⟩
  | .branchElse hyes hno, h =>
    ⟨⟨Expr.all_lower (pervades_worded hc) _ h.1, hyes.worded hc h.2.1, (all_elseChain _ _).mpr (hno.worded hc h.2.2)⟩, trivial⟩
  | .loop hbody, h => ⟨⟨Expr.all_lower (pervades_worded hc) _ h.1, hbody.worded hc h.2⟩, trivial⟩
  | .forLoop hlowers, h => by
    obtain ⟨hfirst, htest, hstep, hbody⟩ := h
    have hcode := Code.Stmt.allOf_append.mpr ⟨hlowers.worded hc hbody, all_assignments (pervades_worded hc) hstep⟩
    exact Code.Stmt.allOf_append.mpr ⟨all_assignments (pervades_worded hc) hfirst, ⟨all_testCode (pervades_worded hc) htest, hcode⟩, trivial⟩
  | .switch hcases hdefault, h => by
    have hname : isIdentifier (switchName (p.switches + 1)) = true := isIdentifier_numbered (by decide) _
    refine ⟨⟨worded_name hname, Expr.all_lower (pervades_worded hc) _ h.1⟩, (all_switchChain (pervades_worded hc).one _ _).mpr ?_⟩
    exact ⟨hcases.worded hc (worded_name hname) h.2, hdefault.worded hc h.2⟩

theorem Stmt.AllLower.worded (hc : isIdentifier c.handle = true) {ss : List Stmt} {p q : Progress} {code : List Code.Stmt} :
    Stmt.AllLower c ss p code q → Stmt.AllHold .lexed ss → Code.Stmt.AllOf Code.Expr.Worded code
  | .nil, _ => trivial
  | .cons hs hss, h => Code.Stmt.allOf_append.mpr ⟨hs.worded hc h.1, hss.worded hc h.2⟩

theorem Clause.CasesLower.worded (hc : isIdentifier c.handle = true) {subject : Code.Expr} {seen : Bool}
    {clauses : List Clause} {p q : Progress} {cases : List Case} : Clause.CasesLower c subject seen clauses p cases q →
      subject.All Code.Expr.Worded → Clause.AllHold .lexed clauses →
      ∀ x ∈ cases, x.1.All Code.Expr.Worded ∧ Code.Stmt.AllOf Code.Expr.Worded x.2
  | .nil, _, _ => List.forall_mem_nil _
  | .case hbody hrest, hsubject, h => List.forall_mem_cons.mpr
    ⟨⟨all_case (pervades_worded hc) hsubject h.1.2, hbody.worded hc h.2.1⟩, hrest.worded hc hsubject h.2.2⟩
  | .otherwise hrest, hsubject, h => hrest.worded hc hsubject h.2

theorem Clause.DefaultLowers.worded (hc : isIdentifier c.handle = true) {clauses : List Clause} {p q : Progress}
    {code : Option (List Code.Stmt)} : Clause.DefaultLowers c clauses p code q → Clause.AllHold .lexed clauses →
      ∀ body ∈ code, Code.Stmt.AllOf Code.Expr.Worded body
  | .nil, _ => by simp
  | .case hrest, h => hrest.worded hc h.2.2
  | .earlier _ hrest, h => hrest.worded hc h.2
  | .last _ hbody, h => by
    rintro _ ⟨⟩
    exact hbody.worded hc h.1

end

/-- The statements that the body of a program is lowered to are worded in all their parts. -/
theorem worded_body (scope : Scope) (mode : Bytes) {t : Tree} (h : t.kind? = some .program ∧ Grown t) {body : List Stmt}
    (hbody : body? t = some body) (p : Progress) :
    Code.Stmt.AllOf Code.Expr.Worded ((Stmt.lowerAll (.of scope mode) body).run p).1 := by
  obtain ⟨body', hbody', hall⟩ := exists_body h.1 (judges_lexed h.2)
  rw [hbody, Option.some.injEq] at hbody'
  subst hbody'
  exact (Stmt.allLower _ body p).worded (isIdentifier_handle scope mode) hall

end IrafCl.Script
