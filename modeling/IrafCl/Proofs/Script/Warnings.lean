import IrafCl.Library.Standard
import IrafCl.Proofs.Param.Messages
import IrafCl.Proofs.Python.Lines
import IrafCl.Proofs.Script.Compile
import IrafCl.Proofs.Script.Lowering
import IrafCl.Proofs.Script.Names
import IrafCl.Proofs.Script.Scope
import IrafCl.Proofs.Script.Unambiguous
import IrafCl.Proofs.Script.Variables

/-!
# Warnings below the code

Each warning is written as a comment behind the code, with a space for every line feed. A carriage return is left as it
is, and there Python ends the comment: so the comments are one line each just if no warning has one
(`physicalLines_comments`). Names, labels, numbers and quoted texts have none. What is left is the text of an initial
value: if no constant that gives one has a carriage return in it, and no external list brings one in, no warning has one
(`compile_warnings`).
-/

namespace IrafCl.Script

open Bytes (NoReturn)

/-! ## Names and types -/

theorem noReturn_of_matches {name : Bytes} (h : Lexicon.name.Matches name) : NoReturn name :=
  .of_bytes Python.isWordByte (by decide) (word_of_matches h).2

/-- The type of a declaration is the name of a type. -/
theorem noReturn_type {t : Token Symbol} (h : TypeNamed t) (hkind : t.kind = .typeName) : NoReturn (t.value.getD []) := by
  have hall : ∀ type ∈ typeNames, NoReturn type := by decide
  obtain ⟨type, htype, hvalue⟩ := h hkind
  rw [hvalue]
  exact hall type htype

/-! ## Constants -/

/-- A constant that is no string with a carriage return. -/
def SignedConstant.Plain (c : SignedConstant) : Prop := c.constant.kind = .string → NoReturn c.constant.body

theorem Constant.eq_body_of_value {c : Constant} {s : Bytes} (h : c.value = .ok (.string s)) :
    c.kind = .string ∧ s = c.body := by
  have number {α : Type} {o : Option α} {f : α → Value} (hf : ∀ a, f a ≠ .string s) : o.map f ≠ some (.string s) := by
    intro heq
    obtain ⟨a, -, ha⟩ := Option.map_eq_some_iff.mp heq
    exact hf a ha
  unfold value at h
  split at h
  · next v hv =>
    cases h
    unfold value? at hv
    split at hv
    · exact absurd hv (number nofun)
    · exact absurd hv (number nofun)
    · exact absurd hv (number nofun)
    · exact absurd hv (number nofun)
    · exact absurd hv (number nofun)
    · next hkind =>
      cases hv
      exact ⟨hkind, rfl⟩
    · cases hv
    · cases hv
  · cases h

/-- The value of a constant shows a carriage return only if the constant is a string with one. -/
theorem SignedConstant.Plain.value {c : SignedConstant} (hc : c.Plain) {v : Value} (h : c.value = .ok v) : NoReturn v.text := by
  refine Value.noReturn_text fun s heq => ?_
  subst heq
  unfold SignedConstant.value at h
  obtain ⟨w, hw, h⟩ := bind_eq_ok.mp h
  split at h
  · cases h
    obtain ⟨hkind, rfl⟩ := c.constant.eq_body_of_value hw
    exact hc hkind
  all_goals cases h

theorem Scope.noReturn_convertConstant {type : Bytes} {c : SignedConstant} (hc : c.Plain) {v : Value}
    (h : Scope.convertConstant type c = .ok v) : NoReturn v.text := by
  unfold Scope.convertConstant at h
  obtain ⟨w, hw, h⟩ := bind_eq_ok.mp h
  split at h
  · next hconvert =>
    cases h
    exact Value.noReturn_convert (hc.value hw) hconvert
  · cases h

/-! ## Declarations -/

/-- The constants that give the variables of a program their initial values. -/
def Header.initial (h : Header) : List SignedConstant := (h.params ++ h.locals).flatMap fun d => d.vars.flatMap VarDecl.initial

namespace Scope

/-- A declared variable shows a carriage return only if a constant that gives an initial value has one. -/
theorem plain_ofDecl [Library] {type : Bytes} {d : VarDecl} {v : Variable} (htype : NoReturn type)
    (hname : NoReturn d.declarator.name) (hinitial : ∀ c ∈ d.initial, c.Plain) (h : ofDecl type d = .ok v) : v.Plain := by
  let P (w : Variable) : Prop := w.name = d.declarator.name ∧ w.type = type
  have hdeclared : ∀ w, declared type d.declarator = .ok w → P w := by
    intro w hw
    obtain ⟨hname, htype, -⟩ := declared_eq_ok hw
    exact ⟨hname, htype⟩
  have hnamed : ∀ w w' key c line, P w → applyOption w key c line = .ok w' → P w' := by
    rintro w w' key c line ⟨hname, htype⟩ hw'
    rcases applyOption_cases hw' with ⟨mode, rfl⟩ | ⟨options, rfl, -⟩
    · exact ⟨hname, htype⟩
    · exact ⟨hname, htype⟩
  obtain ⟨w, values, ⟨hname', htype'⟩, hvalues, -, rfl⟩ := ofDecl_induction hdeclared (fun _ hw => hw.2) hnamed
    (fun c hc x hx => noReturn_convertConstant (hinitial c hc) hx) h
  refine ⟨hname' ▸ hname, htype' ▸ htype, ?_⟩
  refine List.forall_mem_append.mpr ⟨hvalues, fun x hx => ?_⟩
  rw [List.eq_of_mem_replicate hx]
  exact List.not_mem_nil

/-! ## Scopes -/

theorem plain_withMode {v : Variable} (h : v.Plain) (mode : Bytes) : (withMode v mode).Plain := by
  unfold withMode
  split
  · exact ⟨h.name, h.type, h.values⟩
  · exact h

theorem plain_scalar {name type : Bytes} (hname : NoReturn name) (htype : NoReturn type) (mode : Bytes) :
    (Variable.scalar name type mode).Plain := ⟨hname, htype, List.forall_mem_nil _⟩

theorem EnterAll.plain {p q : ParamList} {vs : List Variable} (h : EnterAll p vs q) (hp : ∀ v ∈ p.vars, v.Plain)
    (hvs : ∀ v ∈ vs, v.Plain) : ∀ v ∈ q.vars, v.Plain := by
  induction h with
  | none => exact hp
  | snoc _ henters ih =>
    rw [List.forall_mem_append, List.forall_mem_singleton] at hvs
    cases henters with
    | last _ => exact List.forall_mem_append.mpr ⟨ih hvs.1, List.forall_mem_singleton.mpr (plain_withMode hvs.2 _)⟩
    | argument _ _ => exact ParamList.forall_mem_set (ih hvs.1) (plain_withMode hvs.2 _)

theorem noReturn_defaultMessages [Library] (hlibrary : Library.IsPlain) {vs : List Variable} (hvs : ∀ v ∈ vs, v.Plain) :
    ∀ m ∈ vs.flatMap Variable.defaultMessages, NoReturn m := by
  intro m hm
  obtain ⟨v, hv, hm⟩ := List.mem_flatMap.mp hm
  unfold Variable.defaultMessages at hm
  split at hm
  · next hmessages => exact (hvs v hv).checkDefaults hlibrary hmessages m hm
  · cases hm

theorem noReturn_mismatches {p : ParamList} {external : Option External} (hp : ∀ v ∈ p.vars, v.Plain)
    (hexternal : ∀ ext ∈ external, ∀ v ∈ ext.params.vars, v.Plain) : ∀ m ∈ mismatches p external, NoReturn m := by
  have without {p : ParamList} (hp : ∀ v ∈ p.vars, v.Plain) : ∀ v ∈ (withoutSupplied p).vars, v.Plain := fun v hv =>
    hp v (List.mem_of_mem_filter (List.mem_of_mem_filter (List.mem_of_mem_filter hv)))
  cases external with
  | none => exact List.forall_mem_nil _
  | some ext =>
    intro m hm
    obtain ⟨message, hmessage, rfl⟩ := List.mem_map.mp hm
    have hmismatch : NoReturn "external parameter list mismatch: " := by decide
    exact hmismatch.append (ParamList.noReturn_compare (without hp) (without (hexternal ext rfl)) message hmessage)

/-- The warnings about declarations have no carriage return unless an initial value or an external list has one. -/
theorem noReturn_ofHeader [Library] (hlibrary : Library.IsPlain) {s : Scope} {st : Settings} {header : Header}
    {leaves : List (Token Symbol)} (hnamed : header.Named leaves) (htypes : ∀ t ∈ leaves, TypeNamed t)
    (hinitial : ∀ c ∈ header.initial, c.Plain) (hexternal : ∀ ext ∈ st.external, ∀ v ∈ ext.params.vars, v.Plain)
    (h : (ofHeader st header).2 = .ok s) : ∀ w ∈ s.warnings, NoReturn w := by
  obtain ⟨vs, ls, own, hs⟩ := accepted_ofHeader h
  have hplain {ds : List Declaration} {vs : List Variable} (hds : ∀ d ∈ ds, d ∈ header.params ++ header.locals)
      (hvs : describe ds = .ok vs) : ∀ v ∈ vs, v.Plain := by
    intro v hv
    obtain ⟨d, hd, x, hx, hv⟩ := exists_of_mem_describe hvs hv
    replace hd := hds d hd
    obtain ⟨t, ht, hkind, hvalue⟩ := (hnamed.declarations d hd).type
    refine plain_ofDecl ?_ (noReturn_of_matches ((hnamed.declarations d hd).vars x hx)) (fun c hc => hinitial c ?_) hv
    · rw [hvalue]
      exact noReturn_type (htypes t ht) hkind
    · exact List.mem_flatMap.mpr ⟨d, hd, List.mem_flatMap.mpr ⟨x, hx, hc⟩⟩
  have hvs := hplain (fun _ => List.mem_append_left _) hs.described
  have hls := hplain (fun _ => List.mem_append_right _) hs.describedLocals
  have hargs : ∀ v ∈ (awaiting header.args).vars, v.Plain := by
    intro v hv
    obtain ⟨a, ha, rfl⟩ := List.mem_map.mp hv
    obtain ⟨sig, hsig, arg, harg, rfl⟩ := Header.exists_of_mem_args ha
    exact plain_scalar (noReturn_of_matches (hnamed.args sig hsig arg harg)) (by decide) "a"
  rw [hs.warnings]
  exact List.forall_mem_append.mpr ⟨List.forall_mem_append.mpr
    ⟨noReturn_defaultMessages hlibrary hvs, noReturn_defaultMessages hlibrary hls⟩,
    noReturn_mismatches (hs.enterAll.plain hargs hvs) hexternal⟩

end Scope

/-! ## Labels -/

/-- The warnings of lowering have no carriage return. -/
def Progress.Plain (p : Progress) : Prop := ∀ w ∈ p.warnings, NoReturn w

variable {c : Context} {J : Judgement}

theorem noReturn_atLineText {message : Bytes} (h : NoReturn message) (line : Int) : NoReturn (atLineText message line) := by
  unfold atLineText
  split
  · have hopen : NoReturn " (line " := by decide
    exact ((h.append hopen).append (Bytes.noReturn_ofInt line)).append (by decide)
  · exact h

theorem Progress.Plain.warned {p : Progress} (hp : p.Plain) {label : Bytes} (h : Lexicon.name.Matches label) (line : Int) :
    (p.warned label line).Plain := by
  refine List.forall_mem_append.mpr ⟨hp, List.forall_mem_singleton.mpr (noReturn_atLineText ?_ line)⟩
  have hlabel : NoReturn "label '" := by decide
  exact (hlabel.append (noReturn_of_matches h)).append (by decide)

theorem StagesLower.warnings_eq {input : Option Bytes} {calls : List TaskCall} {p q : Progress} {code : List Code.Stmt}
    (h : StagesLower c input calls p code q) : q.warnings = p.warnings := by
  induction h with
  | nil => rfl
  | last => rfl
  | stage _ ih => exact ih

mutual

/-- Lowering warns of labels only, and those are names. -/
theorem Stmt.Lowers.plain {s : Stmt} {p q : Progress} {code : List Code.Stmt} :
    s.Lowers c p code q → s.Holds J → p.Plain → q.Plain
  | .empty, _, hp => hp
  | .labelled hbody, h, hp => hbody.plain h.2 (hp.warned h.1 _)
  | .assign, _, hp => hp
  | .pipeline hstages, _, hp => by
    rw [Progress.Plain, hstages.warnings_eq]
    exact hp
  | .leave, _, hp => hp
  | .next, _, hp => hp
  | .done, _, hp => hp
  | .jump, _, hp => hp
  | .block hbody, h, hp => hbody.plain h hp
  | .branch hyes, h, hp => hyes.plain h.2 hp
  | .branchElse hyes hno, h, hp => hno.plain h.2.2 (hyes.plain h.2.1 hp)
  | .loop hbody, h, hp => hbody.plain h.2 hp
  | .forLoop hbody, h, hp => hbody.plain h.2.2.2 hp
  | .switch hcases hdefault, h, hp => hdefault.plain h.2 (hcases.plain h.2 hp)

theorem Stmt.AllLower.plain {ss : List Stmt} {p q : Progress} {code : List Code.Stmt} :
    Stmt.AllLower c ss p code q → Stmt.AllHold J ss → p.Plain → q.Plain
  | .nil, _, hp => hp
  | .cons hs hss, h, hp => hss.plain h.2 (hs.plain h.1 hp)

theorem Clause.CasesLower.plain {subject : Code.Expr} {seen : Bool} {clauses : List Clause} {p q : Progress}
    {cases : List Case} : Clause.CasesLower c subject seen clauses p cases q → Clause.AllHold J clauses → p.Plain → q.Plain
  | .nil, _, hp => hp
  | .case hbody hrest, h, hp => hrest.plain h.2.2 (hbody.plain h.2.1 hp)
  | .otherwise hrest, h, hp => hrest.plain h.2 (by simpa [Progress.Plain] using hp)

theorem Clause.DefaultLowers.plain {clauses : List Clause} {p q : Progress} {code : Option (List Code.Stmt)} :
    Clause.DefaultLowers c clauses p code q → Clause.AllHold J clauses → p.Plain → q.Plain
  | .nil, _, hp => hp
  | .case hrest, h, hp => hrest.plain h.2.2 hp
  | .earlier _ hrest, h, hp => hrest.plain h.2 hp
  | .last _ hbody, h, hp => hbody.plain h.1 hp

end

theorem Stmt.plain_lowerAll (ss : List Stmt) (h : Stmt.AllHold J ss) (p : Progress) (hp : p.Plain) :
    Progress.Plain ((Stmt.lowerAll c ss).run p).2 := (Stmt.allLower c ss p).plain h hp

/-! ## Comments -/

/-- A comment is a line of its own just if the warning has no carriage return. -/
theorem oneLine_warningLine {w : Bytes} : Python.OneLine (warningLine w) ↔ NoReturn w := by
  have hopen : Python.OneLine "# Warning: " := by decide
  rw [warningLine, Python.oneLine_append]
  constructor
  · intro h hreturn
    have hmem : 13 ∈ Bytes.substitute 10 " " w := List.mem_flatMap.mpr ⟨13, hreturn, by decide⟩
    exact (h.2 13 hmem).2 rfl
  · refine fun h => ⟨hopen, fun b hb => ?_⟩
    obtain ⟨c, hc, hb⟩ := List.mem_flatMap.mp hb
    split at hb
    · have hspace : Python.OneLine " " := by decide
      exact hspace b hb
    · next hfeed =>
      rw [List.mem_singleton] at hb
      subst hb
      exact ⟨hfeed, fun hreturn => h (hreturn ▸ hc)⟩

/-- The lines below printed ones are the comments, one line each, just if no warning has a carriage return. -/
theorem physicalLines_comments {head warnings : List Bytes} :
    Python.physicalLines (Code.unlines head ++ Code.unlines (warnings.map warningLine)) =
        Python.physicalLines (Code.unlines head) ++ warnings.map warningLine ↔ ∀ w ∈ warnings, NoReturn w := by
  rw [Python.physicalLines_below, List.forall_mem_map]
  exact forall₂_congr fun w _ => oneLine_warningLine

/-- A text is refused, or compiled to the lines of a preamble and of its statements, and a comment below for each warning.
Python sees these comments there and nothing else just if no warning has a carriage return. No warning has one if neither
a constant that gives an initial value nor an external list brings one in, and the validator adds none. -/
theorem compile_warnings [Library] (st : Settings) (source : Bytes) : (∃ halt, (compile st source).outcome = .error halt) ∨
    ∃ u t header scope body stmts p head, (compile st source).outcome = .ok u ∧ tree source = .ok t ∧
      Header.ofTree? t = some header ∧ (declarations st t).2 = .ok scope ∧ body? (Typing.annotate scope t) = some body ∧
      (Stmt.lowerAll (.of scope st.mode) body).run .start = (stmts, p) ∧
      head = preamble scope st.filename p.usesPackage ++ Code.Stmt.allLines Code.bodyLevel stmts ∧
      u.code = Code.unlines head ++ Code.unlines (u.warnings.map warningLine) ∧
      (∀ line ∈ u.warnings.map warningLine, Bytes.ofString "# Warning: " <+: line) ∧
      (Python.physicalLines u.code = Python.physicalLines (Code.unlines head) ++ u.warnings.map warningLine ↔
        ∀ w ∈ u.warnings, NoReturn w) ∧
      (Library.IsPlain → (∀ c ∈ header.initial, c.Plain) → (∀ ext ∈ st.external, ∀ v ∈ ext.params.vars, v.Plain) →
        ∀ w ∈ u.warnings, NoReturn w) := by
  cases hu : (compile st source).outcome with
  | error halt => exact .inl ⟨halt, rfl⟩
  | ok u =>
    obtain ⟨t, scope, g, htree, ⟨hkind, hgrown⟩, hscope, hg, hcode, hunit⟩ := compile_eq_ok hu
    obtain ⟨header, hheader, hnamed⟩ := exists_header ⟨hkind, hgrown⟩
    obtain ⟨body, hbody, hall⟩ := exists_body ((Typing.kind?_annotate scope t).trans hkind)
      (judges_any (Typing.grown_annotate scope hgrown))
    cases hrun : (Stmt.lowerAll (.of scope st.mode) body).run .start with
    | mk stmts p =>
    obtain ⟨hwarnings, hlines⟩ := code_generateTree (program_annotate scope ⟨hkind, hgrown⟩) hbody hrun hg hcode
    have hunit : u.warnings = g.warnings := by rw [hunit]; rfl
    rw [← hunit] at hwarnings hlines
    have hhead : u.code = Code.unlines (preamble scope st.filename p.usesPackage ++ Code.Stmt.allLines Code.bodyLevel stmts) ++
        Code.unlines (u.warnings.map warningLine) := by
      rw [hlines, Code.unlines, Code.unlines, Code.unlines, Code.unlines, List.flatMap_append]
    refine .inr ⟨u, t, header, scope, body, stmts, p, _, rfl, htree, hheader, hscope, hbody, hrun, rfl, hhead, ?_, ?_, ?_⟩
    · rw [List.forall_mem_map]
      exact fun w _ => List.prefix_append _ _
    · rw [hhead]
      exact physicalLines_comments
    · intro hlibrary hinitial hexternal
      rw [hwarnings]
      obtain ⟨header', hheader', hofHeader⟩ := declarations_eq_ok hscope
      rw [hheader, Option.some.injEq] at hheader'
      subst hheader'
      have hdeclared := Scope.noReturn_ofHeader hlibrary hnamed (typeNamed_of_mem_leaves htree) hinitial hexternal hofHeader
      have hlowered := Stmt.plain_lowerAll (c := .of scope st.mode) body hall .start (List.forall_mem_nil _)
      rw [hrun] at hlowered
      exact List.forall_mem_append.mpr ⟨hdeclared, hlowered⟩

/-- The standard validator quotes what it shows of a schema. -/
theorem isPlain_standard : Library.IsPlain := by
  intro s v found hv hfound
  obtain ⟨message, hmessage, rfl⟩ := Option.map_eq_some_iff.mp hfound
  exact Schema.noReturn_violation? hv hmessage

/-- A variable with a default that is none of its choices, and has a carriage return in it. -/
def returning : Bytes := "string s = \"a\\rimport os\" \x7benum=\"x|y\"\x7d\n"

/-- A string as an initial value. -/
def stringTree (text body : Bytes) : Tree :=
  .branch .initValue .unset [.branch .constant .unset [.leaf ⟨.string, text, some body, 1⟩]]

def returningTree : Tree :=
  .branch .program .unset [
    .branch .localDecls .unset [.branch .localDecls .unset [], .branch .declStmt .unset [
      .leaf ⟨.typeName, "string", some "string", 1⟩,
      .branch .declList .unset [.branch .declSpec .unset [
        .branch .declVar .unset [.branch .varName .unset [.leaf ⟨.ident, "s", none, 1⟩], .leaf ⟨.equals, "=", none, 1⟩,
          .branch .initList .unset [stringTree "\"a\\rimport os\"" "a\rimport os"]],
        .branch .declOpts .unset [.leaf ⟨.lbrace, "\x7b", none, 1⟩,
          .branch .optList .unset [.branch .optItem .unset [.leaf ⟨.ident, "enum", none, 1⟩, .leaf ⟨.equals, "=", none, 1⟩,
            stringTree "\"x|y\"" "x|y"]],
          .branch .optNl .unset [], .leaf ⟨.rbrace, "\x7d", none, 1⟩]]],
      .branch .term .unset [.leaf ⟨.newline, "\n", none, 1⟩]]],
    .branch .stmtList .unset []]

theorem tree_returning : tree returning = .ok returningTree :=
  tree_eq_ok (by decide +kernel) (grown_of_grows rfl) rfl (by decide) (by decide)

def returningWarning : Bytes := "default value a\rimport os of 's' is invalid: value must be one of \"x\", \"y\""

/-- What Python sees of the warning. -/
def returningBelow : List Bytes :=
  ["# Warning: default value a", "import os of 's' is invalid: value must be one of \"x\", \"y\""]

/-- One warning, and two lines below the code: the second is the text of the default, and no comment. -/
theorem imports_returning : ∃ u t scope head, (compile {} returning).outcome = .ok u ∧ tree returning = .ok t ∧
    (declarations {} t).2 = .ok scope ∧ u.warnings = [returningWarning] ∧ head = Code.unlines (preamble scope [] false) ∧
    u.code = head ++ Code.unlines (u.warnings.map warningLine) ∧
    Python.physicalLines u.code = Python.physicalLines head ++ returningBelow ∧
    ∃ line ∈ returningBelow, ¬ Bytes.ofString "# Warning: " <+: line := by
  obtain ⟨u, hu, hwarnings⟩ : ∃ u, (compileTree {} returningTree).outcome = .ok u ∧ u.warnings = [returningWarning] :=
    ⟨_, rfl, by decide +kernel⟩
  obtain ⟨t, scope, g, htree, hprogram, hscope, hg, hcode, hunit⟩ := compile_eq_ok ((outcome_compile tree_returning).trans hu)
  have ht : t = returningTree := Except.ok.inj (htree.symm.trans tree_returning)
  have hbody : body? (Typing.annotate scope t) = some [] := by
    subst ht
    rfl
  obtain ⟨-, hlines⟩ := code_generateTree (program_annotate scope hprogram) hbody rfl hg hcode
  have hunit : u.warnings = g.warnings := by rw [hunit]; rfl
  have hempty : Code.unlines (Code.Stmt.allLines Code.bodyLevel []) = [] := rfl
  rw [hempty, List.append_nil, ← hunit] at hlines
  have hbelow : Python.physicalLines (Code.unlines [warningLine returningWarning]) = returningBelow := by decide +kernel
  refine ⟨u, t, scope, _, (outcome_compile tree_returning).trans hu, htree, hscope, hwarnings, rfl, hlines, ?_, by decide⟩
  rw [hlines, hwarnings, List.map_singleton, Python.physicalLines_unlines_append, hbelow]
  rfl

end IrafCl.Script
