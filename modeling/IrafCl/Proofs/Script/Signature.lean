import IrafCl.Proofs.Code.Name
import IrafCl.Proofs.Script.Compiled
import IrafCl.Proofs.Script.Declared
import IrafCl.Proofs.Script.Names

/-!
# The signature of generated code

The function of a program and its formal parameters go by identifiers, which are made of whole names: where a name has a dot,
so has its identifier (`isIdentifier_identifier_iff`). A script is named after its file, without dots
(`isPart_scriptName`). Parameters have distinct names, but may go by one identifier (`nodup_formals`).
-/

namespace IrafCl.Script

open Python (isWordStart isIdentifier)
open Scope

/-! ## Identifiers -/

/-- A part of a name is a name of one part. -/
theorem IsPart.parts {w : Bytes} (h : IsPart w) : ∀ v ∈ Code.parts w, IsPart v := by
  rw [Code.parts, Bytes.pieces_of_not_mem h.undotted]
  exact List.forall_mem_singleton.mpr h

/-- A name becomes an identifier just if it has a single part. -/
theorem isIdentifier_identifier_iff {name : Bytes} (h : ∀ w ∈ Code.parts name, IsPart w) :
    isIdentifier (Code.identifier name) = true ↔ Bytes.ascii '.' ∉ name := by
  refine ⟨fun hvalid hdot => ?_, fun hdot => ?_⟩
  · rw [isIdentifier, Bool.and_eq_true, List.all_eq_true] at hvalid
    exact absurd (hvalid.2 _ (Code.mem_identifier_of_mem (by decide) hdot)) (by decide)
  · rw [Code.parts, Bytes.pieces_of_not_mem hdot, List.forall_mem_singleton] at h
    exact isIdentifier_identifier h

/-! ## Scripts -/

theorem isWordStart_ascii {c : Char} (h : c.isAlpha = true) : isWordStart (Bytes.ascii c) = true := by
  have hletters : ∀ n < 123, (Char.ofNat n).isAlpha = true → isWordStart (UInt8.ofNat n) = true := by decide
  have hbound : c.toNat < 123 := by
    simp only [Char.isAlpha, Char.isUpper, Char.isLower, Bool.or_eq_true, Bool.and_eq_true, decide_eq_true_eq, ge_iff_le,
      UInt32.le_iff_toNat_le] at h
    show c.val.toNat < 123
    rcases h with ⟨-, h⟩ | ⟨-, h⟩
    · exact Nat.lt_of_le_of_lt h (by decide)
    · exact Nat.lt_of_le_of_lt h (by decide)
  exact hletters c.toNat hbound (by rwa [Char.ofNat_toNat])

theorem isDigit_ascii {c : Char} (h : c.isDigit = true) : Bytes.isDigit (Bytes.ascii c) = true := by
  have hcode := Bytes.toNat_ascii_of_isDigit h
  simp only [Char.isDigit, Bool.and_eq_true, decide_eq_true_eq, ge_iff_le, UInt32.le_iff_toNat_le] at h
  rw [Bytes.isDigit, Bool.and_eq_true, decide_eq_true_iff, decide_eq_true_iff, UInt8.le_iff_toNat_le, UInt8.le_iff_toNat_le, hcode]
  exact h

/-- What a character becomes in the name of a script, and what the first one becomes there. -/
theorem nameByte_spec (x : Scalar) : (∀ atStart, ∀ b ∈ nameByte atStart x, (isWordStart b || Bytes.isDigit b) = true) ∧
    ∃ b more, nameByte true x = b :: more ∧ isWordStart b = true := by
  have hplain : ∀ b ∈ [(95 : UInt8)], (isWordStart b || Bytes.isDigit b) = true := List.forall_mem_singleton.mpr rfl
  cases x with
  | stray b => exact ⟨fun _ => hplain, 95, [], rfl, rfl⟩
  | char c =>
    unfold nameByte
    dsimp only
    split
    · next hletter =>
      have hstart : isWordStart (Bytes.ascii c) = true := by
        rcases Bool.or_eq_true_iff.mp hletter with hletter | hletter
        · rw [beq_iff_eq.mp hletter]
          rfl
        · exact isWordStart_ascii hletter
      exact ⟨fun _ => List.forall_mem_singleton.mpr (by rw [hstart, Bool.true_or]), _, _, rfl, hstart⟩
    · split
      · next hdigit =>
        have hbyte : Bytes.isDigit (Bytes.ascii c) = true := isDigit_ascii hdigit
        refine ⟨fun atStart => ?_, 95, _, rfl, rfl⟩
        cases atStart with
        | true => exact List.forall_mem_cons.mpr ⟨by decide, List.forall_mem_singleton.mpr (by rw [hbyte, Bool.or_true])⟩
        | false => exact List.forall_mem_singleton.mpr (by rw [hbyte, Bool.or_true])
      · exact ⟨fun _ => hplain, 95, [], rfl, rfl⟩

/-- A script is named by a single part. -/
theorem isPart_scriptName (filename : Bytes) : IsPart (scriptName filename) := by
  unfold scriptName
  dsimp only
  split
  · exact ⟨⟨99, _, rfl, rfl⟩, List.all_eq_true.mp (by decide)⟩
  · next hbase =>
    cases hname : dropExtension (baseName filename) with
    | nil =>
      rw [hname] at hbase
      exact absurd rfl hbase
    | cons b bs =>
      -- some character is read first
      obtain ⟨x, xs, hscalars⟩ : ∃ x xs, Bytes.scalars (b :: bs) = x :: xs := ⟨_, _, rfl⟩
      rw [hscalars]
      dsimp only
      obtain ⟨hfirst, c, more, hcons, hc⟩ := nameByte_spec x
      refine ⟨⟨c, more ++ xs.flatMap (nameByte false), by rw [hcons, List.cons_append], hc⟩, ?_⟩
      refine List.forall_mem_append.mpr ⟨hfirst true, List.forall_mem_flatMap.mpr fun y _ => (nameByte_spec y).1 false⟩

/-! ## Names of parameters -/

theorem isPart_modeParam : IsPart modeParam := ⟨⟨109, _, rfl, rfl⟩, List.all_eq_true.mp (by decide)⟩

theorem isPart_nargsParam : IsPart nargsParam := ⟨⟨36, _, rfl, rfl⟩, List.all_eq_true.mp (by decide)⟩

/-- A parameter of a program is its own or a supplied one, and none goes by the name of the task. -/
theorem mem_names_supplied {p : ParamList} {name : Bytes} (h : name ∈ (supplied p).names) :
    (name ∈ p.names ∨ name = modeParam ∨ name = nargsParam) ∧ name ≠ taskParam := by
  rw [ParamList.names, vars_supplied, List.map_append, List.map_append, List.mem_append, List.mem_append] at h
  rcases h with (h | h) | h
  · obtain ⟨v, hv, rfl⟩ := List.mem_map.mp h
    obtain ⟨hv, hother⟩ := List.mem_filter.mp hv
    exact ⟨.inl (List.mem_map_of_mem hv), (of_decide_eq_true hother).2⟩
  · split at h
    · cases h
    · rw [List.map_singleton, List.mem_singleton] at h
      subst h
      exact ⟨.inr (.inl rfl), by decide⟩
  · rw [List.map_singleton, List.mem_singleton] at h
    subst h
    exact ⟨.inr (.inr rfl), by decide⟩

variable {st : Settings} {source : Bytes} {u : CompiledUnit} {t : Tree} {scope : Scope} {body : List Stmt}
  {stmts : List Code.Stmt} {p : Progress}

/-- The procedure and the parameters of a program without an external list have the names of the lexicon, or one that is
supplied. -/
theorem Compiled.names [Library] (h : Compiled st source u t scope body stmts p) (hexternal : st.external = none) :
    (∀ name ∈ scope.procedure :: scope.params.names, ∀ w ∈ Code.parts name, IsPart w) ∧ taskParam ∉ scope.params.names ∧
      scope.params.Distinct ∧ (scope.isProcedure = false → scope.procedure = scriptName st.filename) := by
  obtain ⟨header, hheader, hnamed⟩ := exists_header h.program
  obtain ⟨header', vs, ls, own, hheader', hs, -, hown, -⟩ :=
    accepted_declarations h.program (typeNamed_of_mem_leaves h.parsed) h.declared
  obtain rfl := Option.some.inj (hheader.symm.trans hheader')
  have hparams := hs.params
  rw [hexternal, merged] at hparams
  refine ⟨List.forall_mem_cons.mpr ⟨?_, fun name hname => ?_⟩, ?_, ?_, fun hscript => ?_⟩
  · rw [hs.procedure]
    cases hsignature : header.signature with
    | none => exact (isPart_scriptName _).parts
    | some sig => exact parts_of_matches (hnamed.procedure sig hsignature)
  · rw [hparams] at hname
    rcases (mem_names_supplied hname).1 with hname | rfl | rfl
    · rw [hown, List.mem_append] at hname
      rcases hname with hname | hname
      · obtain ⟨sig, hsig, arg, harg, rfl⟩ := Header.exists_of_mem_args hname
        exact parts_of_matches (hnamed.args sig hsig arg harg)
      · obtain ⟨v, hv, rfl⟩ := List.mem_map.mp (List.mem_of_mem_filter hname)
        obtain ⟨d, hd, x, hx, hofDecl⟩ := exists_of_mem_describe hs.described hv
        rw [(filled_ofDecl hofDecl).1]
        exact parts_of_matches ((hnamed.declarations d (List.mem_append_left _ hd)).vars x hx)
    · exact isPart_modeParam.parts
    · exact isPart_nargsParam.parts
  · rw [hparams]
    exact fun hmem => (mem_names_supplied hmem).2 rfl
  · refine hs.distinct ?_
    rw [hexternal]
    exact fun _ hext => absurd hext (Option.not_mem_none _)
  · rw [hs.isProcedure, Option.isSome_eq_false_iff, Option.isNone_iff_eq_none] at hscript
    rw [hs.procedure, hscript, Option.elim_none]

/-! ## Formal parameters -/

/-- The function line stands behind the imports. -/
theorem Compiled.code_functionLine [Library] (h : Compiled st source u t scope body stmts p) :
    ∃ rest, u.code = Code.unlines (imports ++ [[], functionLine scope] ++ rest) := by
  obtain ⟨rest, hpreamble⟩ : ∃ rest, preamble scope st.filename p.usesPackage =
      imports ++ [[], functionLine scope] ++ rest := ⟨_, rfl⟩
  have hcode := h.code
  rw [hpreamble, List.append_assoc, List.append_assoc] at hcode
  exact ⟨_, hcode⟩

/-- Two names that go by one identifier: their dollar signs are all that they differ in, or one is marked as the other is. -/
def Clash (a b : Bytes) : Prop :=
  Code.expanded a = Code.expanded b ∨ Code.expanded a ∈ Code.keywords ∧ Code.expanded b = "PY" ++ Code.expanded a

theorem fst_formals (s : Scope) : (formals s).map Prod.fst = s.params.names.map Code.identifier ++ [taskParam] := by
  rw [formals, List.map_append, List.map_map, ParamList.names, List.map_map]
  rfl

/-- The formal parameters are distinct just if no two parameters clash. The parameter for the task clashes with none. -/
theorem nodup_formals {s : Scope} (hdistinct : s.params.Distinct) (htask : taskParam ∉ s.params.names) :
    ((formals s).map Prod.fst).Nodup ↔ ∀ a ∈ s.params.names, ∀ b ∈ s.params.names, a ≠ b → ¬ Clash a b := by
  have hfree : taskParam ∉ s.params.names.map Code.identifier := by
    rintro hmem
    obtain ⟨name, hname, heq⟩ := List.mem_map.mp hmem
    exact htask (Code.eq_of_identifier (by decide) (by decide) heq ▸ hname)
  have hinjective : (∀ a ∈ s.params.names, ∀ b ∈ s.params.names, Code.identifier a = Code.identifier b → a = b) ↔
      ∀ a ∈ s.params.names, ∀ b ∈ s.params.names, a ≠ b → ¬ Clash a b := by
    refine ⟨fun h a ha b hb hne hclash => hne (h a ha b hb (Code.identifier_eq_iff.mpr ?_)), fun h a ha b hb heq => ?_⟩
    · exact hclash.imp_right .inl
    · by_contra hne
      rcases Code.identifier_eq_iff.mp heq with hclash | hclash | hclash
      · exact h a ha b hb hne (.inl hclash)
      · exact h a ha b hb hne (.inr hclash)
      · exact h b hb a ha (Ne.symm hne) (.inr hclash)
  rw [fst_formals, List.nodup_append_comm, List.singleton_append, List.nodup_cons, and_iff_right hfree,
    List.nodup_map_iff_inj_on hdistinct]
  exact hinjective

/-- A text is refused, or compiled to code whose function line stands behind the imports. Neither the function nor a formal
parameter goes by a word that Python keeps for itself. The function of a procedure and the formal parameters are identifiers
just if their names have no dots; that of a script always is. The formal parameters are distinct just if no two
parameters clash. -/
theorem compile_signature [Library] (filename mode source : Bytes) :
    (∃ halt, (compile { filename, mode } source).outcome = .error halt) ∨
    ∃ u t scope body stmts p rest, (compile { filename, mode } source).outcome = .ok u ∧
      Compiled { filename, mode } source u t scope body stmts p ∧
      u.code = Code.unlines (imports ++ [[], functionLine scope] ++ rest) ∧
      (formals scope).map Prod.fst = scope.params.names.map Code.identifier ++ [taskParam] ∧
      (∀ id ∈ Code.identifier scope.procedure :: (formals scope).map Prod.fst, id ∉ Code.keywords) ∧
      (∀ name ∈ scope.procedure :: scope.params.names,
        isIdentifier (Code.identifier name) = true ↔ Bytes.ascii '.' ∉ name) ∧
      isIdentifier taskParam = true ∧
      (scope.isProcedure = false → scope.procedure = scriptName filename ∧ Bytes.ascii '.' ∉ scope.procedure) ∧
      (((formals scope).map Prod.fst).Nodup ↔
        ∀ a ∈ scope.params.names, ∀ b ∈ scope.params.names, a ≠ b → ¬ Clash a b) := by
  cases hu : (compile { filename, mode } source).outcome with
  | error halt => exact .inl ⟨halt, rfl⟩
  | ok u =>
    obtain ⟨t, scope, body, stmts, p, h⟩ := exists_compiled hu
    obtain ⟨hnames, htask, hdistinct, hscript⟩ := h.names rfl
    obtain ⟨rest, hcode⟩ := h.code_functionLine
    refine .inr ⟨u, t, scope, body, stmts, p, rest, rfl, h, hcode, fst_formals scope, ?_, fun name hname => ?_, by decide, ?_,
      nodup_formals hdistinct htask⟩
    · rw [fst_formals]
      refine List.forall_mem_cons.mpr ⟨Code.identifier_not_mem _, List.forall_mem_append.mpr ⟨?_, ?_⟩⟩
      · exact List.forall_mem_map.mpr fun name _ => Code.identifier_not_mem name
      · exact List.forall_mem_singleton.mpr (by decide)
    · exact isIdentifier_identifier_iff (hnames name hname)
    · intro hkind
      have hname := hscript hkind
      refine ⟨hname, ?_⟩
      rw [hname]
      exact (isPart_scriptName filename).undotted

/-! ## A parameter with a dot -/

/-- A procedure whose argument has a dot in its name. -/
def dottedArgument : Bytes := "procedure p(a.b)\nint a.b\nbegin\nend\n"

def dottedArgumentTree : Tree :=
  .branch .program .unset [
    .branch .procStmt .unset [.leaf ⟨.kwProcedure, "procedure", none, 1⟩, .leaf ⟨.ident, "p", none, 1⟩,
      .leaf ⟨.lparen, "(", none, 1⟩, .branch .procArgs .unset [.leaf ⟨.ident, "a.b", none, 1⟩], .leaf ⟨.rparen, ")", none, 1⟩,
      .branch .term .unset [.leaf ⟨.newline, "\n", none, 1⟩]],
    .branch .paramDecls .unset [.branch .paramDecls .unset [], integerDecl 2 (scalarSpec 2 "a.b")],
    .branch .bodyBlock .unset [.leaf ⟨.kwBegin, "begin", none, 3⟩, .branch .optNl .unset [], .branch .localDecls .unset [],
      .branch .stmtList .unset [], .leaf ⟨.kwEnd, "end", none, 4⟩,
      .branch .optNl .unset [.leaf ⟨.newline, "\n", none, 4⟩]]]

theorem tree_dottedArgument : tree dottedArgument = .ok dottedArgumentTree :=
  tree_eq_ok (by decide +kernel) (grown_of_grows rfl) rfl (by decide) (by decide)

/-- It is compiled to a function that takes a parameter `a.b`, which is no identifier. -/
theorem dotted_formal : ∃ u scope rest, (compile {} dottedArgument).outcome = .ok u ∧
    u.code = Code.unlines (imports ++ [[], functionLine scope] ++ rest) ∧
    functionLine scope = "def p(a.b=None, mode='al', DOLLARnargs=0, taskObj=None):" ∧
    (formals scope).map Prod.fst = (["a.b", "mode", "DOLLARnargs", "taskObj"] : List Bytes) ∧ isIdentifier "a.b" = false := by
  obtain ⟨scope, hscope, hline, hformals⟩ : ∃ scope, (declarations {} dottedArgumentTree).2 = .ok scope ∧
      functionLine scope = "def p(a.b=None, mode='al', DOLLARnargs=0, taskObj=None):" ∧
      (formals scope).map Prod.fst = (["a.b", "mode", "DOLLARnargs", "taskObj"] : List Bytes) :=
    ⟨_, rfl, by decide, by decide⟩
  obtain ⟨u, hu, h⟩ := compiles tree_dottedArgument hscope rfl rfl rfl
  obtain ⟨rest, hcode⟩ := h.code_functionLine
  exact ⟨u, scope, rest, hu, hcode, hline, hformals, by decide⟩

end IrafCl.Script
