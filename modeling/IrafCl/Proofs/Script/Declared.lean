import IrafCl.Library.Standard
import IrafCl.Proofs.Script.Programs
import IrafCl.Proofs.Script.Scope
import IrafCl.Proofs.Script.Unambiguous
import IrafCl.Proofs.Script.Variables

/-!
# The parameters of a program

An argument has its place from the signature on, and its declaration fills it; other parameters follow in the order of
their declarations (`vars_enterAll`). An external list is laid over them (`vars_merged`). What comes out in the end is the
list of arguments that callers see (`params_declarations`), and each variable in it is complete (`complete_declarations`).
Local variables are kept apart from what a program declares, but not from what is supplied: a local variable of that name
is hidden (`distinct_declarations`).
-/

namespace IrafCl.Script

open Scope

/-! ## Places -/

/-- The parameters that a program declares itself: its arguments as they stand in the signature, then the others as they are
declared. -/
def ordered (args : List Bytes) (vs : List Variable) : List Variable :=
  (args.filterMap fun a => vs.find? fun v => v.name = a).map (withMode · "a") ++
    (vs.filter fun v => v.name ∉ args).map (withMode · "h")

/-- The place of an argument, once some variables are declared. -/
def place (vs : List Variable) (a : Bytes) : Variable :=
  ((vs.find? fun v => v.name = a).map (withMode · "a")).getD (.scalar a [] "a")

/-- The parameters once some variables are declared. -/
def placed (args : List Bytes) (vs : List Variable) : ParamList :=
  ⟨args.map (place vs) ++ (vs.filter fun v => v.name ∉ args).map (withMode · "h")⟩

variable {args : List Bytes} {vs : List Variable} {v : Variable} {a : Bytes}

/-- The place of an argument holds its declaration, or awaits it. -/
theorem place_cases (vs : List Variable) (a : Bytes) : (∃ v ∈ vs, v.name = a ∧ vs.find? (fun v => v.name = a) = some v ∧
    place vs a = withMode v "a") ∨ (∀ v ∈ vs, v.name ≠ a) ∧ place vs a = .scalar a [] "a" := by
  unfold place
  cases hfind : vs.find? fun v => v.name = a with
  | none => exact .inr ⟨by simpa using hfind, rfl⟩
  | some v => exact .inl ⟨v, List.mem_of_find?_eq_some hfind, by simpa using List.find?_some hfind, rfl, rfl⟩

theorem name_place (vs : List Variable) (a : Bytes) : (place vs a).name = a := by
  rcases place_cases vs a with ⟨v, -, hname, -, h⟩ | ⟨-, h⟩
  · rw [h, name_withMode, hname]
  · rw [h]
    rfl

theorem place_append_of_ne (h : v.name ≠ a) : place (vs ++ [v]) a = place vs a := by
  simp [place, List.find?_append, h]

theorem place_append_self (h : ∀ w ∈ vs, w.name ≠ v.name) : place (vs ++ [v]) v.name = withMode v "a" := by
  have hnone : (vs.find? fun w => w.name = v.name) = none := by simpa using h
  simp [place, List.find?_append, hnone]

theorem names_placed (args : List Bytes) (vs : List Variable) :
    (placed args vs).names = args ++ (vs.map (·.name)).filter (· ∉ args) := by
  simp [placed, ParamList.names, name_place, name_withMode, List.filter_map, Function.comp_def]

/-- A parameter without a type is an argument that awaits its declaration. -/
theorem exists_of_type_eq_nil {prev : Variable} (htypes : ∀ v ∈ vs, v.type ≠ []) (hprev : prev ∈ (placed args vs).vars)
    (htype : prev.type = []) : prev.name ∈ args ∧ (∀ v ∈ vs, v.name ≠ prev.name) ∧ prev.mode = "a" := by
  rcases List.mem_append.mp hprev with hprev | hprev
  · obtain ⟨a, ha, rfl⟩ := List.mem_map.mp hprev
    rw [name_place]
    rcases place_cases vs a with ⟨v, hv, -, -, h⟩ | ⟨hnone, h⟩
    · rw [h, type_withMode] at htype
      exact absurd htype (htypes v hv)
    · exact ⟨ha, hnone, by rw [h]; rfl⟩
  · obtain ⟨v, hv, rfl⟩ := List.mem_map.mp hprev
    rw [type_withMode] at htype
    exact absurd htype (htypes v (List.mem_of_mem_filter hv))

/-- A variable under a free name stands last. -/
theorem placed_append_of_not_mem (h : v.name ∉ args) : placed args (vs ++ [v]) = (placed args vs).append (withMode v "h") := by
  have hplaces : args.map (place (vs ++ [v])) = args.map (place vs) :=
    List.map_congr_left fun a ha => place_append_of_ne fun heq => h (heq ▸ ha)
  simp [placed, ParamList.append, hplaces, List.filter_append, h]

/-- The declaration of an argument stands in its place. -/
theorem placed_append_of_mem (h : v.name ∈ args) (hfree : ∀ w ∈ vs, w.name ≠ v.name) :
    placed args (vs ++ [v]) = (placed args vs).set (withMode v "a") := by
  have hhas : (placed args vs).has (withMode v "a").name = true := by
    rw [ParamList.has_iff, names_placed, name_withMode]
    exact List.mem_append_left _ h
  have hplaces : args.map (place (vs ++ [v])) =
      (args.map (place vs)).map fun w => if w.name = v.name then withMode v "a" else w := by
    rw [List.map_map]
    refine List.map_congr_left fun a _ => ?_
    rw [Function.comp_apply, name_place]
    split
    · next heq => rw [heq, place_append_self hfree]
    · next hne => rw [place_append_of_ne (Ne.symm hne)]
  have hothers : (vs.filter fun w => w.name ∉ args).map (withMode · "h") =
      ((vs.filter fun w => w.name ∉ args).map (withMode · "h")).map fun w => if w.name = v.name then withMode v "a" else w := by
    rw [List.map_map]
    refine List.map_congr_left fun w hw => ?_
    rw [Function.comp_apply, name_withMode, if_neg (hfree w (List.mem_of_mem_filter hw))]
  rw [ParamList.set, if_pos hhas, name_withMode]
  unfold placed
  rw [List.map_append, ← hplaces, ← hothers]
  simp [List.filter_append, h]

/-- Parameters with types enter so that arguments are filled in their places, and have names of their own. -/
theorem vars_enterAll {q : ParamList} (h : EnterAll (awaiting args) vs q) (htypes : ∀ v ∈ vs, v.type ≠ []) :
    q = placed args vs ∧ (vs.map (·.name)).Nodup := by
  induction h with
  | none =>
    refine ⟨?_, List.nodup_nil⟩
    simp [placed, awaiting, place]
  | @snoc vs q r v _ henters ih =>
    rw [List.forall_mem_append, List.forall_mem_singleton] at htypes
    obtain ⟨rfl, hdistinct⟩ := ih htypes.1
    -- either way the name is that of none declared before
    have hsnoc (hfree : ∀ w ∈ vs, w.name ≠ v.name) : ((vs ++ [v]).map (·.name)).Nodup := by
      have hname : (ParamList.mk vs).has v.name = false := ParamList.has_eq_false_iff.mpr (by simpa [ParamList.names] using hfree)
      exact ParamList.Distinct.append hdistinct hname
    cases henters with
    | last hfree =>
      have hname := ParamList.has_eq_false_iff.mp hfree
      rw [names_placed, List.mem_append, not_or] at hname
      have hfree : ∀ w ∈ vs, w.name ≠ v.name := fun w hw heq =>
        hname.2 (List.mem_filter.mpr ⟨heq ▸ List.mem_map_of_mem hw, decide_eq_true hname.1⟩)
      exact ⟨(placed_append_of_not_mem hname.1).symm, hsnoc hfree⟩
    | @argument prev hprev htype =>
      have hname : prev.name = v.name := by simpa using List.find?_some hprev
      obtain ⟨hmem, hfree, hmode⟩ := exists_of_type_eq_nil htypes.1 (List.mem_of_find?_eq_some hprev) htype
      rw [hname] at hmem hfree
      rw [hmode]
      exact ⟨(placed_append_of_mem hmem hfree).symm, hsnoc hfree⟩

/-- Once all arguments are declared, every place is filled. -/
theorem vars_placed (h : ∀ a ∈ args, (place vs a).type ≠ []) : (placed args vs).vars = ordered args vs := by
  have hplace : ∀ a ∈ args, (vs.find? fun v => v.name = a).map (withMode · "a") = (some ∘ place vs) a := by
    intro a ha
    rcases place_cases vs a with ⟨v, -, -, hfind, hplace⟩ | ⟨-, hplace⟩
    · rw [Function.comp_apply, hfind, hplace, Option.map_some]
    · refine absurd ?_ (h a ha)
      rw [hplace]
      rfl
  rw [placed, ordered, List.map_filterMap, List.filterMap_congr hplace, List.filterMap_eq_map]

/-! ## External lists -/

/-- An external list over the parameters that a program declares: it takes their place, or each of its variables takes the
place of the one of its name, and the others follow. -/
def overlay (own : List Variable) : Option External → List Variable
  | none => own
  | some ext =>
    if ext.authoritative then ext.params.vars
    else own.map (fun v => (ext.params.get? v.name).getD v) ++ ext.params.vars.filter fun v => v.name ∉ own.map (·.name)

theorem vars_merged {p : ParamList} {external : Option External} (hexternal : ∀ ext ∈ external, ext.params.Distinct) :
    (merged p external).vars = overlay p.vars external := by
  cases external with
  | none => rfl
  | some ext =>
    unfold merged overlay
    dsimp only
    split
    · rfl
    · have hfree : (fun v : Variable => !p.has v.name) = fun v => decide (v.name ∉ p.vars.map (·.name)) := by
        funext v
        rw [Bool.eq_iff_iff, Bool.not_eq_true', ParamList.has_eq_false_iff, decide_eq_true_iff]
        rfl
      rw [ParamList.vars_setAll p (hexternal ext rfl), hfree]
      rfl

/-- The variables of an external list are among those that are laid over others. -/
theorem mem_overlay {own : List Variable} {ext : External} (h : ext.params.Distinct) (hv : v ∈ ext.params.vars) :
    v ∈ overlay own (some ext) := by
  unfold overlay
  dsimp only
  split
  · exact hv
  · by_cases hown : v.name ∈ own.map (·.name)
    · obtain ⟨w, hw, hname⟩ := List.mem_map.mp hown
      refine List.mem_append_left _ (List.mem_map.mpr ⟨w, hw, ?_⟩)
      rw [hname, h.get?_of_mem hv, Option.getD_some]
    · exact List.mem_append_right _ (List.mem_filter.mpr ⟨hv, decide_eq_true hown⟩)

theorem has_merged_eq_false {p : ParamList} {external : Option External} {name : Bytes} (hp : p.has name = false)
    (hexternal : ∀ ext ∈ external, ext.params.has name = false) : (merged p external).has name = false := by
  have hother {q : ParamList} : q.has name = false ↔ ∀ w ∈ q.vars, w.name ≠ name := by
    rw [ParamList.has_eq_false_iff, ParamList.names, List.mem_map, not_exists]
    exact forall_congr' fun w => not_and
  cases external with
  | none => exact hp
  | some ext =>
    have hext := hexternal ext rfl
    show (if ext.authoritative then ext.params else p.setAll ext.params.vars).has name = false
    split
    · exact hext
    · exact hother.mpr (ParamList.forall_mem_setAll (hother.mp hp) (hother.mp hext))

theorem withoutSupplied_eq (p : ParamList) : withoutSupplied p = ⟨p.vars.filter fun v => !isSupplied v.name⟩ := by
  simp only [withoutSupplied, ParamList.remove, List.filter_filter]
  congr 2
  funext v
  simp [isSupplied, Bool.and_assoc, Bool.and_comm]

/-! ## Supplied parameters -/

/-- A name that is free before is free after, unless it is a supplied one. -/
theorem get?_supplied_of_not_has {p : ParamList} {name : Bytes} (h : p.has name = false) : (supplied p).get? name =
    if name = modeParam then some suppliedMode else if name = nargsParam then some suppliedNargs else none := by
  have hnone : (p.vars.filter fun v => v.name ≠ nargsParam ∧ v.name ≠ taskParam).find? (fun v => v.name = name) = none := by
    have hnames := ParamList.has_eq_false_iff.mp h
    rw [List.find?_eq_none]
    intro v hv heq
    exact hnames (of_decide_eq_true heq ▸ List.mem_map_of_mem (List.mem_of_mem_filter hv))
  rw [ParamList.get?, vars_supplied, List.find?_append, List.find?_append, hnone, Option.none_or]
  have hmodeName : suppliedMode.name = modeParam := rfl
  have hnargsName : suppliedNargs.name = nargsParam := rfl
  by_cases hmode : name = modeParam
  · rw [← hmode, h]
    simp [hmodeName, hmode]
  · have hskip : (if p.has modeParam = true then [] else [suppliedMode]).find? (fun v => v.name = name) = none := by
      split
      · rfl
      · simp [hmodeName, Ne.symm hmode]
    rw [hskip, Option.none_or, if_neg hmode]
    simp [hnargsName, eq_comm]

/-! ## Programs

The tree of a text is a program that grew, and its types are names of types (`tree_ends`, `typeNamed_of_mem_leaves`). That
much is asked of a tree where declarations must have types.
-/

/-- A procedure whose argument is declared last, with a local variable that has the name of a supplied parameter. -/
def shadowing : Bytes := "procedure p(b)\nint a\nint b[2] = 1 \x7bmin=0\x7d\nbegin\nint mode\nend\n"

/-- The declaration of an integer. -/
def integerDecl (line : Int) (spec : List Tree) : Tree :=
  .branch .declStmt .unset [.leaf ⟨.typeName, "int", some "int", line⟩,
    .branch .declList .unset [.branch .declSpec .unset spec], .branch .term .unset [.leaf ⟨.newline, "\n", none, line⟩]]

def scalarSpec (line : Int) (name : Bytes) : List Tree :=
  [.branch .declVar .unset [.branch .varName .unset [.leaf ⟨.ident, name, none, line⟩]]]

def arraySpec : List Tree :=
  let digit (text : Bytes) : Tree := .branch .initValue .unset [.branch .constant .unset [.leaf ⟨.integer, text, none, 3⟩]]
  [.branch .declVar .unset [
    .branch .varName .unset [.leaf ⟨.ident, "b", none, 3⟩, .leaf ⟨.lbracket, "[", none, 3⟩, .leaf ⟨.integer, "2", none, 3⟩,
      .leaf ⟨.rbracket, "]", none, 3⟩],
    .leaf ⟨.equals, "=", none, 3⟩, .branch .initList .unset [digit "1"]],
  .branch .declOpts .unset [.leaf ⟨.lbrace, "\x7b", none, 3⟩,
    .branch .optList .unset [.branch .optItem .unset [.leaf ⟨.ident, "min", none, 3⟩, .leaf ⟨.equals, "=", none, 3⟩, digit "0"]],
    .branch .optNl .unset [], .leaf ⟨.rbrace, "\x7d", none, 3⟩]]

def shadowingTree : Tree :=
  .branch .program .unset [
    .branch .procStmt .unset [.leaf ⟨.kwProcedure, "procedure", none, 1⟩, .leaf ⟨.ident, "p", none, 1⟩,
      .leaf ⟨.lparen, "(", none, 1⟩, .branch .procArgs .unset [.leaf ⟨.ident, "b", none, 1⟩], .leaf ⟨.rparen, ")", none, 1⟩,
      .branch .term .unset [.leaf ⟨.newline, "\n", none, 1⟩]],
    .branch .paramDecls .unset [
      .branch .paramDecls .unset [.branch .paramDecls .unset [], integerDecl 2 (scalarSpec 2 "a")], integerDecl 3 arraySpec],
    .branch .bodyBlock .unset [.leaf ⟨.kwBegin, "begin", none, 4⟩, .branch .optNl .unset [],
      .branch .localDecls .unset [.branch .localDecls .unset [], integerDecl 5 (scalarSpec 5 "mode")],
      .branch .stmtList .unset [], .leaf ⟨.kwEnd, "end", none, 6⟩,
      .branch .optNl .unset [.leaf ⟨.newline, "\n", none, 6⟩]]]

theorem grown_shadowingTree : Grown shadowingTree := grown_of_grows rfl

theorem tree_shadowing : tree shadowing = .ok shadowingTree :=
  tree_eq_ok (by decide +kernel) grown_shadowingTree rfl (by decide) (by decide)

/-- An external list, with a parameter that is declared and one that is not. -/
def outside : External :=
  ⟨⟨[{ Variable.scalar "a" "int" "q" with initial := some [.int 5] }, .scalar "c" "real" "h"]⟩, false⟩

theorem typeNamed_shadowing : ∀ token ∈ shadowingTree.leaves, TypeNamed token := typeNamed_of_mem_leaves tree_shadowing

theorem distinct_outside : ∀ ext ∈ some outside, ext.params.Distinct := by
  rintro _ ⟨⟩
  show outside.params.names.Nodup
  decide

variable {st : Settings} {t : Tree} {s : Scope}

/-- The parameters of a program have distinct names, and so have its local variables. A local variable has the name of a
parameter just if that one is supplied, and then its name refers to the parameter. -/
theorem distinct_declarations [Library] (hexternal : ∀ ext ∈ st.external, ext.params.Distinct)
    (h : (declarations st t).2 = .ok s) : s.params.Distinct ∧ s.locals.Distinct ∧ ∀ l ∈ s.locals.vars,
      (s.params.has l.name = true ↔ l.name = modeParam ∨ l.name = nargsParam) ∧
      s.lookup? l.name = some (if l.name = modeParam then suppliedMode else if l.name = nargsParam then suppliedNargs else l) := by
  obtain ⟨header, -, hscope⟩ := declarations_eq_ok h
  obtain ⟨vs, ls, own, hs⟩ := accepted_ofHeader hscope
  have hlocals : s.locals.Distinct := by
    rw [hs.locals]
    exact hs.distinctLocals
  refine ⟨hs.distinct hexternal, hlocals, fun l hl => ?_⟩
  have hown : (merged own st.external).has l.name = false := by
    rw [hs.locals] at hl
    obtain ⟨w, hw, rfl⟩ := List.mem_map.mp hl
    rw [name_withMode]
    exact has_merged_eq_false (hs.apart w hw) fun ext hext => hs.apartExternal ext hext w hw
  have hget := get?_supplied_of_not_has hown
  rw [← hs.params] at hget
  rw [ParamList.has, lookup?, hlocals.get?_of_mem hl, hget]
  have hne : nargsParam ≠ modeParam := by decide
  by_cases hmode : l.name = modeParam
  · simp [hmode]
  · by_cases hnargs : l.name = nargsParam
    · simp [hnargs, hne]
    · simp [hmode, hnargs]

/-- The local variable of the procedure is the parameter `mode` to those who look it up, external list or not. -/
theorem distinct_shadowing : ∃ s, (declarations { external := some outside } shadowingTree).2 = .ok s ∧ s.locals.names = [modeParam] ∧
    s.params.Distinct ∧ s.lookup? "mode" = some suppliedMode := by
  obtain ⟨s, hs, hnames⟩ : ∃ s, (declarations { external := some outside } shadowingTree).2 = .ok s ∧ s.locals.names = [modeParam] :=
    ⟨_, rfl, by decide⟩
  obtain ⟨hparams, -, hlocals⟩ := distinct_declarations distinct_outside hs
  obtain ⟨l, hl, hname⟩ : ∃ l ∈ s.locals.vars, l.name = "mode" := by
    rw [← List.mem_map, ← ParamList.names, hnames]
    exact List.mem_singleton_self _
  have hlookup := (hlocals l hl).2
  rw [hname] at hlookup
  exact ⟨s, hs, hnames, hparams, hlookup⟩

/-- It is an integer, and hidden behind a string. -/
theorem shadowed_mode : ∃ t s, tree shadowing = .ok t ∧ (declarations {} t).2 = .ok s ∧ s.params.has "mode" = true ∧
    s.locals.has "mode" = true ∧ (s.lookup? "mode").map Variable.type = some "string" ∧
    (s.locals.get? "mode").map Variable.type = some "int" :=
  ⟨shadowingTree, _, tree_shadowing, rfl, by decide, by decide, by decide, by decide⟩

/-- The own parameters of a program are its arguments and then the others. They and its local variables have types, and are
filled. -/
theorem accepted_declarations [Library] (hgrown : t.kind? = some .program ∧ Grown t)
    (htypes : ∀ token ∈ t.leaves, TypeNamed token) (h : (declarations st t).2 = .ok s) : ∃ header vs ls own, Header.ofTree? t = some header ∧ Accepted st header s vs ls own ∧
      own.vars = ordered header.args vs ∧ own.names = header.args ++ (vs.map (·.name)).filter (· ∉ header.args) ∧
      (∀ v ∈ vs, v.type ≠ [] ∧ v.Filled) ∧ ∀ l ∈ ls, l.type ≠ [] ∧ l.Filled := by
  obtain ⟨header, hheader, hnamed⟩ := exists_header hgrown
  obtain ⟨header', hheader', hscope⟩ := declarations_eq_ok h
  rw [hheader, Option.some.injEq] at hheader'
  subst hheader'
  obtain ⟨vs, ls, own, hs⟩ := accepted_ofHeader hscope
  have hfilled {ds : List Declaration} {vs : List Variable} (hds : ∀ d ∈ ds, d ∈ header.params ++ header.locals)
      (hvs : describe ds = .ok vs) : ∀ v ∈ vs, v.type ≠ [] ∧ v.Filled := by
    intro v hv
    obtain ⟨d, hd, x, -, hx⟩ := exists_of_mem_describe hvs hv
    obtain ⟨-, htype, hfilled⟩ := filled_ofDecl hx
    obtain ⟨token, htoken, hkind, hvalue⟩ := (hnamed.declarations d (hds d hd)).type
    obtain ⟨type, hmem, hsome⟩ := htypes token htoken hkind
    have hnonempty : ∀ type ∈ typeNames, type ≠ [] := by decide
    refine ⟨?_, hfilled⟩
    rw [htype, hvalue, hsome]
    exact hnonempty type hmem
  have hvs := hfilled (fun _ => List.mem_append_left _) hs.described
  obtain ⟨rfl, -⟩ := vars_enterAll hs.enterAll fun v hv => (hvs v hv).1
  have hplaces : ∀ a ∈ header.args, (place vs a).type ≠ [] := by
    intro a ha
    have hmem : place vs a ∈ (placed header.args vs).vars := List.mem_append_left _ (List.mem_map_of_mem ha)
    have hget := (hs.enterAll.distinct hs.distinctArgs).get?_of_mem hmem
    rw [name_place] at hget
    exact hs.declared a ha _ hget
  exact ⟨header, vs, ls, _, hheader, hs, vars_placed hplaces, names_placed _ _, hvs,
    hfilled (fun _ => List.mem_append_right _) hs.describedLocals⟩

/-- The parameters that callers see are those that a program declares, its arguments first, with an external list over them
and the supplied ones behind them. But for `$nargs` and `taskObj`, no variable of an external list is lost or changed. How
the lists differ is said in the warnings, behind what is said of defaults. -/
theorem params_declarations [Library] (hgrown : t.kind? = some .program ∧ Grown t)
    (htypes : ∀ token ∈ t.leaves, TypeNamed token) (hexternal : ∀ ext ∈ st.external, ext.params.Distinct) (h : (declarations st t).2 = .ok s) :
    ∃ header vs ls own all, Header.ofTree? t = some header ∧ describe header.params = .ok vs ∧ describe header.locals = .ok ls ∧
      own = ordered header.args vs ∧ own.map (·.name) = header.args ++ (vs.map (·.name)).filter (· ∉ header.args) ∧
      all = overlay own st.external ∧
      s.params.vars = all.filter (fun v => v.name ≠ nargsParam ∧ v.name ≠ taskParam) ++
        (if modeParam ∈ all.map (·.name) then [] else [suppliedMode]) ++ [suppliedNargs] ∧
      (∀ ext ∈ st.external, ∀ v ∈ ext.params.vars, v.name ≠ nargsParam → v.name ≠ taskParam →
        s.params.get? v.name = some v) ∧
      s.warnings = (vs ++ ls).flatMap Variable.defaultMessages ++ st.external.elim [] fun ext =>
        (ParamList.compare ⟨own.filter fun v => !isSupplied v.name⟩ ⟨ext.params.vars.filter fun v => !isSupplied v.name⟩).map
          fun m => ("external parameter list mismatch: " ++ m : Bytes) := by
  obtain ⟨header, vs, ls, own, hheader, hs, hown, hnames, -⟩ := accepted_declarations hgrown htypes h
  have hall := vars_merged (p := own) hexternal
  have hmode : (merged own st.external).has modeParam = true ↔ modeParam ∈ (overlay own.vars st.external).map (·.name) := by
    rw [ParamList.has_iff, ParamList.names, hall]
  have hvars := (congrArg ParamList.vars hs.params).trans (vars_supplied _)
  simp only [hall, hmode] at hvars
  refine ⟨header, vs, ls, _, _, hheader, hs.described, hs.describedLocals, hown, hnames, rfl, hvars, ?_, ?_⟩
  · intro ext hext v hv hnargs htask
    refine (hs.distinct hexternal).get?_of_mem ?_
    rw [hvars]
    refine List.mem_append_left _ (List.mem_append_left _ (List.mem_filter.mpr ⟨?_, decide_eq_true ⟨hnargs, htask⟩⟩))
    rw [hext]
    exact mem_overlay (hexternal ext hext) hv
  · rw [hs.warnings, List.flatMap_append]
    cases st.external with
    | none => rfl
    | some ext =>
      rw [mismatches, withoutSupplied_eq, withoutSupplied_eq]
      rfl

/-- How the list differs from what the procedure declares. -/
def outsideWarnings : List Bytes := [
  "external parameter list mismatch: parameter 'b' is not in the other list",
  "external parameter list mismatch: parameter 'a' differs: mode \"h\" vs \"q\"",
  "external parameter list mismatch: parameter 'a' differs: value [] vs [5]",
  "external parameter list mismatch: parameter 'c' is only in the other list"]

/-- The argument comes first though it is declared last. The external list changes one parameter, and brings another. -/
theorem params_shadowing : ∃ s, (declarations { external := some outside } shadowingTree).2 = .ok s ∧
    s.params.names = (["b", "a", "c", "mode", "$nargs"] : List Bytes) ∧ s.warnings = outsideWarnings ∧
    ∀ v ∈ outside.params.vars, s.params.get? v.name = some v := by
  obtain ⟨s, hs, hnames, hwarnings⟩ : ∃ s, (declarations { external := some outside } shadowingTree).2 = .ok s ∧
      s.params.names = (["b", "a", "c", "mode", "$nargs"] : List Bytes) ∧ s.warnings = outsideWarnings :=
    ⟨_, rfl, by decide, by decide +kernel⟩
  obtain ⟨_, _, _, _, _, -, -, -, -, -, -, -, hexternal, -⟩ :=
    params_declarations ⟨rfl, grown_shadowingTree⟩ typeNamed_shadowing distinct_outside hs
  have hplain : ∀ v ∈ outside.params.vars, v.name ≠ nargsParam ∧ v.name ≠ taskParam := by decide
  exact ⟨s, hs, hnames, hwarnings, fun v hv => hexternal outside rfl v hv (hplain v hv).1 (hplain v hv).2⟩

theorem forall_mem_ordered {P : Variable → Prop} (harg : ∀ v ∈ vs, P (withMode v "a")) (hother : ∀ v ∈ vs, P (withMode v "h")) :
    ∀ v ∈ ordered args vs, P v := by
  unfold ordered
  refine List.forall_mem_append.mpr ⟨List.forall_mem_map.mpr fun v hv => ?_, List.forall_mem_map.mpr fun v hv => ?_⟩
  · obtain ⟨a, -, hfind⟩ := List.mem_filterMap.mp hv
    exact harg v (List.mem_of_find?_eq_some hfind)
  · exact hother v (List.mem_of_mem_filter hv)

theorem complete_suppliedMode : suppliedMode.Complete := by
  refine ⟨⟨?_, ?_, ?_, ?_, ?_⟩, ?_, ?_⟩ <;> decide

theorem complete_suppliedNargs : suppliedNargs.Complete := by
  refine ⟨⟨?_, ?_, ?_, ?_, ?_⟩, ?_, ?_⟩ <;> decide

/-- Without an external list, every parameter and every local variable is complete. -/
theorem complete_declarations [Library] (hgrown : t.kind? = some .program ∧ Grown t)
    (htypes : ∀ token ∈ t.leaves, TypeNamed token) (hexternal : st.external = none) (h : (declarations st t).2 = .ok s) : ∀ v ∈ s.params.vars ++ s.locals.vars, v.Complete := by
  obtain ⟨header, vs, ls, own, -, hs, hown, -, hvs, hls⟩ := accepted_declarations hgrown htypes h
  have hcomplete (v : Variable) (mode : Bytes) (hmode : mode ≠ []) (hv : v.type ≠ [] ∧ v.Filled) : (withMode v mode).Complete :=
    complete_withMode hv.2 hv.1 hmode
  have hparams : ∀ v ∈ own.vars, v.Complete := by
    rw [hown]
    exact forall_mem_ordered (fun v hv => hcomplete v _ (by decide) (hvs v hv)) fun v hv => hcomplete v _ (by decide) (hvs v hv)
  refine List.forall_mem_append.mpr ⟨?_, ?_⟩
  · rw [hs.params, hexternal, merged, vars_supplied]
    refine List.forall_mem_append.mpr ⟨List.forall_mem_append.mpr ⟨fun v hv => hparams v (List.mem_of_mem_filter hv), ?_⟩, ?_⟩
    · split
      · exact List.forall_mem_nil _
      · exact List.forall_mem_singleton.mpr complete_suppliedMode
    · exact List.forall_mem_singleton.mpr complete_suppliedNargs
  · rw [hs.locals]
    exact List.forall_mem_map.mpr fun l hl => hcomplete l _ (by decide) (hls l hl)

/-- The array of two elements is given one value, and the other is left open. -/
theorem complete_shadowing : ∃ s, (declarations {} shadowingTree).2 = .ok s ∧
    (s.params.get? "b").map Variable.values = some [.int 1, .none] ∧ ∀ v ∈ s.params.vars ++ s.locals.vars, v.Complete := by
  obtain ⟨s, hs, hvalues⟩ : ∃ s, (declarations {} shadowingTree).2 = .ok s ∧
      (s.params.get? "b").map Variable.values = some [.int 1, .none] := ⟨_, rfl, by decide⟩
  exact ⟨s, hs, hvalues, complete_declarations ⟨rfl, grown_shadowingTree⟩ typeNamed_shadowing rfl hs⟩

end IrafCl.Script
