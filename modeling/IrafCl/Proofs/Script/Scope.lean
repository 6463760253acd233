import IrafCl.Proofs.Param.List
import IrafCl.Proofs.Script.Failures
import IrafCl.Script.Unit

/-!
# The scope of a program

A program that is accepted declares its arguments, then its parameters, then its local variables, and to them comes what is
external or supplied (`accepted_ofHeader`). Arguments and local variables enter at free names only, and parameters at free
names or for an argument (`Enters`): so the parameters have distinct names (`distinct_ofHeader`), and `$nargs` is the supplied
one in every program (`lookup?_nargs`).
-/

namespace IrafCl

/-- What the check of a variable's defaults says. Where it cannot be made, it says nothing. -/
def Variable.defaultMessages [Library] (v : Variable) : List Bytes :=
  match v.checkDefaults with
  | .ok messages => messages
  | .error _ => []

namespace Script

/-- The names of the arguments. -/
def Header.args (h : Header) : List Bytes := (h.signature.elim [] Signature.args).map Prod.fst

theorem Header.exists_of_mem_args {h : Header} {a : Bytes} (ha : a ∈ h.args) : ∃ sig ∈ h.signature, ∃ arg ∈ sig.args, arg.1 = a := by
  obtain ⟨arg, harg, rfl⟩ := List.mem_map.mp ha
  cases hsignature : h.signature with
  | none =>
    rw [hsignature] at harg
    cases harg
  | some sig =>
    rw [hsignature] at harg
    exact ⟨sig, rfl, arg, harg, rfl⟩

namespace Scope

variable {s s' : Scope} {v : Variable} {line : Int} {type : Bytes} {d : VarDecl} {p q : ParamList}

/-! ## Arguments -/

/-- Arguments as parameters that await their declaration. -/
def awaiting (args : List Bytes) : ParamList := ⟨args.map fun a => .scalar a [] "a"⟩

theorem enterArgs_eq_ok {args : List (Bytes × Int)} (hdistinct : s.params.Distinct) (hparams : s.params = awaiting s.args)
    (h : s.enterArgs args = .ok s') : (awaiting (s.args ++ args.map Prod.fst)).Distinct ∧
      s' = { s with args := s.args ++ args.map Prod.fst, params := awaiting (s.args ++ args.map Prod.fst) } := by
  induction args generalizing s with
  | nil =>
    cases h
    rw [List.map_nil, List.append_nil, ← hparams]
    exact ⟨hdistinct, rfl⟩
  | cons arg args ih =>
    obtain ⟨name, line⟩ := arg
    unfold enterArgs at h
    split at h
    · cases h
    · next hfree =>
      have hnext : s.params.append (.scalar name [] "a") = awaiting (s.args ++ [name]) := by
        rw [hparams, awaiting, awaiting, List.map_append]
        rfl
      have hih := ih (hdistinct.append (v := .scalar name [] "a") (Bool.eq_false_iff.mpr hfree)) hnext h
      rw [List.append_assoc] at hih
      exact hih

theorem enterSignature_eq_ok {header : Header} (h : empty.enterSignature header.signature = .ok s) :
    (awaiting header.args).Distinct ∧ s = { empty with
      procedure := header.signature.elim [] Signature.name
      isProcedure := header.signature.isSome
      args := header.args
      params := awaiting header.args } := by
  unfold Header.args
  cases hsignature : header.signature with
  | none =>
    rw [hsignature] at h
    cases h
    exact ⟨List.nodup_nil, rfl⟩
  | some sig =>
    rw [hsignature, enterSignature] at h
    exact enterArgs_eq_ok ParamList.distinct_empty rfl h

/-! ## Parameters and local variables -/

/-- A parameter enters a list last under a free name, or for an argument, which has no type yet. -/
inductive Enters (p : ParamList) (v : Variable) : ParamList → Prop where
  | last : p.has v.name = false → Enters p v (p.append (withMode v "h"))
  | argument {prev : Variable} : p.get? v.name = some prev → prev.type = [] → Enters p v (p.set (withMode v prev.mode))

/-- Parameters enter a list one after the other. -/
inductive EnterAll (p : ParamList) : List Variable → ParamList → Prop where
  | none : EnterAll p [] p
  | snoc {vs : List Variable} {q r : ParamList} {v : Variable} : EnterAll p vs q → Enters q v r → EnterAll p (vs ++ [v]) r

theorem EnterAll.distinct {vs : List Variable} (h : EnterAll p vs q) (hp : p.Distinct) : q.Distinct := by
  induction h with
  | none => exact hp
  | snoc _ henters ih =>
    cases henters with
    | last hfree => exact ih.append (by rw [name_withMode]; exact hfree)
    | argument _ _ => exact ih.set _

theorem defineParam_eq_ok (h : s.defineParam v line = .ok s') :
    ∃ params, Enters s.params v params ∧ s' = { s with params } := by
  unfold defineParam at h
  split at h
  · next hprev =>
    split at h
    · cases h
    · next htype =>
      cases h
      exact ⟨_, .argument hprev (Decidable.not_not.mp htype), rfl⟩
  · next hnone =>
    have hfree : s.params.has v.name = false := by rw [ParamList.has, hnone]; rfl
    rw [add_of_not_has hfree] at h
    cases h
    exact ⟨_, .last hfree, rfl⟩

theorem defineLocal_eq_ok (h : s.defineLocal v line = .ok s') : s.locals.has v.name = false ∧ s.params.has v.name = false ∧
    s' = { s with locals := s.locals.append (withMode v "u") } := by
  unfold defineLocal at h
  split at h
  · cases h
  · next hlocal =>
    split at h
    · cases h
    · next hparam =>
      rw [add_of_not_has (Bool.eq_false_iff.mpr hlocal)] at h
      cases h
      exact ⟨Bool.eq_false_iff.mpr hlocal, Bool.eq_false_iff.mpr hparam, rfl⟩

theorem checkDefaults_eq [Library] (s : Scope) (v : Variable) :
    ∃ notes, s.checkDefaults v = { s with warnings := s.warnings ++ v.defaultMessages, notes } := by
  unfold checkDefaults Variable.defaultMessages
  cases v.checkDefaults with
  | ok messages => exact ⟨_, rfl⟩
  | error f => exact ⟨_, by dsimp only; rw [List.append_nil]⟩

theorem declare_param_eq_ok [Library] (h : s.declare .param type d = .ok s') :
    ∃ v params notes, ofDecl type d = .ok v ∧ Enters s.params v params ∧
      s' = { s with params, warnings := s.warnings ++ v.defaultMessages, notes } := by
  obtain ⟨v, hv, h⟩ := bind_eq_ok.mp h
  obtain ⟨s₁, hs₁, h⟩ := bind_eq_ok.mp h
  obtain ⟨params, hparams, rfl⟩ := defineParam_eq_ok hs₁
  obtain ⟨notes, hnotes⟩ := checkDefaults_eq { s with params } v
  cases h
  exact ⟨v, params, notes, hv, hparams, hnotes⟩

theorem declare_inBody_eq_ok [Library] (h : s.declare .inBody type d = .ok s') :
    ∃ v notes, ofDecl type d = .ok v ∧ s.locals.has v.name = false ∧ s.params.has v.name = false ∧
      s' = { s with locals := s.locals.append (withMode v "u"), warnings := s.warnings ++ v.defaultMessages, notes } := by
  obtain ⟨v, hv, h⟩ := bind_eq_ok.mp h
  obtain ⟨s₁, hs₁, h⟩ := bind_eq_ok.mp h
  obtain ⟨hlocal, hparam, rfl⟩ := defineLocal_eq_ok hs₁
  obtain ⟨notes, hnotes⟩ := checkDefaults_eq { s with locals := s.locals.append (withMode v "u") } v
  cases h
  exact ⟨v, notes, hv, hlocal, hparam, hnotes⟩

/-! ## One declaration after the other -/

/-- The declarations of single variables, each with its type. -/
def specs (ds : List Declaration) : List (Bytes × VarDecl) := ds.flatMap fun d => d.vars.map (Prod.mk d.type)

/-- The variables that declarations describe, in source order. -/
def describe [Library] (ds : List Declaration) : Except Failure (List Variable) :=
  (specs ds).mapM fun spec => ofDecl spec.1 spec.2

theorem entries_eq (h : Header) :
    entries h = (specs h.params).map (Prod.mk .param) ++ (specs h.locals).map (Prod.mk .inBody) := by
  simp [entries, specs, List.map_flatMap, Function.comp_def]

/-- A variable comes from one declaration. -/
theorem exists_of_mem_describe [Library] {ds : List Declaration} {vs : List Variable} (h : describe ds = .ok vs)
    (hv : v ∈ vs) : ∃ d ∈ ds, ∃ x ∈ d.vars, ofDecl d.type x = .ok v := by
  obtain ⟨spec, hspec, hv⟩ := exists_of_mapM_eq_ok h v hv
  obtain ⟨d, hd, hspec⟩ := List.mem_flatMap.mp hspec
  obtain ⟨x, hx, rfl⟩ := List.mem_map.mp hspec
  exact ⟨d, hd, x, hx, hv⟩

theorem declareAll_append [Library] {xs ys : List (Place × Bytes × VarDecl)} (h : s.declareAll (xs ++ ys) = (s', none)) :
    ∃ s₁, s.declareAll xs = (s₁, none) ∧ s₁.declareAll ys = (s', none) := by
  induction xs generalizing s with
  | nil => exact ⟨s, rfl, h⟩
  | cons x xs ih =>
    obtain ⟨place, type, d⟩ := x
    rw [List.cons_append, declareAll] at h
    rw [declareAll]
    split at h
    · exact ih h
    · cases h

/-- What holds of the variables described so far and the scope holds of all of them in the end, if each declaration keeps it. -/
theorem declareAll_induction [Library] {place : Place} {P : List Variable → Scope → Prop} {specs : List (Bytes × VarDecl)}
    (hstep : ∀ vs s s' type d, P vs s → s.declare place type d = .ok s' → ∃ v, ofDecl type d = .ok v ∧ P (vs ++ [v]) s') :
    ∀ {vs : List Variable} {s : Scope}, P vs s → s.declareAll (specs.map (Prod.mk place)) = (s', none) →
      ∃ ws, specs.mapM (fun spec => ofDecl spec.1 spec.2) = .ok ws ∧ P (vs ++ ws) s' := by
  induction specs with
  | nil =>
    intro vs s hs h
    cases h
    exact ⟨[], rfl, by rw [List.append_nil]; exact hs⟩
  | cons spec specs ih =>
    intro vs s hs h
    obtain ⟨type, d⟩ := spec
    rw [List.map_cons, declareAll] at h
    split at h
    · next s₁ hs₁ =>
      obtain ⟨v, hv, hP⟩ := hstep vs s s₁ type d hs hs₁
      obtain ⟨ws, hws, hP⟩ := ih hP h
      refine ⟨v :: ws, ?_, ?_⟩
      · rw [List.mapM_cons, hv, hws]
        rfl
      · rw [List.append_assoc] at hP
        exact hP
    · cases h

theorem declareAll_param [Library] {ds : List Declaration} (h : s.declareAll ((specs ds).map (Prod.mk .param)) = (s', none)) :
    ∃ vs params notes, describe ds = .ok vs ∧ EnterAll s.params vs params ∧
      s' = { s with params, warnings := s.warnings ++ vs.flatMap Variable.defaultMessages, notes } := by
  let P (vs : List Variable) (s' : Scope) : Prop := ∃ params notes, EnterAll s.params vs params ∧
    s' = { s with params, warnings := s.warnings ++ vs.flatMap Variable.defaultMessages, notes }
  have hstep : ∀ vs s₁ s₂ type d, P vs s₁ → s₁.declare .param type d = .ok s₂ →
      ∃ v, ofDecl type d = .ok v ∧ P (vs ++ [v]) s₂ := by
    rintro vs _ s₂ type d ⟨params, notes, hparams, rfl⟩ h
    obtain ⟨v, params', notes', hv, henters, rfl⟩ := declare_param_eq_ok h
    exact ⟨v, hv, params', notes', hparams.snoc henters, by simp [List.flatMap_append]⟩
  have hs : P [] s := ⟨_, s.notes, .none, by simp⟩
  obtain ⟨vs, hvs, params, notes, hparams, hs'⟩ := declareAll_induction hstep hs h
  exact ⟨vs, params, notes, hvs, hparams, hs'⟩

/-- Local variables have names of their own that no parameter has. -/
theorem declareAll_inBody [Library] {ds : List Declaration} (hlocals : s.locals = .empty)
    (h : s.declareAll ((specs ds).map (Prod.mk .inBody)) = (s', none)) :
    ∃ ls notes, describe ds = .ok ls ∧ (ParamList.mk (ls.map (withMode · "u"))).Distinct ∧
      (∀ l ∈ ls, s.params.has l.name = false) ∧
      s' = { s with locals := ⟨ls.map (withMode · "u")⟩, warnings := s.warnings ++ ls.flatMap Variable.defaultMessages, notes } := by
  let P (ls : List Variable) (s' : Scope) : Prop := (ParamList.mk (ls.map (withMode · "u"))).Distinct ∧
    (∀ l ∈ ls, s.params.has l.name = false) ∧ ∃ notes, s' =
      { s with locals := ⟨ls.map (withMode · "u")⟩, warnings := s.warnings ++ ls.flatMap Variable.defaultMessages, notes }
  have hstep : ∀ ls s₁ s₂ type d, P ls s₁ → s₁.declare .inBody type d = .ok s₂ →
      ∃ v, ofDecl type d = .ok v ∧ P (ls ++ [v]) s₂ := by
    rintro ls _ s₂ type d ⟨hdistinct, hfree, notes, rfl⟩ h
    obtain ⟨v, notes', hv, hlocal, hparam, rfl⟩ := declare_inBody_eq_ok h
    refine ⟨v, hv, ?_, List.forall_mem_append.mpr ⟨hfree, List.forall_mem_singleton.mpr hparam⟩, notes', ?_⟩
    · rw [List.map_append]
      exact hdistinct.append (v := withMode v "u") (by rw [name_withMode]; exact hlocal)
    · simp [ParamList.append, List.flatMap_append]
  have hs : P [] s := by
    refine ⟨ParamList.distinct_empty, List.forall_mem_nil _, s.notes, ?_⟩
    cases s
    cases hlocals
    simp
  obtain ⟨ls, hls, hdistinct, hfree, notes, hs'⟩ := declareAll_induction hstep hs h
  exact ⟨ls, notes, hls, hdistinct, hfree, hs'⟩

/-! ## External and supplied parameters -/

/-- The parameters once an external list is brought in. -/
def merged (p : ParamList) : Option External → ParamList
  | none => p
  | some ext => if ext.authoritative then ext.params else p.setAll ext.params.vars

/-- What is said about an external list. -/
def mismatches (p : ParamList) : Option External → List Bytes
  | none => []
  | some ext => ((withoutSupplied p).compare (withoutSupplied ext.params)).map fun m =>
      ("external parameter list mismatch: " ++ m : Bytes)

theorem mergeExternal_eq_ok {external : Option External} (h : s.mergeExternal external = .ok s') :
    (∀ ext ∈ external, ∀ l ∈ s.locals.vars, ext.params.has l.name = false) ∧
      s' = { s with params := merged s.params external, warnings := s.warnings ++ mismatches s.params external } := by
  cases external with
  | none =>
    cases h
    refine ⟨fun _ hext => absurd hext (Option.not_mem_none _), ?_⟩
    rw [mismatches, List.append_nil]
    rfl
  | some ext =>
    unfold mergeExternal at h
    dsimp only at h
    split at h
    · cases h
    · next hnone =>
      cases h
      refine ⟨?_, rfl⟩
      rintro _ ⟨⟩ l hl
      exact Bool.eq_false_iff.mpr (List.find?_eq_none.mp hnone l hl)

theorem distinct_merged {external : Option External} (hp : p.Distinct) (hexternal : ∀ ext ∈ external, ext.params.Distinct) :
    (merged p external).Distinct := by
  cases external with
  | none => exact hp
  | some ext =>
    show (if ext.authoritative then ext.params else p.setAll ext.params.vars).Distinct
    split
    · exact hexternal ext rfl
    · exact hp.setAll _

/-- The parameters with the supplied ones. -/
def supplied (p : ParamList) : ParamList :=
  (((if p.has modeParam then p else p.append suppliedMode).remove nargsParam).append suppliedNargs).remove taskParam

theorem vars_supplied (p : ParamList) : (supplied p).vars = p.vars.filter (fun v => v.name ≠ nargsParam ∧ v.name ≠ taskParam) ++
    (if p.has modeParam then [] else [suppliedMode]) ++ [suppliedNargs] := by
  have hkeep (vs : List Variable) : (vs.filter fun v => v.name ≠ nargsParam).filter (fun v => v.name ≠ taskParam) =
      vs.filter fun v => v.name ≠ nargsParam ∧ v.name ≠ taskParam := by
    rw [List.filter_filter]
    exact List.filter_congr fun v _ => by rw [Bool.decide_and, Bool.and_comm]
  have hmode : [suppliedMode].filter (fun v => v.name ≠ nargsParam ∧ v.name ≠ taskParam) = [suppliedMode] := by decide
  have hnargs : [suppliedNargs].filter (fun v => v.name ≠ taskParam) = [suppliedNargs] := by decide
  unfold supplied
  simp only [ParamList.remove, ParamList.append]
  split
  · rw [List.filter_append, hkeep, hnargs, List.append_nil]
  · rw [List.filter_append, hkeep, hnargs, List.filter_append, hmode]

theorem distinct_supplied (hp : p.Distinct) : (supplied p).Distinct := by
  have hmode : (if p.has modeParam then p else p.append suppliedMode).Distinct := by
    split
    · exact hp
    · next hfree => exact hp.append (Bool.eq_false_iff.mpr hfree)
  exact ((hmode.remove nargsParam).append (v := suppliedNargs) (ParamList.has_remove_self _ _)).remove taskParam

theorem get?_supplied_nargs (p : ParamList) : (supplied p).get? nargsParam = some suppliedNargs := by
  rw [supplied, ParamList.get?_remove_of_ne (by decide)]
  exact ParamList.get?_append_of_not_has (v := suppliedNargs) (ParamList.has_remove_self _ _)

/-! ## The whole header -/

/-- What a header that is accepted declares, and what becomes of it. -/
structure Accepted [Library] (st : Settings) (header : Header) (s : Scope) (vs ls : List Variable)
    (own : ParamList) : Prop where
  procedure : s.procedure = header.signature.elim (scriptName st.filename) Signature.name
  isProcedure : s.isProcedure = header.signature.isSome
  described : describe header.params = .ok vs
  describedLocals : describe header.locals = .ok ls
  distinctArgs : (awaiting header.args).Distinct
  enterAll : EnterAll (awaiting header.args) vs own
  declared : ∀ a ∈ header.args, ∀ v, own.get? a = some v → v.type ≠ []
  distinctLocals : (ParamList.mk (ls.map (withMode · "u"))).Distinct
  apart : ∀ l ∈ ls, own.has l.name = false
  apartExternal : ∀ ext ∈ st.external, ∀ l ∈ ls, ext.params.has l.name = false
  params : s.params = supplied (merged own st.external)
  locals : s.locals = ⟨ls.map (withMode · "u")⟩
  warnings : s.warnings = vs.flatMap Variable.defaultMessages ++ ls.flatMap Variable.defaultMessages ++
    mismatches own st.external

theorem type_ne_nil_of_undeclaredArg?_eq_none (h : s.undeclaredArg? = none) :
    ∀ a ∈ s.args, ∀ v, s.params.get? a = some v → v.type ≠ [] := by
  intro a ha v hv htype
  have hnone := List.find?_eq_none.mp (Option.map_eq_none_iff.mp h) a ha
  rw [hv] at hnone
  exact hnone (decide_eq_true htype)

theorem accepted_ofHeader [Library] {st : Settings} {header : Header} (h : (ofHeader st header).2 = .ok s) :
    ∃ vs ls own, Accepted st header s vs ls own := by
  unfold ofHeader at h
  split at h
  · cases h
  next s₁ hsignature =>
  rw [entries_eq] at h
  split at h
  · cases h
  next s₃ hall =>
  obtain ⟨s₂, hparams, hlocals⟩ := declareAll_append hall
  obtain ⟨hargs, rfl⟩ := enterSignature_eq_ok hsignature
  obtain ⟨vs, own, notes, hvs, hown, rfl⟩ := declareAll_param hparams
  obtain ⟨ls, notes', hls, hdistinct, hapart, rfl⟩ := declareAll_inBody rfl hlocals
  dsimp only at h
  unfold finish at h
  split at h
  · cases h
  next hdeclared =>
  obtain ⟨s₄, hmerge, h⟩ := bind_eq_ok.mp h
  cases h
  -- the name of the program does not matter to its parameters
  have hfields {s : Scope} {b : Bool} {name : Bytes} : (if b then s else { s with procedure := name }) =
      { s with procedure := if b then s.procedure else name } := by split <;> rfl
  rw [hfields] at hmerge
  obtain ⟨hexternal, rfl⟩ := mergeExternal_eq_ok hmerge
  have hdeclared := type_ne_nil_of_undeclaredArg?_eq_none hdeclared
  refine ⟨vs, ls, own, ?_, rfl, hvs, hls, hargs, hown, hdeclared, hdistinct, hapart, ?_, rfl, rfl, rfl⟩
  · show (if header.signature.isSome = true then _ else _) = _
    cases header.signature with
    | none => rfl
    | some sig => rfl
  · intro ext hext l hl
    rw [← name_withMode l "u"]
    exact hexternal ext hext _ (List.mem_map_of_mem hl)

theorem Accepted.distinct [Library] {st : Settings} {header : Header} {vs ls : List Variable} {own : ParamList}
    (h : Accepted st header s vs ls own) (hexternal : ∀ ext ∈ st.external, ext.params.Distinct) : s.params.Distinct := by
  rw [h.params]
  exact distinct_supplied (distinct_merged (h.enterAll.distinct h.distinctArgs) hexternal)

/-- The parameters of a program have distinct names if those of an external list have. -/
theorem distinct_ofHeader [Library] {st : Settings} {header : Header} (hexternal : ∀ ext ∈ st.external, ext.params.Distinct)
    (h : (ofHeader st header).2 = .ok s) : s.params.Distinct := by
  obtain ⟨vs, ls, own, hs⟩ := accepted_ofHeader h
  exact hs.distinct hexternal

end Scope

theorem declarations_eq_ok [Library] {st : Settings} {t : Tree} {scope : Scope} (h : (declarations st t).2 = .ok scope) :
    ∃ header, Header.ofTree? t = some header ∧ (Scope.ofHeader st header).2 = .ok scope := by
  unfold declarations at h
  split at h
  · cases h
  · next header hheader =>
    refine ⟨header, hheader, ?_⟩
    revert h
    dsimp only
    cases (Scope.ofHeader st header).2 with
    | error f => nofun
    | ok s =>
      rintro ⟨⟩
      rfl

/-- The number of arguments is an integer in every program, whatever the program declares under its name. -/
theorem lookup?_nargs [Library] {st : Settings} {t : Tree} {scope : Scope} (h : (declarations st t).2 = .ok scope) :
    scope.lookup? nargsParam = some Scope.suppliedNargs := by
  obtain ⟨header, -, hscope⟩ := declarations_eq_ok h
  obtain ⟨vs, ls, own, hs⟩ := Scope.accepted_ofHeader hscope
  rw [Scope.lookup?, hs.params, Scope.get?_supplied_nargs]
  rfl

end Script

end IrafCl
