import IrafCl.Proofs.Outcome
import IrafCl.Script.Scope

/-!
# What declarations report

A fault in the declarations of a program is a syntactic report, or one about a value that does not
convert. The names that are entered were found free before, so a parameter list never refuses one.
-/

namespace IrafCl.Script

open Failure (Kind)

/-- The kinds of reports about declarations. -/
def declarationKinds : List Kind := [.syntactic, .conversion]

theorem Constant.failsWith_value (c : Constant) : FailsWith declarationKinds c.value := by
  unfold Constant.value
  split
  · exact failsWith_ok _
  · exact failsWith_atLine (by decide) _ _

theorem SignedConstant.failsWith_value (c : SignedConstant) : FailsWith declarationKinds c.value := by
  refine failsWith_bind c.constant.failsWith_value fun v => ?_
  split <;> first
    | exact failsWith_ok _
    | exact failsWith_atLine (by decide) _ _

theorem failsWith_convert (type : Bytes) (v : Value) : FailsWith declarationKinds (v.convert type) := by
  unfold Value.convert
  split
  · exact failsWith_ok _
  · exact failsWith_atLine (by decide) _ _

/-- A conversion whose failure is given a line. -/
theorem failsWith_convert_withLine {α : Type} (type : Bytes) (v : Value) (line : Int) (f : Value → α) :
    FailsWith declarationKinds (match v.convert type with
      | .ok w => .ok (f w)
      | .error e => .error (e.withLine line) : Except Failure α) := by
  have h := failsWith_convert type v
  split
  · exact failsWith_ok _
  · next e he => exact failsWith_error ((h e he).withLine line)

namespace Scope

theorem failsWith_convertConstant (type : Bytes) (c : SignedConstant) :
    FailsWith declarationKinds (convertConstant type c) :=
  failsWith_bind c.failsWith_value fun v => failsWith_convert_withLine type v c.line id

theorem failsWith_applyOption [Library] (v : Variable) (key : Bytes) (c : SignedConstant) (line : Int) :
    FailsWith declarationKinds (applyOption v key c line) := by
  refine failsWith_bind c.failsWith_value fun raw => ?_
  have hbound := failsWith_convert_withLine v.type raw line id
  dsimp only
  split
  · exact failsWith_ok _
  split
  · exact failsWith_ok _
  split
  · exact failsWith_ok _
  split
  · split
    · exact failsWith_ok _
    · exact failsWith_atLine (by decide) _ _
  split
  · exact failsWith_bind hbound fun _ => failsWith_ok _
  split
  · exact failsWith_bind hbound fun _ => failsWith_ok _
  · exact failsWith_atLine (by decide) _ _

theorem failsWith_applyItems [Library] (items : List OptionItem) : ∀ (v : Variable) (values : Option (List Value)),
    FailsWith declarationKinds (applyItems v values items) := by
  induction items with
  | nil => intro v values; exact failsWith_ok _
  | cons item items ih =>
    intro v values
    cases item with
    | value c =>
      unfold applyItems
      split
      · exact failsWith_atLine (by decide) _ _
      · exact failsWith_bind (failsWith_convertConstant v.type c) fun w => ih v _
    | named key c line =>
      exact failsWith_bind (failsWith_applyOption v key c line) fun v => ih v values

theorem failsWith_declared (type : Bytes) (d : Declarator) : FailsWith declarationKinds (declared type d) := by
  cases d with
  | scalar name => exact failsWith_ok _
  | list name => exact failsWith_ok _
  | array name size =>
    refine failsWith_bind size.failsWith_value fun v => ?_
    split <;> exact failsWith_ok _

theorem failsWith_ofDecl [Library] (type : Bytes) (d : VarDecl) : FailsWith declarationKinds (ofDecl type d) := by
  refine failsWith_bind (failsWith_declared type d.declarator) fun v => ?_
  refine failsWith_bind ?_ fun given => failsWith_bind (failsWith_applyItems _ v given) fun r => ?_
  · cases d.values with
    | none => exact failsWith_ok _
    | some cs =>
      exact failsWith_bind (failsWith_mapM (failsWith_convertConstant type) cs) fun _ => failsWith_ok _
  · dsimp only
    split
    · exact failsWith_atLine (by decide) _ _
    · exact failsWith_ok _

/-! ## Entering names -/

theorem name_withMode (v : Variable) (mode : Bytes) : (withMode v mode).name = v.name := by
  unfold withMode
  split <;> rfl

/-- A name that is free is never refused. -/
theorem add_of_not_has {p : ParamList} {v : Variable} (h : p.has v.name = false) (mode : Bytes) :
    p.add (withMode v mode) = .ok (p.append (withMode v mode)) := by
  rw [ParamList.add, name_withMode, h]
  rfl

theorem failsWith_defineLocal (s : Scope) (v : Variable) (line : Int) :
    FailsWith declarationKinds (s.defineLocal v line) := by
  unfold defineLocal
  split
  · exact failsWith_atLine (by decide) _ _
  · next hlocal =>
    split
    · exact failsWith_atLine (by decide) _ _
    · rw [add_of_not_has (Bool.eq_false_iff.mpr hlocal)]
      exact failsWith_ok _

theorem failsWith_defineParam (s : Scope) (v : Variable) (line : Int) :
    FailsWith declarationKinds (s.defineParam v line) := by
  unfold defineParam
  split
  · split
    · exact failsWith_atLine (by decide) _ _
    · exact failsWith_ok _
  · next hnone =>
    rw [add_of_not_has (by rw [ParamList.has, hnone]; rfl)]
    exact failsWith_ok _

theorem failsWith_declare [Library] (s : Scope) (place : Place) (type : Bytes) (d : VarDecl) :
    FailsWith declarationKinds (s.declare place type d) := by
  refine failsWith_bind (failsWith_ofDecl type d) fun v => ?_
  cases place with
  | param => exact failsWith_bind (failsWith_defineParam s v d.line) fun s => failsWith_ok _
  | inBody => exact failsWith_bind (failsWith_defineLocal s v d.line) fun s => failsWith_ok _

theorem isOneOf_declareAll [Library] (entries : List (Place × Bytes × VarDecl)) : ∀ (s : Scope) (f : Failure),
    (s.declareAll entries).2 = some f → f.IsOneOf declarationKinds := by
  induction entries with
  | nil => intro s f h; cases h
  | cons entry entries ih =>
    intro s f h
    obtain ⟨place, type, d⟩ := entry
    unfold declareAll at h
    split at h
    · exact ih _ f h
    · next f' hf =>
      cases h
      exact failsWith_declare s place type d f hf

/-! ## The whole header -/

theorem failsWith_enterArgs (args : List (Bytes × Int)) : ∀ s : Scope,
    FailsWith declarationKinds (s.enterArgs args) := by
  induction args with
  | nil => intro s; exact failsWith_ok _
  | cons arg args ih =>
    intro s
    obtain ⟨name, line⟩ := arg
    unfold enterArgs
    split
    · exact failsWith_atLine (by decide) _ _
    · exact ih _

theorem failsWith_enterSignature (s : Scope) (sig : Option Signature) :
    FailsWith declarationKinds (s.enterSignature sig) := by
  cases sig with
  | none => exact failsWith_ok _
  | some sig => exact failsWith_enterArgs _ _

theorem failsWith_mergeExternal (s : Scope) (ext : Option External) :
    FailsWith declarationKinds (s.mergeExternal ext) := by
  unfold mergeExternal
  split
  · exact failsWith_ok _
  · split
    · exact failsWith_atLine (by decide) _ _
    · exact failsWith_ok _

theorem failsWith_finish (s : Scope) (st : Settings) : FailsWith declarationKinds (s.finish st) := by
  unfold finish
  split
  · next f hf =>
    refine failsWith_error ?_
    unfold undeclaredArg? at hf
    obtain ⟨a, _, rfl⟩ := Option.map_eq_some_iff.mp hf
    exact isOneOf_atLine (by decide) _ _
  · exact failsWith_bind (failsWith_mergeExternal _ _) fun s => failsWith_ok _

/-- Whatever is wrong with the declarations of a program is reported. -/
theorem failsWith_ofHeader [Library] (st : Settings) (h : Header) : FailsWith declarationKinds (ofHeader st h).2 := by
  unfold ofHeader
  have hsig := failsWith_enterSignature .empty h.signature
  split
  · next f hf => exact failsWith_error (hsig f hf)
  · next s _ =>
    have hall := isOneOf_declareAll (entries h) s
    split
    · next s' f hf => exact failsWith_error (hall f (by rw [hf]))
    · exact failsWith_finish _ st

end Scope

end IrafCl.Script
