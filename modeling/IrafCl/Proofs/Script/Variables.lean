import IrafCl.Proofs.Script.Failures

/-!
# The variable of a declaration

What a declaration says of its variable comes from its declarator, then from its options one by one
(`applyItems_induction`). Initial values and bounds are converted to the declared type, whichever way they are written,
and missing initial values are left open: so the variable has one for each of its elements (`filled_ofDecl`).
-/

namespace IrafCl

/-- Whether a value is of a class. No value and `INDEF` are of every class, and one class takes every value. -/
def Value.isOf : TypeClass → Value → Bool
  | _, .none | _, .undefined | .any, _ => true
  | .int, .int _ | .float, .float _ | .string, .string _ | .bool, .bool _ => true
  | _, _ => false

theorem Value.isOf_none (cls : TypeClass) : Value.none.isOf cls = true := by cases cls <;> rfl

theorem Value.isOf_undefined (cls : TypeClass) : Value.undefined.isOf cls = true := by cases cls <;> rfl

/-- What a value is coerced to is of the class. -/
theorem Value.isOf_coerce {cls : TypeClass} {v w : Value} (h : coerce? cls v = some w) : w.isOf cls = true := by
  have of_read {α : Type} {o : Option α} {f : α → Value} (hf : ∀ a, (f a).isOf cls = true) (h : o.map f = some w) :
      w.isOf cls = true := by
    obtain ⟨a, -, rfl⟩ := Option.map_eq_some_iff.mp h
    exact hf a
  -- one case for each way to coerce: a value that is kept, a number that is rounded, or a text that is read
  unfold coerce? at h
  split at h
  · cases h; exact isOf_none _
  · cases h; exact isOf_undefined _
  · cases h; rfl
  · split at h
    · cases h; rfl
    · cases h
  · dsimp only at h
    split at h
    · cases h; rfl
    · exact of_read (fun _ => rfl) h
  · cases h; rfl
  · cases h; rfl
  · dsimp only at h
    split at h
    · cases h; rfl
    · exact of_read (fun _ => rfl) h
  · cases h; rfl
  · exact of_read (fun _ => rfl) h
  · cases h; cases v <;> rfl
  · cases h; rfl
  · cases h; rfl
  · cases h

theorem Value.isOf_convert {type : Bytes} {v w : Value} (h : v.convert type = .ok w) : w.isOf (.ofType type) = true := by
  unfold convert at h
  split at h
  · next hcoerce =>
    cases h
    exact isOf_coerce hcoerce
  · cases h

namespace Variable

/-- A variable has an initial value for each of its elements, and all of its values are of the class of its type. -/
structure Filled (v : Variable) : Prop where
  array : 0 < v.arraySize → (v.values.length : Int) = v.arraySize.toInt
  scalar : ¬ 0 < v.arraySize → v.values.length = 1
  values : ∀ x ∈ v.values, x.isOf (.ofType v.type) = true
  min : v.options.min.isOf (.ofType v.type) = true
  max : v.options.max.isOf (.ofType v.type) = true

/-- A variable is complete: it has a type and a mode, and is filled. -/
structure Complete (v : Variable) : Prop extends Filled v where
  type : v.type ≠ []
  mode : v.mode ≠ []

end Variable

namespace Script

/-- The constant of an option that gives an initial value. -/
def OptionItem.initial? : OptionItem → Option SignedConstant
  | .value c => some c
  | .named _ _ _ => none

/-- The constants that give a variable its initial values. -/
def VarDecl.initial (d : VarDecl) : List SignedConstant := d.values.getD [] ++ d.options.filterMap OptionItem.initial?

namespace Scope

theorem declared_eq_ok {type : Bytes} {d : Declarator} {v : Variable} (h : declared type d = .ok v) :
    v.name = d.name ∧ v.type = type ∧ v.options = .empty := by
  cases d with
  | scalar name => cases h; exact ⟨rfl, rfl, rfl⟩
  | list name => cases h; exact ⟨rfl, rfl, rfl⟩
  | array name size =>
    obtain ⟨n, -, h⟩ := bind_eq_ok.mp h
    split at h
    · cases h; exact ⟨rfl, rfl, rfl⟩
    · cases h; exact ⟨rfl, rfl, rfl⟩

theorem isOf_convertConstant {type : Bytes} {c : SignedConstant} {v : Value} (h : convertConstant type c = .ok v) :
    v.isOf (.ofType type) = true := by
  obtain ⟨raw, -, h⟩ := bind_eq_ok.mp h
  split at h
  · next hconvert =>
    cases h
    exact Value.isOf_convert hconvert
  · cases h

/-- An option with a name gives a mode, or another attribute; a bound is converted to the type. -/
theorem applyOption_cases [Library] {v w : Variable} {key : Bytes} {c : SignedConstant} {line : Int}
    (h : applyOption v key c line = .ok w) :
    (∃ mode, w = { v with mode }) ∨
      ∃ options : Options, w = { v with options } ∧
        (options.min = v.options.min ∨ options.min.isOf (.ofType v.type) = true) ∧
        (options.max = v.options.max ∨ options.max.isOf (.ofType v.type) = true) := by
  obtain ⟨raw, -, h⟩ := bind_eq_ok.mp h
  dsimp only at h
  split at h
  · cases h; exact .inl ⟨_, rfl⟩
  split at h
  · cases h; exact .inr ⟨_, rfl, .inl rfl, .inl rfl⟩
  split at h
  · cases h; exact .inr ⟨_, rfl, .inl rfl, .inl rfl⟩
  split at h
  · split at h
    · cases h; exact .inr ⟨_, rfl, .inl rfl, .inl rfl⟩
    · cases h
  split at h
  · obtain ⟨b, hb, h⟩ := bind_eq_ok.mp h
    split at hb
    · next hconvert => cases hb; cases h; exact .inr ⟨_, rfl, .inr (Value.isOf_convert hconvert), .inl rfl⟩
    · cases hb
  split at h
  · obtain ⟨b, hb, h⟩ := bind_eq_ok.mp h
    split at hb
    · next hconvert => cases hb; cases h; exact .inr ⟨_, rfl, .inl rfl, .inr (Value.isOf_convert hconvert)⟩
    · cases hb
  · cases h

variable {P : Variable → Prop} {Q : Value → Prop} {type : Bytes}

/-- What each item keeps of the variable and gives for a value, all of them keep and give. -/
theorem applyItems_induction [Library] {items : List OptionItem} (htype : ∀ v, P v → v.type = type)
    (hnamed : ∀ v w key c line, P v → applyOption v key c line = .ok w → P w)
    (hvalue : ∀ c ∈ items.filterMap OptionItem.initial?, ∀ x, convertConstant type c = .ok x → Q x) :
    ∀ {v w : Variable} {given : Option (List Value)} {values : List Value}, P v → (∀ x ∈ given.getD [], Q x) →
      applyItems v given items = .ok (w, values) → P w ∧ ∀ x ∈ values, Q x := by
  induction items with
  | nil =>
    intro v w given values hv hgiven h
    cases h
    exact ⟨hv, hgiven⟩
  | cons item items ih =>
    intro v w given values hv hgiven h
    cases item with
    | value c =>
      replace hvalue := List.forall_mem_cons.mp hvalue
      unfold applyItems at h
      split at h
      · cases h
      · obtain ⟨x, hx, h⟩ := bind_eq_ok.mp h
        rw [htype v hv] at hx
        refine ih hvalue.2 hv ?_ h
        exact List.forall_mem_singleton.mpr (hvalue.1 x hx)
    | named key c line =>
      obtain ⟨v', hv', h⟩ := bind_eq_ok.mp h
      exact ih hvalue (hnamed v v' key c line hv hv') hgiven h

/-- A declaration is read from its declarator on, item by item; then its values fill the variable. -/
theorem ofDecl_induction [Library] {d : VarDecl} {v : Variable} (hdeclared : ∀ v, declared type d.declarator = .ok v → P v)
    (htype : ∀ v, P v → v.type = type) (hnamed : ∀ v w key c line, P v → applyOption v key c line = .ok w → P w)
    (hvalue : ∀ c ∈ d.initial, ∀ x, convertConstant type c = .ok x → Q x) (h : ofDecl type d = .ok v) :
    ∃ w values, P w ∧ (∀ x ∈ values, Q x) ∧ values.length ≤ capacity w ∧
      v = { w with initial := some (values ++ List.replicate (capacity w - values.length) .none) } := by
  rw [VarDecl.initial, List.forall_mem_append] at hvalue
  obtain ⟨v₀, hv₀, h⟩ := bind_eq_ok.mp h
  obtain ⟨given, hgiven, h⟩ := bind_eq_ok.mp h
  obtain ⟨⟨w, values⟩, hw, h⟩ := bind_eq_ok.mp h
  have hvalues : ∀ x ∈ given.getD [], Q x := by
    cases hcs : d.values with
    | none =>
      rw [hcs] at hgiven
      cases hgiven
      exact List.forall_mem_nil _
    | some cs =>
      rw [hcs] at hgiven hvalue
      obtain ⟨xs, hxs, hgiven⟩ := bind_eq_ok.mp hgiven
      cases hgiven
      intro x hx
      obtain ⟨c, hc, hconvert⟩ := exists_of_mapM_eq_ok hxs x hx
      exact hvalue.1 c hc x hconvert
  obtain ⟨hP, hQ⟩ := applyItems_induction htype hnamed hvalue.2 (hdeclared v₀ hv₀) hvalues hw
  dsimp only at h
  split at h
  · cases h
  · next hfits =>
    cases h
    exact ⟨w, values, hP, hQ, Nat.le_of_not_lt hfits, rfl⟩

/-- A declaration gives a variable of its name and type that is filled. -/
theorem filled_ofDecl [Library] {d : VarDecl} {v : Variable} (h : ofDecl type d = .ok v) :
    v.name = d.declarator.name ∧ v.type = type ∧ v.Filled := by
  let P (w : Variable) : Prop := w.name = d.declarator.name ∧ w.type = type ∧
    w.options.min.isOf (.ofType type) = true ∧ w.options.max.isOf (.ofType type) = true
  have hdeclared : ∀ w, declared type d.declarator = .ok w → P w := by
    intro w hw
    obtain ⟨hname, htype, hoptions⟩ := declared_eq_ok hw
    refine ⟨hname, htype, ?_, ?_⟩
    · rw [hoptions]
      exact Value.isOf_none _
    · rw [hoptions]
      exact Value.isOf_none _
  have hnamed : ∀ w w' key c line, P w → applyOption w key c line = .ok w' → P w' := by
    rintro w w' key c line ⟨hname, htype, hmin, hmax⟩ hw'
    rcases applyOption_cases hw' with ⟨mode, rfl⟩ | ⟨options, rfl, hmin', hmax'⟩
    · exact ⟨hname, htype, hmin, hmax⟩
    · rw [htype] at hmin' hmax'
      exact ⟨hname, htype, hmin'.elim (fun heq => heq ▸ hmin) id, hmax'.elim (fun heq => heq ▸ hmax) id⟩
  obtain ⟨w, values, ⟨hname, htype, hmin, hmax⟩, hvalues, hfits, rfl⟩ := ofDecl_induction hdeclared (fun _ hw => hw.2.1) hnamed
    (fun _ _ _ => isOf_convertConstant) h
  have hlength : (values ++ List.replicate (capacity w - values.length) Value.none).length = capacity w := by
    rw [List.length_append, List.length_replicate]
    omega
  refine ⟨hname, htype, ?_, ?_, ?_, htype ▸ hmin, htype ▸ hmax⟩
  · intro harray
    have hpositive : (0 : Int) < w.arraySize.toInt := by simpa using Int64.lt_iff_toInt_lt.mp harray
    show ((values ++ _).length : Int) = w.arraySize.toInt
    rw [hlength, capacity, if_pos (by simpa [Variable.isArray] using harray)]
    omega
  · intro hscalar
    show (values ++ _).length = 1
    rw [hlength, capacity, if_neg (by simpa [Variable.isArray] using hscalar)]
  · refine List.forall_mem_append.mpr ⟨htype ▸ hvalues, fun x hx => ?_⟩
    rw [List.eq_of_mem_replicate hx]
    exact Value.isOf_none _

theorem type_withMode (v : Variable) (mode : Bytes) : (withMode v mode).type = v.type := by
  unfold withMode
  split <;> rfl

/-- A mode that is supplied changes nothing else. -/
theorem withMode_cases (v : Variable) (mode : Bytes) : withMode v mode = v ∧ v.mode ≠ [] ∨ withMode v mode = { v with mode } := by
  unfold withMode
  split
  · exact .inr rfl
  · next hmode => exact .inl ⟨rfl, by simpa using hmode⟩

theorem complete_withMode {v : Variable} {mode : Bytes} (hv : v.Filled) (htype : v.type ≠ []) (hmode : mode ≠ []) :
    (withMode v mode).Complete := by
  rcases withMode_cases v mode with ⟨heq, hown⟩ | heq
  · rw [heq]
    exact ⟨hv, htype, hown⟩
  · rw [heq]
    exact ⟨⟨hv.array, hv.scalar, hv.values, hv.min, hv.max⟩, htype, hmode⟩

end Scope

end Script

end IrafCl
