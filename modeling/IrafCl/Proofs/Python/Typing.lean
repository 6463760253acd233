import IrafCl.Proofs.Python.Reader
import IrafCl.Tree.Node

/-!
# Types of Python expressions

The types that generated expressions compute with, as rules on what Python reads. What names, array elements and
functions stand for is left to an environment. Arithmetic takes numbers, and of integers only it makes an integer;
`+` also joins two strings; `and`, `or` and `not` take truth values, and comparisons take anything. The arguments
of a call and the indices of an element have a type each, whichever it is.
-/

namespace IrafCl.Python

open Code (BinaryOp)

/-- What is known about names: a name may stand for a variable, a field of a parameter, an array or a function. -/
structure Env where
  names : Tree → Ty → Prop
  arrays : Tree → Ty → Prop
  functions : List Bytes → Option Ty

/-- The type of a number as it is written. Hexadecimal and octal numbers are integers, and so are digits alone. -/
def numberType : Bytes → Ty
  | 48 :: 120 :: _ => .int
  | 48 :: 111 :: _ => .int
  | s => if s.all Bytes.isDigit then .int else .float

/-- The type of an operation on numbers. -/
def arithmeticType (l r : Ty) : Option Ty :=
  if l.isNumeric && r.isNumeric then some (if l = .int && r = .int then .int else .float) else none

/-- The type of an operation, if its operands may be of the given types. A quotient is never an integer. -/
def binaryType (op : BinaryOp) (l r : Ty) : Option Ty :=
  match op with
  | .or | .and => if l = .bool && r = .bool then some .bool else none
  | .eq | .ne | .lt | .le | .gt | .ge => some .bool
  | .add => if l = .string && r = .string then some .string else arithmeticType l r
  | .div => if l.isNumeric && r.isNumeric then some .float else none
  | .sub | .mul | .floorDiv | .mod | .pow => arithmeticType l r

/-- An expression has a type. The types of arguments and indices are given as a function of them. -/
inductive HasType (Γ : Env) : Tree → Ty → Prop where
  | number (digits : Bytes) : HasType Γ (.number digits) (numberType digits)
  | string (body : Bytes) : HasType Γ (.string body) .string
  | path {ids : List Bytes} {t : Ty} (h : Γ.names (.path ids) t) : HasType Γ (.path ids) t
  | field {e : Tree} {name : Bytes} {t : Ty} (h : Γ.names (.field e name) t) : HasType Γ (.field e name) t
  | element {e : Tree} {index : List Tree} {t : Ty} (h : Γ.arrays e t) (types : Tree → Ty)
      (hindex : ∀ i ∈ index, HasType Γ i (types i)) : HasType Γ (.index e index) t
  | call {fn : List Bytes} {args : List (Option (List Bytes) × Tree)} {t : Ty} (h : Γ.functions fn = some t)
      (types : Option (List Bytes) × Tree → Ty) (hargs : ∀ a ∈ args, HasType Γ a.2 (types a)) :
      HasType Γ (.call (.path fn) args) t
  | not {e : Tree} (h : HasType Γ e .bool) : HasType Γ (.not e) .bool
  | minus {e : Tree} {t : Ty} (h : HasType Γ e t) (ht : t.isNumeric = true) : HasType Γ (.minus e) t
  | plus {e : Tree} {t : Ty} (h : HasType Γ e t) (ht : t.isNumeric = true) : HasType Γ (.plus e) t
  | binary {op : BinaryOp} {l r : Tree} {tl tr t : Ty} (hl : HasType Γ l tl) (hr : HasType Γ r tr)
      (h : binaryType op tl tr = some t) : HasType Γ (.binary op l r) t

variable {Γ : Env} {t : Ty}

/-- An expression has some type. -/
def WellTyped (Γ : Env) (e : Tree) : Prop := ∃ t, HasType Γ e t

theorem hasType_call {fn : List Bytes} {args : List (Option (List Bytes) × Tree)} (h : Γ.functions fn = some t)
    (hargs : ∀ a ∈ args, WellTyped Γ a.2) : HasType Γ (.call (.path fn) args) t := by
  classical
  refine .call h (fun a => if h : WellTyped Γ a.2 then h.choose else .undefined) fun a ha => ?_
  have ha := hargs a ha
  rw [dif_pos ha]
  exact ha.choose_spec

theorem hasType_element {e : Tree} {index : List Tree} (h : Γ.arrays e t)
    (hindex : ∀ i ∈ index, WellTyped Γ i) : HasType Γ (.index e index) t := by
  classical
  refine .element h (fun i => if h : WellTyped Γ i then h.choose else .undefined) fun i hi => ?_
  have hi := hindex i hi
  rw [dif_pos hi]
  exact hi.choose_spec

theorem WellTyped.subscripts {e : Tree} {index : List Tree} (h : WellTyped Γ (.index e index)) :
    ∀ i ∈ index, WellTyped Γ i := by
  obtain ⟨t, h⟩ := h
  cases h with
  | element _ types hindex => exact fun i hi => ⟨_, hindex i hi⟩

/-- An expression is a number. -/
def IsNumber (Γ : Env) (e : Tree) : Prop := ∃ t, HasType Γ e t ∧ t.isNumeric = true

theorem isNumeric_numberType (digits : Bytes) : (numberType digits).isNumeric = true := by
  unfold numberType
  repeat' split
  all_goals rfl

theorem not_isNumber_string {body : Bytes} : ¬ IsNumber Γ (.string body) := by
  rintro ⟨t, h, hnumeric⟩
  cases h
  cases hnumeric

/-- A difference of numbers is one, and nothing else has a type as a difference. -/
theorem wellTyped_sub {l r : Tree} : WellTyped Γ (.binary .sub l r) ↔ IsNumber Γ l ∧ IsNumber Γ r := by
  constructor
  · rintro ⟨t, h⟩
    cases h with
    | binary hl hr htype =>
      rw [binaryType, arithmeticType] at htype
      split at htype
      · next hnumeric =>
        rw [Bool.and_eq_true] at hnumeric
        exact ⟨⟨_, hl, hnumeric.1⟩, ⟨_, hr, hnumeric.2⟩⟩
      · cases htype
  · rintro ⟨⟨tl, hl, hnl⟩, ⟨tr, hr, hnr⟩⟩
    exact ⟨_, .binary hl hr (by rw [binaryType, arithmeticType, hnl, hnr]; rfl)⟩

/-- Strings can only come of a sum of strings. -/
theorem binaryType_eq_string {op : BinaryOp} {l r : Ty} (h : binaryType op l r = some .string) :
    op = .add ∧ l = .string ∧ r = .string := by
  cases op <;> cases l <;> cases r <;> first | exact ⟨rfl, rfl, rfl⟩ | cases h

theorem HasType.operands_of_string {op : BinaryOp} {l r : Tree} (h : HasType Γ (.binary op l r) .string) :
    HasType Γ l .string ∧ HasType Γ r .string := by
  cases h with
  | binary hl hr htype =>
    obtain ⟨-, rfl, rfl⟩ := binaryType_eq_string htype
    exact ⟨hl, hr⟩

end IrafCl.Python
