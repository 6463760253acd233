import IrafCl.Proofs.Python.Typing
import IrafCl.Proofs.Script.Precedence

/-!
# Types of the forms of expressions

What an expression is printed as has a type, once its operands have theirs: a name and a constant have the type of their
kind, a conversion gives the type that is required (`Expr.HasType.require`), and the type pass asks the operands of each
operator for types that Python takes (`typed_fits`). Arguments may have any type; of a subscript one is taken, so that it
has to be a number (`wellTyped_index`).
-/

namespace IrafCl.Script

open Python (WellTyped IsNumber numberType binaryType)
open Typing (typed both inferred require? nameType declaredType functionType)

/-! ## What names stand for -/

/-- The functions that generated expressions call on their own, with their types. What `locals` gives is of none of the
types that expressions compute with. -/
def helperTypes : List (List Bytes × Ty) := [
  (["iraf", "integer"], .int), (["float"], .float), (["iraf", "real"], .float), (["str"], .string),
  (["iraf", "bool2str"], .string), (["iraf", "boolean"], .bool), (["iraf", "clSexagesimal"], .float),
  (["locals"], .undefined)]

/-- The type of what a function gives. -/
def functionResult? (fn : List Bytes) : Option Ty :=
  match helperTypes.lookup fn, fn with
  | some t, _ => some t
  | none, [owner, name] => if owner = taskRegistry && isKnown (functionType name) then some (functionType name) else none
  | none, _ => none

/-- The types of the names that generated expressions use. -/
def Context.env (c : Context) : Python.Env where
  names e t := isKnown t = true ∧ ((∃ path, e = referenceTree (c.reference path) ∧ t = nameType c.scope path) ∨
    t = .bool ∧ (e = .path ["yes"] ∨ e = .path ["no"]))
  arrays e t := isKnown t = true ∧ ∃ path, e = referenceTree (c.array path) ∧ t = nameType c.scope path
  functions := functionResult?

variable {c : Context} {n : Tree} {k : Symbol} {e : Expr} {t : Ty}

/-- The Python expression that an expression is printed as has a type. -/
abbrev Expr.HasType (c : Context) (e : Expr) (t : Ty) : Prop := Python.HasType c.env (e.leftNested.meaning c) t

theorem hasType_reference {path : Bytes} (h : isKnown (nameType c.scope path) = true) :
    (Expr.name path).HasType c (nameType c.scope path) := by
  have hname : c.env.names (referenceTree (c.reference path)) (nameType c.scope path) := ⟨h, .inl ⟨path, rfl, rfl⟩⟩
  show Python.HasType c.env (referenceTree (c.reference path)) _
  revert hname
  generalize c.reference path = r
  intro hname
  cases r with
  | field owner param field => exact .field hname
  | _ => exact .path hname

theorem functionResult?_functionPath {fn : Bytes} (h : isKnown (functionType fn) = true) :
    functionResult? (functionPath fn) = some (functionType fn) := by
  have hall : ∀ fn ∈ Typing.intFunctions ++ Typing.floatFunctions ++ Typing.stringFunctions ++ Typing.boolFunctions,
      functionResult? (functionPath fn) = some (functionType fn) := by decide +kernel
  refine hall fn ?_
  unfold functionType at h
  simp only [List.mem_append]
  repeat' split at h
  · next hmem => exact .inl (.inl (.inl (List.contains_iff_mem.mp hmem)))
  · next hmem => exact .inl (.inl (.inr (List.contains_iff_mem.mp hmem)))
  · next hmem => exact .inl (.inr (List.contains_iff_mem.mp hmem))
  · next hmem => exact .inr (List.contains_iff_mem.mp hmem)
  · cases h

/-- A type name as a function gives values of the type. -/
theorem functionResult?_castFunction {type : Bytes} (h : isKnown (declaredType type) = true) :
    functionResult? (castFunction type) = some (declaredType type) := by
  have hclass : type.isEmpty = false ∧ TypeClass.ofType type ≠ .any := by
    constructor
    · rw [Bool.eq_false_iff]
      intro hempty
      rw [declaredType, if_pos hempty] at h
      cases h
    · intro hany
      rw [declaredType, hany, ite_self] at h
      cases h
  obtain ⟨hempty, hany⟩ := hclass
  unfold declaredType
  rw [if_neg (by rw [hempty]; decide)]
  unfold TypeClass.ofType at hany ⊢
  unfold castFunction
  by_cases hint : type = "int"
  · rw [if_pos hint, if_pos hint]
    decide
  by_cases hreal : (type = "real" || type = "double") = true
  · rw [if_neg hint, if_neg hint, if_pos hreal, if_pos hreal]
    decide
  rw [if_neg hint, if_neg hreal] at hany ⊢
  rw [if_neg hint, if_neg hreal]
  by_cases hbool : type = "bool"
  · rw [if_pos hbool, if_pos hbool]
    decide
  rw [if_neg hbool] at hany ⊢
  by_cases hpset : type = "pset"
  · rw [if_pos hpset] at hany
    exact absurd rfl hany
  · rw [if_neg hpset, if_neg hbool]
    decide

/-- Between two types of values there is a conversion, which gives the required one. -/
theorem conversion?_of_isKnown {types : Types} (hinferred : isKnown types.inferred = true)
    (hrequired : isKnown types.required = true) (hne : types.required ≠ types.inferred) :
    ∃ fn, conversion? types = some fn ∧ functionResult? fn = some types.required := by
  obtain ⟨inferred, required⟩ := types
  cases inferred <;> cases hinferred <;> cases required <;> cases hrequired <;>
    first | exact ⟨_, rfl, by decide⟩ | exact absurd rfl hne

theorem Expr.HasType.require {types : Types} (hinferred : isKnown types.inferred = true)
    (hrequired : isKnown types.required = true) (h : e.HasType c types.inferred) :
    (e.require types).HasType c types.required := by
  unfold Expr.require
  split
  · next heq =>
    rw [heq]
    exact h
  · next hne =>
    obtain ⟨fn, hconversion, hfn⟩ := conversion?_of_isKnown hinferred hrequired hne
    unfold Expr.HasType
    rw [Expr.leftNested, Expr.meaning, hconversion]
    refine Python.hasType_call hfn fun a ha => ?_
    rw [List.mem_singleton.mp ha]
    exact ⟨_, h⟩

/-! ## Constants -/

theorem numberType_of_digits {whole rest : Bytes} {b : UInt8} (hwhole : ∀ d ∈ whole, Bytes.isDigit d = true)
    (hb : Bytes.isDigit b = false) (hhex : b ≠ 120) (hoctal : b ≠ 111) : numberType (whole ++ b :: rest) = .float := by
  have hall : (whole ++ b :: rest).all Bytes.isDigit = false := by simp [hb]
  unfold numberType
  split
  · next more heq =>
    rcases whole with _ | ⟨d, _ | ⟨d', whole⟩⟩
    · cases heq
      cases hb
    · cases heq
      exact absurd rfl hhex
    · cases heq
      cases hwhole 120 (by simp)
  · next more heq =>
    rcases whole with _ | ⟨d, _ | ⟨d', whole⟩⟩
    · cases heq
      cases hb
    · cases heq
      exact absurd rfl hoctal
    · cases heq
      cases hwhole 111 (by simp)
  · rw [hall]
    rfl

/-- A constant with a point or an exponent is a floating-point number for Python too. -/
theorem numberType_float {text : Bytes} (h : Lexicon.float.Matches text) : numberType (exponentMark 'E' text) = .float := by
  have hpoint {s : Bytes} (h : (Lexicon.char '.').Matches s) : exponentMark 'E' s = [46] := by
    rw [h.char (by decide)]
    rfl
  have hpointed (ds rest : Bytes) (hds : ∀ d ∈ ds, Bytes.isDigit d = true) :
      numberType (ds ++ 46 :: rest) = .float := numberType_of_digits hds rfl (by decide) (by decide)
  cases h with
  | altLeft h =>
    obtain ⟨mantissa, exponent, rfl, hmantissa, -⟩ := h.of_seq
    cases hmantissa with
    | altLeft h =>
      obtain ⟨whole, rest, rfl, hwhole, hrest⟩ := h.of_seq
      obtain ⟨dot, fraction, rfl, hdot, -⟩ := hrest.of_seq
      have hwhole := (digits_of_run1 hwhole).2
      rw [exponentMark_append, exponentMark_append, exponentMark_append, hpoint hdot, exponentMark_digits hwhole,
        List.append_assoc]
      exact hpointed _ _ hwhole
    | altRight h =>
      obtain ⟨dot, fraction, rfl, hdot, -⟩ := h.of_seq
      rw [exponentMark_append, exponentMark_append, hpoint hdot]
      exact hpointed [] _ nofun
  | altRight h =>
    obtain ⟨whole, exponent, rfl, hwhole, hexponent⟩ := h.of_seq
    have hwhole := (digits_of_run1 hwhole).2
    obtain ⟨hexponent, hne⟩ := exponent_mark 'E' (by decide) hexponent
    rw [exponentMark_append, exponentMark_digits hwhole]
    cases hmark : exponentMark 'E' exponent with
    | nil => exact absurd hmark hne
    | cons b rest =>
      rw [hmark] at hexponent
      obtain ⟨hdigit, -, hhex, hoctal⟩ := hexponent.head b rfl
      exact numberType_of_digits hwhole hdigit hhex hoctal

theorem numberType_integer {text : Bytes} (h : Lexicon.integer.Matches text) : numberType (stripZeros text) = .int := by
  have hall : ∀ b ∈ stripZeros text, Bytes.isDigit b = true := stripZeros_digits rfl (digits_of_run1 h).2
  unfold numberType
  split
  · rfl
  · rfl
  · rw [if_pos (List.all_eq_true.mpr hall)]

/-- A constant has the type of its kind, if that is one. -/
theorem hasType_constant {token : Token Symbol} {constant : Constant} (htoken : Lexed token)
    (h : Constant.ofToken? token = some constant) (hknown : isKnown (Typing.constantType token.kind) = true) :
    (Expr.constant constant).HasType c (Typing.constantType token.kind) := by
  have hlexed := isLexed_ofToken htoken h
  obtain ⟨kind, hkind, rfl⟩ := Option.map_eq_some_iff.mp h
  show Python.HasType c.env (Constant.tree _) _
  unfold Constant.IsLexed at hlexed
  unfold Constant.tree
  generalize token.kind = symbol at hkind hknown
  cases symbol <;> cases hkind
  case integer =>
    rw [Typing.constantType, ← numberType_integer hlexed]
    exact .number _
  case octal => exact .number _
  case hex => exact .number _
  case float =>
    rw [Typing.constantType, ← numberType_float hlexed]
    exact .number _
  case sexagesimal =>
    have hresult : functionResult? ["iraf", "clSexagesimal"] = some .float := by decide
    refine Python.hasType_call hresult fun a ha => ?_
    obtain ⟨part, -, rfl⟩ := List.mem_map.mp ha
    exact ⟨_, .number _⟩
  case string => exact .string _
  case bool =>
    refine .path ⟨rfl, .inr ⟨rfl, ?_⟩⟩
    rcases hlexed with hyes | hno
    · exact .inl (by rw [← hyes])
    · exact .inr (by rw [← hno])
  case undefined => cases hknown

/-! ## Operations -/

/-- What an operation asks of operands of two types: they become operands that Python takes, for a result of its type. -/
structure Fits (op : Symbol) (l r ty : Ty) (tl tr : Option Ty) (o : BinaryOp) : Prop where
  operator : BinaryOp.ofSymbol? ty op = some o
  type : binaryType o.lower (tl.getD l) (tr.getD r) = some ty
  known : isKnown ty = true
  left : isKnown (tl.getD l) = true
  right : isKnown (tr.getD r) = true

/-- Whatever the types of two operands are, an operation on numbers makes numbers of them. -/
theorem fits_compose {op : Symbol} {l r : Ty} (hop : op ∈ [.plus, .minus, .star, .slash, .percent, .pow])
    (hl : isKnown l = true) (hr : isKnown r = true) (hplus : op = .plus → l ≠ .string ∧ r ≠ .string) :
    ∃ o, Fits op l r (Typing.compose l r).1 (Typing.compose l r).2.1 (Typing.compose l r).2.2 o := by
  simp only [List.mem_cons, List.not_mem_nil, or_false] at hop
  -- two numbers keep their types, and any other pair is brought to one type of numbers
  rcases hop with rfl | rfl | rfl | rfl | rfl | rfl
  case inl =>
    obtain ⟨hls, hrs⟩ := hplus rfl
    cases l <;> cases hl <;> first | exact absurd rfl hls | skip
    all_goals cases r <;> cases hr <;> first | exact absurd rfl hrs | exact ⟨_, rfl, rfl, rfl, rfl, rfl⟩
  all_goals cases l <;> cases hl <;> cases r <;> cases hr <;> exact ⟨_, rfl, rfl, rfl, rfl, rfl⟩

theorem typed_fits {scope : Scope} {types : Types} {l op r : Symbol} (h : OpRule k l op r) (x y : Tree)
    {token : Token Symbol} (htoken : token.kind = op) (hx : isKnown (inferred x) = true) (hy : isKnown (inferred y) = true) :
    ∃ ty tl tr o, typed scope k types [x, .leaf token, y] = (both ty, [require? tl x, .leaf token, require? tr y]) ∧
      Fits op (inferred x) (inferred y) ty tl tr o := by
  have arithmetic (hop : op ∈ [.plus, .minus, .star, .slash, .percent, .pow])
      (hplus : op = .plus → inferred x ≠ .string ∧ inferred y ≠ .string) :
      ∃ ty tl tr o, Typing.arithmetic x (.leaf token) y = (both ty, [require? tl x, .leaf token, require? tr y]) ∧
        Fits op (inferred x) (inferred y) ty tl tr o := by
    obtain ⟨o, ho⟩ := fits_compose hop hx hy hplus
    exact ⟨_, _, _, o, rfl, ho⟩
  have concat (hop : BinaryOp.ofSymbol? .string op = some .concat) :
      ∃ tl tr o, Typing.uniform .string x (.leaf token) y = (both .string, [require? tl x, .leaf token, require? tr y]) ∧
        Fits op (inferred x) (inferred y) .string tl tr o :=
    ⟨some .string, some .string, .concat, rfl, hop, rfl, rfl, rfl, rfl⟩
  cases h with
  | or => exact ⟨.bool, some .bool, some .bool, .or, rfl, rfl, rfl, rfl, rfl, rfl⟩
  | and => exact ⟨.bool, some .bool, some .bool, .and, rfl, rfl, rfl, rfl, rfl, rfl⟩
  | eq => exact ⟨.bool, none, none, .eq, rfl, rfl, rfl, rfl, hx, hy⟩
  | ne => exact ⟨.bool, none, none, .ne, rfl, rfl, rfl, rfl, hx, hy⟩
  | lt => exact ⟨.bool, none, none, .lt, rfl, rfl, rfl, rfl, hx, hy⟩
  | le => exact ⟨.bool, none, none, .le, rfl, rfl, rfl, rfl, hx, hy⟩
  | gt => exact ⟨.bool, none, none, .gt, rfl, rfl, rfl, rfl, hx, hy⟩
  | ge => exact ⟨.bool, none, none, .ge, rfl, rfl, rfl, rfl, hx, hy⟩
  | concat => exact ⟨.string, concat rfl⟩
  | add =>
    rw [typed]
    split
    · exact ⟨.string, concat rfl⟩
    · next hstring =>
      refine arithmetic (by simp) fun _ => ?_
      have hkind : Node.kind? (Node.leaf token) = some .plus := by rw [Node.kind?, htoken]
      simpa [hkind] using hstring
  | sub =>
    have hkind : Node.kind? (Node.leaf token) ≠ some .plus := by simp [Node.kind?, htoken]
    rw [typed]
    rw [if_neg (by simp [hkind])]
    exact arithmetic (by simp) (by simp)
  | mul => exact arithmetic (by simp) (by simp)
  | div => exact arithmetic (by simp) (by simp)
  | mod => exact arithmetic (by simp) (by simp)
  | pow => exact arithmetic (by simp) (by simp)

/-- Strings that are joined in another order are still joined strings. -/
theorem hasType_concatenate {l r : Expr} (hl : Python.HasType c.env (l.meaning c) .string)
    (hr : Python.HasType c.env (r.meaning c) .string) : Python.HasType c.env ((concatenate l r).meaning c) .string := by
  induction r using concatenate.induct with
  | case1 a b ih =>
    rw [Expr.meaning] at hr
    obtain ⟨ha, hb⟩ := hr.operands_of_string
    rw [concatenate, Expr.meaning]
    exact .binary (ih ha) hb rfl
  | case2 r hconcat =>
    rw [concatenate.eq_2 l r hconcat, Expr.meaning]
    exact .binary hl hr rfl

theorem hasType_binary {o : BinaryOp} {l r : Expr} {tl tr : Ty} (hl : l.HasType c tl) (hr : r.HasType c tr)
    (h : binaryType o.lower tl tr = some t) (hstring : o = .concat → t = .string) : (Expr.binary o l r).HasType c t := by
  unfold Expr.HasType at hl hr ⊢
  rw [Expr.leftNested]
  split
  · next hconcat =>
    cases hstring hconcat
    obtain ⟨-, rfl, rfl⟩ := Python.binaryType_eq_string h
    exact hasType_concatenate hl hr
  · rw [Expr.meaning]
    exact .binary hl hr h

theorem ofSymbol?_concat {op : Symbol} (h : BinaryOp.ofSymbol? t op = some .concat) : op = .concat ∨ t = .string := by
  cases op
  case concat => exact .inl rfl
  case plus =>
    simp only [BinaryOp.ofSymbol?, Option.some.injEq] at h
    split at h
    · next hstring => exact .inr hstring
    · cases h
  case slash =>
    simp only [BinaryOp.ofSymbol?, Option.some.injEq] at h
    split at h <;> cases h
  all_goals cases h

/-- A sign before a number, and a negation of a truth value. -/
theorem hasType_unary {o : UnaryOp} (he : e.HasType c t)
    (h : (o = .not ∧ t = .bool) ∨ t.isNumeric = true ∧ o ≠ .not) : (Expr.unary o e).HasType c t := by
  unfold Expr.HasType at he ⊢
  rw [Expr.leftNested, Expr.meaning]
  rcases h with ⟨rfl, rfl⟩ | ⟨hnumeric, hne⟩
  · exact .not he
  · cases o with
    | not => exact absurd rfl hne
    | minus => exact .minus he hnumeric
    | plus => exact .plus he hnumeric

/-! ## Subscripts and arguments -/

/-- An index is one less than a subscript that is a number, or is an integer itself. -/
theorem wellTyped_index (h : IsNumber c.env (e.leftNested.meaning c)) : WellTyped c.env (indexItem c e).value := by
  show WellTyped c.env (indexTree e.leftNested (e.leftNested.meaning c))
  unfold indexTree
  cases constantIndex? e.leftNested with
  | none => exact Python.wellTyped_sub.mpr ⟨h, _, .number _, Python.isNumeric_numberType _⟩
  | some i =>
    dsimp only
    cases i - 1 with
    | ofNat m => exact ⟨_, .number _⟩
    | negSucc m => exact ⟨_, .minus (.number _) (Python.isNumeric_numberType _)⟩

theorem hasType_arrayElement {path : Bytes} {es : List Expr} (h : isKnown (nameType c.scope path) = true)
    (hes : ∀ e ∈ es, IsNumber c.env (e.leftNested.meaning c)) :
    (Expr.element path es).HasType c (nameType c.scope path) := by
  unfold Expr.HasType
  rw [Expr.leftNested, Expr.meaning, indices_leftNestedAll]
  refine Python.hasType_element ⟨h, path, rfl, rfl⟩ fun i hi => ?_
  simp only [List.map_map, List.mem_map, Function.comp_apply] at hi
  obtain ⟨e, he, rfl⟩ := hi
  exact wellTyped_index (hes e he)

theorem wellTyped_items {as : List Arg} (has : ∀ a ∈ as, WellTyped c.env (a.item c).value) :
    ∀ x ∈ (as.map (Arg.item c)).map Code.Item.arg, WellTyped c.env x.2 := by
  intro x hx
  simp only [List.map_map, List.mem_map, Function.comp_apply] at hx
  obtain ⟨a, ha, rfl⟩ := hx
  exact has a ha

theorem hasType_cast {type : Bytes} {as : List Arg} (h : isKnown (declaredType type) = true)
    (has : ∀ a ∈ as, WellTyped c.env (a.item c).value) : (Expr.cast type as).HasType c (declaredType type) := by
  unfold Expr.HasType
  rw [Expr.leftNested, Expr.meaning, meanings_leftNestedAll]
  exact Python.hasType_call (functionResult?_castFunction h) (wellTyped_items has)

theorem hasType_functionCall {fn : Bytes} {as : List Arg} (h : isKnown (functionType fn) = true)
    (has : ∀ a ∈ as, WellTyped c.env (a.item c).value) : (Expr.call fn as).HasType c (functionType fn) := by
  unfold Expr.HasType
  rw [Expr.leftNested, Expr.meaning]
  refine Python.hasType_call (functionResult?_functionPath h) ?_
  rw [isEmpty_leftNestedAll]
  split
  · simp
  split
  · -- a scanning function gets its variables, and the names of those to set
    rw [scannedMeanings_leftNestedAll]
    intro x hx
    simp only [List.map_map, List.mem_cons, List.mem_map, Function.comp_apply] at hx
    rcases hx with rfl | ⟨a, ha, rfl⟩
    · have hlocals : functionResult? ["locals"] = some .undefined := by decide
      exact ⟨_, Python.hasType_call hlocals (by simp)⟩
    · show WellTyped c.env (a.scannedItem c).value
      unfold Arg.scannedItem
      split
      · exact ⟨_, .string _⟩
      · exact has a ha
  · rw [meanings_leftNestedAll]
    exact wellTyped_items has

end IrafCl.Script
