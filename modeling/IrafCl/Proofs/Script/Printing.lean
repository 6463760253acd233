import IrafCl.Proofs.Script.Meaning

/-!
# Printing expressions

Each form of expression is printed as its Python expression once its operands are, at the levels that the
operator needs (`Expr.Printed`). A concatenation has no level of its own: what stands after a plus sign is added
to what stands before, operand by operand (`Joins`).
-/

namespace IrafCl.Script

open Python (operandLevel signLevel notLevel isIdentifier)
open Code (Prints IsPath)

variable {c : Context} {n m : Nat} {e l r : Expr}

/-- An expression is printed as its Python expression, at a level or above. -/
def Expr.Printed (c : Context) (n : Nat) (e : Expr) : Prop :=
  Prints n (e.lower c).text (e.leftNested.meaning c)

theorem Expr.Printed.weaken (h : e.Printed c m) (hle : n ≤ m) : e.Printed c n := Prints.weaken h hle

/-! ## Operators -/

theorem printed_paren (h : e.Printed c n) : (Expr.paren e).Printed c operandLevel := by
  unfold Expr.Printed
  rw [Expr.lower, Code.Expr.text, Expr.leftNested, Expr.meaning]
  exact Prints.paren h

theorem printed_unary (op : UnaryOp) (h : e.Printed c signLevel) : (Expr.unary op e).Printed c signLevel := by
  unfold Expr.Printed
  rw [Expr.leftNested, Expr.meaning]
  cases op with
  | minus => rw [Expr.lower, Code.Expr.text]; exact Prints.minus h
  | plus => rw [Expr.lower, Code.Expr.text]; exact Prints.plus h
  | not =>
    rw [Expr.lower, Code.Expr.text, Code.Expr.text]
    have hnot : Prints notLevel _ _ := Prints.not (Prints.weaken h (by decide))
    exact hnot.paren.weaken (by decide)

theorem printed_binary {op : BinaryOp} (hop : op ≠ .concat) (hl : l.Printed c (Python.left op.lower))
    (hr : r.Printed c (Python.right op.lower)) : (Expr.binary op l r).Printed c (Python.level op.lower) := by
  unfold Expr.Printed
  rw [Expr.leftNested, if_neg hop, Expr.lower, Code.Expr.text, Expr.meaning]
  exact Prints.binary hl hr

/-- The functions that conversions call. -/
theorem isPath_conversion {types : Types} {fn : List Bytes} (h : conversion? types = some fn) : IsPath fn := by
  obtain ⟨inferred, required⟩ := types
  cases inferred <;> cases required <;> cases h <;> decide

/-- A conversion is an operand. -/
theorem printed_converted {types : Types} {fn : List Bytes} (hconv : conversion? types = some fn) (h : e.Printed c n) :
    (Expr.convert types e).Printed c operandLevel := by
  unfold Expr.Printed
  rw [Expr.lower, Expr.leftNested, Expr.meaning, hconv]
  have hitem : (⟨none, false, (e.lower c).text, e.leftNested.meaning c⟩ : Code.Item).Prints :=
    ⟨Prints.weaken h (Nat.zero_le n), by simp⟩
  have htexts : Code.Arg.texts [.positional (e.lower c)] =
      [(⟨none, false, (e.lower c).text, e.leftNested.meaning c⟩ : Code.Item)].map Code.Item.all := rfl
  exact Code.prints_call (isPath_conversion hconv) htexts (by simpa using hitem)

/-- Types with no conversion between them change nothing. -/
theorem printed_unconverted {types : Types} (hconv : conversion? types = none) (h : e.Printed c n) :
    (Expr.convert types e).Printed c n := by
  unfold Expr.Printed
  rw [Expr.lower, Expr.leftNested, Expr.meaning, hconv]
  exact h

theorem printed_require (types : Types) (hn : n ≤ operandLevel) (h : e.Printed c n) :
    (e.require types).Printed c n := by
  unfold Expr.require
  split
  · exact h
  · cases hconv : conversion? types with
    | none => exact printed_unconverted hconv h
    | some fn => exact (printed_converted hconv h).weaken hn

/-- Whether an expression ends in an operator that binds no more tightly than a sum. -/
def Expr.isLoose : Expr → Bool
  | .binary op _ _ => Python.level op.lower ≤ Python.level .add
  | .convert types e => (conversion? types).isNone && e.isLoose
  | _ => false

theorem isLoose_of_isOperand (h : isOperand e = true) : e.isLoose = false := by
  cases e <;> first | rfl | cases h

/-! ## Concatenations -/

/-- After a plus sign, an expression is added to what stands before. -/
structure Joins (c : Context) (e : Expr) : Prop where
  printed : e.Printed c 4
  after : ∀ (s : Bytes) (x : Expr), Prints 4 s (x.meaning c) →
    Prints 4 (s ++ " + " ++ (e.lower c).text) ((concatenate x e.leftNested).meaning c)

theorem Joins.binary (hl : Joins c l) (hr : Joins c r) : Joins c (.binary .concat l r) := by
  have htext : ((Expr.binary .concat l r).lower c).text = (l.lower c).text ++ " + " ++ (r.lower c).text := by
    rw [Expr.lower, Code.Expr.text]
    simp only [List.append_assoc]
    rfl
  have hnested : (Expr.binary .concat l r).leftNested = concatenate l.leftNested r.leftNested := by
    rw [Expr.leftNested, if_pos rfl]
  refine ⟨?_, fun s x hx => ?_⟩
  · unfold Expr.Printed
    rw [htext, hnested]
    exact hr.after _ _ hl.printed
  · have hassoc : s ++ " + " ++ ((l.lower c).text ++ " + " ++ (r.lower c).text) =
        s ++ " + " ++ (l.lower c).text ++ " + " ++ (r.lower c).text := by simp only [List.append_assoc]
    rw [htext, hnested, hassoc, concatenate_assoc]
    exact hr.after _ _ (hl.after s x hx)

/-- What binds more tightly than a sum and is no concatenation is one operand of a concatenation. -/
theorem joins_of_printed (h : e.Printed c 5)
    (hconcat : ∀ x, concatenate x e.leftNested = .binary .concat x e.leftNested) : Joins c e := by
  refine ⟨h.weaken (by decide), fun s x hx => ?_⟩
  rw [hconcat, Expr.meaning]
  have hleft : Prints (Python.left .add) s (x.meaning c) := hx
  have hright : Prints (Python.right .add) (e.lower c).text (e.leftNested.meaning c) := h
  have hbinary := hleft.binary hright
  have htext : s ++ " " ++ Code.BinaryOp.text .add ++ " " ++ (e.lower c).text = s ++ " + " ++ (e.lower c).text := by
    simp only [List.append_assoc]
    rfl
  rw [htext] at hbinary
  exact hbinary

theorem joins_of_isOperand (h : e.Printed c operandLevel) (he : isOperand e = true) : Joins c e := by
  refine joins_of_printed (h.weaken (by decide)) fun x => ?_
  cases e with
  | unary _ _ => cases he
  | binary _ _ _ => cases he
  | convert _ _ => cases he
  | _ => rfl

/-- A type of values, not the lack of one. -/
def isKnown : Ty → Bool
  | .int | .float | .string | .bool => true
  | .unset | .undefined => false

/-- Every other known type is converted to a string. -/
theorem isKnown_of_unconverted {types : Types} (hrequired : types.required = .string)
    (hne : types.required ≠ types.inferred) (hconv : conversion? types = none) : isKnown types.inferred = false := by
  obtain ⟨inferred, required⟩ := types
  cases hrequired
  cases inferred with
  | unset => rfl
  | undefined => rfl
  | string => exact absurd rfl hne
  | int => cases hconv
  | float => cases hconv
  | bool => cases hconv

/-- An operand that is wanted as a string. -/
theorem joins_require {types : Types} (hrequired : types.required = .string) (h : e.Printed c n)
    (hstring : types.inferred = .string → Joins c e)
    (hunknown : isKnown types.inferred = false → e.Printed c operandLevel) :
    Joins c (e.require types) := by
  have hconvert (hprinted : (Expr.convert types e).Printed c operandLevel) : Joins c (.convert types e) :=
    joins_of_printed (hprinted.weaken (by decide)) fun _ => rfl
  unfold Expr.require
  split
  · next heq => exact hstring (heq ▸ hrequired)
  · next hne =>
    refine hconvert ?_
    cases hconv : conversion? types with
    | some fn => exact printed_converted hconv h
    | none => exact printed_unconverted hconv (hunknown (isKnown_of_unconverted hrequired hne hconv))

/-! ## Subscripts -/

theorem printed_int (i : Int) : Prints 0 (Code.Expr.int i).text (intTree i) := by
  cases i with
  | ofNat n => exact (Code.prints_number (Python.numeral_ofNat n)).weaken (by decide)
  | negSucc n =>
    have hnumber := (Code.prints_number (Python.numeral_ofNat (n + 1))).weaken (n := signLevel) (by decide)
    exact hnumber.minus.weaken (by decide)

/-- A subscript that is printed alone. -/
structure IsIndex (c : Context) (e : Expr) : Prop where
  printed : e.Printed c 0
  operand : isOperand e = true → e.Printed c operandLevel

theorem prints_zeroBased (h : IsIndex c e) :
    Prints 0 (zeroBased e (e.lower c)).text (indexTree e.leftNested (e.leftNested.meaning c)) := by
  unfold zeroBased indexTree
  rw [constantIndex?_leftNested]
  cases constantIndex? e with
  | some i => exact printed_int (i - 1)
  | none =>
    dsimp only
    rw [Code.Expr.text]
    refine (Prints.before ?_).weaken (by decide)
    split
    · next hoperand => exact Prints.weaken (h.operand hoperand) (by decide)
    · exact (Prints.paren h.printed).weaken (by decide)

/-- The item of a subscript. -/
def indexItem (c : Context) (e : Expr) : Code.Item :=
  ⟨none, false, (zeroBased e (e.lower c)).text, indexTree e.leftNested (e.leftNested.meaning c)⟩

theorem texts_lowerIndices (c : Context) (es : List Expr) :
    Code.Expr.texts (Expr.lowerIndices c es) = (es.map (indexItem c)).map Code.Item.all := by
  induction es with
  | nil => rfl
  | cons e es ih => rw [Expr.lowerIndices, Code.Expr.texts, ih]; rfl

theorem indices_leftNestedAll (c : Context) (es : List Expr) :
    Expr.indices c (Expr.leftNestedAll es) = (es.map (indexItem c)).map Code.Item.value := by
  induction es with
  | nil => rfl
  | cons e es ih => rw [Expr.leftNestedAll, Expr.indices, ih]; rfl

theorem printed_element (hc : isIdentifier c.handle = true) {path : Bytes} (hpath : Lexicon.name.Matches path)
    {es : List Expr} (hne : es ≠ []) (hes : ∀ e ∈ es, IsIndex c e) : (Expr.element path es).Printed c operandLevel := by
  unfold Expr.Printed
  rw [Expr.lower, Code.Expr.text, Expr.leftNested, Expr.meaning, texts_lowerIndices, indices_leftNestedAll]
  refine (prints_array hc hpath).index (by simpa using hne) (fun x hx => ?_) (fun x hx => ?_)
  · obtain ⟨e, he, rfl⟩ := List.mem_map.mp hx
    exact ⟨prints_zeroBased (hes e he), by simp [indexItem]⟩
  · obtain ⟨e, he, rfl⟩ := List.mem_map.mp hx
    rfl

/-! ## Calls -/

/-- An argument that is printed, under a name. -/
def Arg.Printed (c : Context) : Arg → Prop
  | .mk key e => e.Printed c 0 ∧ ∀ k ∈ key, Lexicon.name.Matches k

/-- The item of an argument. -/
def Arg.item (c : Context) : Arg → Code.Item
  | .mk key e => ⟨key.map Code.identifier, true, (e.lower c).text, e.leftNested.meaning c⟩

theorem Arg.Printed.item {a : Arg} (h : a.Printed c) : (a.item c).Prints := by
  obtain ⟨key, e⟩ := a
  refine ⟨h.1, fun k hk => ?_⟩
  obtain ⟨name, hname, rfl⟩ := Option.mem_map.mp hk
  obtain ⟨hstart, hbytes⟩ := word_of_matches (h.2 name hname)
  exact isWord_identifier hstart hbytes

theorem Arg.all_item (c : Context) (a : Arg) : (a.item c).all = (a.lower c).text := by
  obtain ⟨key, e⟩ := a
  rw [Arg.lower, Code.Arg.text]
  rfl

theorem Arg.arg_item (c : Context) (a : Arg) : (a.item c).arg = a.leftNested.meaning c := by
  obtain ⟨key, e⟩ := a
  cases key <;> rw [Arg.leftNested, Arg.meaning] <;> rfl

/-- The item of an argument of a scanning function. -/
def Arg.scannedItem (c : Context) (a : Arg) : Code.Item :=
  match plainName? a with
  | some path => ⟨none, false, Code.quoted (c.reference path).text, .string (c.reference path).text⟩
  | none => a.item c

theorem Arg.Printed.scannedItem {a : Arg} (h : a.Printed c) : (a.scannedItem c).Prints := by
  unfold Arg.scannedItem
  split
  · exact ⟨(Code.prints_string _).weaken (by decide), nofun⟩
  · exact h.item

theorem texts_lowerAll (c : Context) (as : List Arg) :
    Code.Arg.texts (Arg.lowerAll c as) = (as.map (Arg.item c)).map Code.Item.all := by
  induction as with
  | nil => rfl
  | cons a as ih => rw [Arg.lowerAll, Code.Arg.texts, ih, List.map_cons, List.map_cons, Arg.all_item]

theorem meanings_leftNestedAll (c : Context) (as : List Arg) :
    Arg.meanings c (Arg.leftNestedAll as) = (as.map (Arg.item c)).map Code.Item.arg := by
  induction as with
  | nil => rfl
  | cons a as ih => rw [Arg.leftNestedAll, Arg.meanings, ih, List.map_cons, List.map_cons, Arg.arg_item]

theorem texts_lowerScanned (c : Context) (as : List Arg) :
    Code.Arg.texts (Arg.lowerScanned c as) = (as.map (Arg.scannedItem c)).map Code.Item.all := by
  induction as with
  | nil => rfl
  | cons a as ih =>
    rw [Arg.lowerScanned, Code.Arg.texts, ih, List.map_cons, List.map_cons, Arg.scannedItem]
    cases plainName? a with
    | some path => rfl
    | none => rw [Arg.all_item]

theorem scannedMeanings_leftNestedAll (c : Context) (as : List Arg) :
    Arg.scannedMeanings c (Arg.leftNestedAll as) = (as.map (Arg.scannedItem c)).map Code.Item.arg := by
  induction as with
  | nil => rfl
  | cons a as ih =>
    rw [Arg.leftNestedAll, Arg.scannedMeanings, ih, List.map_cons, List.map_cons, Arg.scannedItem, plainName?_leftNested]
    cases plainName? a with
    | some path => rfl
    | none => rw [Arg.arg_item]

theorem prints_items {fn : List Bytes} (hfn : IsPath fn) {as : List Arg} (has : ∀ a ∈ as, a.Printed c) :
    Prints operandLevel (Code.Expr.call fn (Arg.lowerAll c as)).text
      (.call (.path fn) (Arg.meanings c (Arg.leftNestedAll as))) := by
  rw [meanings_leftNestedAll]
  refine Code.prints_call hfn (texts_lowerAll c as) fun x hx => ?_
  obtain ⟨a, ha, rfl⟩ := List.mem_map.mp hx
  exact (has a ha).item

theorem isPath_castFunction (type : Bytes) : IsPath (castFunction type) := by
  unfold castFunction
  repeat' split
  all_goals decide

theorem printed_cast {type : Bytes} {as : List Arg} (has : ∀ a ∈ as, a.Printed c) :
    (Expr.cast type as).Printed c operandLevel := by
  unfold Expr.Printed
  rw [Expr.lower, Expr.leftNested, Expr.meaning]
  exact prints_items (isPath_castFunction type) has

theorem printed_call {fn : Bytes} (hfn : Lexicon.name.Matches fn) {as : List Arg} (has : ∀ a ∈ as, a.Printed c) :
    (Expr.call fn as).Printed c operandLevel := by
  have hpath := isPath_functionPath hfn
  unfold Expr.Printed
  rw [Expr.lower, Expr.leftNested, Expr.meaning, isEmpty_leftNestedAll]
  have hnone : Code.Arg.texts [] = ([] : List Code.Item).map Code.Item.all := rfl
  split
  · exact Code.prints_call hpath hnone (by simp)
  split
  · have hlocals : Prints operandLevel (Code.Expr.call ["locals"] []).text (.call (.path ["locals"]) []) :=
      Code.prints_call (by decide) hnone (by simp)
    let first : Code.Item := ⟨none, false, (Code.Expr.call ["locals"] []).text, .call (.path ["locals"]) []⟩
    have htexts : Code.Arg.texts (.positional (.call ["locals"] []) :: Arg.lowerScanned c as) =
        (first :: as.map (Arg.scannedItem c)).map Code.Item.all := by
      rw [Code.Arg.texts, texts_lowerScanned]
      rfl
    rw [scannedMeanings_leftNestedAll]
    refine Code.prints_call hpath htexts fun x hx => ?_
    rcases List.mem_cons.mp hx with rfl | hx
    · exact ⟨hlocals.weaken (by decide), by simp⟩
    · obtain ⟨a, ha, rfl⟩ := List.mem_map.mp hx
      exact (has a ha).scannedItem
  · exact prints_items hpath has

end IrafCl.Script
