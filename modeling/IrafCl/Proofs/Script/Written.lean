import IrafCl.Library.Standard
import IrafCl.Proofs.Script.Compiled
import IrafCl.Proofs.Script.Denotation
import IrafCl.Proofs.Script.Unambiguous

/-!
# Values in the head of generated code

The head of generated code holds the defaults and the bounds of all variables as literals. What a literal stands for in
Python is read off its text (`Python.literal?`), and `Value.IsReadBack` says that this is the value it was written for.
The text of a finite number is digits with a point or an exponent, or digits alone, to which `.0` is added
(`Value.exists_decimal`), so it is never read as an integer. An infinity and what is not a number are written as they
are printed. Those texts are names, with or without a sign before them, and no literals (`Value.isReadBack_iff`).

Texts become numbers by conversion, and conversion reads the names of the infinities, so such values reach the code
(`infinite_default`).
-/

namespace IrafCl.Python

/-! ## Literals -/

/-- What a literal stands for. A floating-point number is known by its sign and its digits. -/
inductive Literal where
  | int (n : Int)
  | float (negative : Bool) (digits : Bytes)
  | string (body : Bytes)
  | name (id : Bytes)
  deriving DecidableEq, Repr

/-- A number with a sign; it is an integer just if its digits are one. -/
def signedNumber (negative : Bool) (digits : Bytes) : Literal :=
  match integer? digits with
  | some n => .int (if negative then -n else n)
  | none => .float negative digits

/-- The literal that an expression is: a number, perhaps with a sign, a string or a name. -/
def Tree.literal? : Tree → Option Literal
  | .number digits | .plus (.number digits) => some (signedNumber false digits)
  | .minus (.number digits) => some (signedNumber true digits)
  | .string body => some (.string body)
  | .path [id] => some (.name id)
  | _ => none

/-- The literal that a text is. `None` is a word that Python keeps for itself, so it is no expression of names. -/
def literal? (s : Bytes) : Option Literal := if s = "None" then some (.name "None") else read s >>= Tree.literal?

theorem literal?_of_read {s : Bytes} {e : Tree} (h : read s = some e) : literal? s = e.literal? := by
  have hnone : s ≠ "None" := by
    rintro rfl
    cases h
  rw [literal?, if_neg hnone, h]
  rfl

/-- A number, perhaps after a minus sign. -/
theorem literal?_number {s : Bytes} (h : Numeral s) (negative : Bool) :
    literal? ((if negative then "-" else [] : Bytes) ++ s) = some (signedNumber negative s) := by
  have hnumber := reads_number h.spells
  cases negative with
  | false => exact literal?_of_read hnumber.read_eq
  | true => exact literal?_of_read (hnumber.weaken (by decide)).minus.read_eq

theorem literal?_name {id : Bytes} (h : isIdentifier id = true) : literal? id = some (.name id) := by
  have hids : [id].all isIdentifier = true := by simpa using h
  have hread := (reads_path (List.cons_ne_nil id []) hids).read_eq
  have hdotted : Code.dotted [id] = id := Bytes.join_singleton _ _
  rw [hdotted] at hread
  exact literal?_of_read hread

/-- The decimal digits of a number are read as the number. -/
theorem integer?_ofNat (n : Nat) : integer? (Bytes.ofNat n) = some n := by
  have hvalue (n : Nat) : Reading.inBase 10 (Bytes.ofNat n) = n := by
    have hdigit : ∀ d < 10, Reading.digitValue (Bytes.ascii d.digitChar) = d := by decide
    induction n using Nat.strongRecOn with
    | ind n ih =>
      by_cases hlt : n < 10
      · rw [Bytes.ofNat_of_lt hlt]
        exact Nat.ofDigits_singleton.trans (hdigit n hlt)
      · rw [Bytes.ofNat_of_le (Nat.le_of_not_lt hlt), Reading.inBase_concat, ih (n / 10) (by omega),
          hdigit _ (Nat.mod_lt _ (by decide)), Nat.div_add_mod]
  have hinteger : isInteger (Bytes.ofNat n) = true := by
    obtain ⟨-, hhead⟩ := digits_ofNat n
    by_cases hn : n = 0
    · subst hn
      rfl
    · simp [isInteger, hhead hn, Bytes.ofNat_ne_nil n]
  rw [integer?_decimal hinteger (digits_ofNat n).1, hvalue]

/-- A decimal number with a point or an exponent is no integer. -/
theorem integer?_decimal_eq_none {s : Bytes} (h : Decimal s) (hmark : ∃ b ∈ s, Bytes.isDigit b = false) :
    integer? s = none := by
  unfold integer?
  split
  · exact absurd (h.bytes 120 (by simp)) (by decide)
  · exact absurd (h.bytes 111 (by simp)) (by decide)
  · obtain ⟨b, hb, hdigit⟩ := hmark
    have hall : s.all Bytes.isDigit = false := List.all_eq_false.mpr ⟨b, hb, by simp [hdigit]⟩
    rw [hall, Bool.and_false]
    rfl

end IrafCl.Python

namespace IrafCl

/-! ## Texts of numbers -/

namespace Decimal

/-- A text of a number that is not digits alone. -/
def HasMark (s : Bytes) : Prop := ∃ b ∈ s, b = 46 ∨ b = 101

/-- What the text of a number is: digits, or a decimal number with a point or an exponent. -/
def IsWritten (s : Bytes) : Prop := (s ≠ [] ∧ ∀ b ∈ s, Bytes.isDigit b = true) ∨ Python.Decimal s ∧ HasMark s

theorem significant_digits (d : Decimal) : ∀ b ∈ d.significant, Bytes.isDigit b = true := by
  intro b hb
  rw [significant, Bytes.dropLastWhile, List.mem_reverse] at hb
  exact (Python.digits_ofNat d.digits).1 b (List.mem_reverse.mp ((List.dropWhile_suffix _).subset hb))

theorem exponent_exponentText (e : Int) : Python.Exponent (101 :: exponentText e) := by
  have hdigits := (Python.digits_ofNat e.natAbs).1
  refine .some rfl (.inr ?_) ?_ ?_
  · split
    · exact ⟨45, rfl, rfl⟩
    · exact ⟨43, rfl, rfl⟩
  · split
    · exact List.cons_ne_nil _ _
    · exact Bytes.ofNat_ne_nil _
  · split
    · exact List.forall_mem_cons.mpr ⟨rfl, hdigits⟩
    · exact hdigits

theorem isWritten_scientific {digits : Bytes} (h : ∀ b ∈ digits, Bytes.isDigit b = true) (e : Int) :
    IsWritten (scientific digits e) := by
  cases digits with
  | nil => exact .inl ⟨List.cons_ne_nil _ _, List.forall_mem_singleton.mpr rfl⟩
  | cons d ds =>
    rw [List.forall_mem_cons] at h
    have hfirst : ∀ b ∈ [d], Bytes.isDigit b = true := List.forall_mem_singleton.mpr h.1
    have hexponent := exponent_exponentText e
    cases ds with
    | nil =>
      have hdecimal := Python.Decimal.marked hfirst (List.cons_ne_nil _ _) hexponent (List.cons_ne_nil _ _)
      exact .inr ⟨hdecimal, 101, List.mem_append_right [d] List.mem_cons_self, .inr rfl⟩
    | cons d' ds =>
      have hdecimal := Python.Decimal.pointed hfirst h.2 (List.cons_ne_nil _ _) hexponent
      have htext : scientific (d :: d' :: ds) e = [d] ++ 46 :: ((d' :: ds) ++ 101 :: exponentText e) :=
        List.append_assoc (d :: 46 :: d' :: ds) [101] (exponentText e)
      rw [htext]
      exact .inr ⟨hdecimal, 46, List.mem_append_right [d] List.mem_cons_self, .inl rfl⟩

theorem isWritten_positional {digits : Bytes} (h : ∀ b ∈ digits, Bytes.isDigit b = true) (e : Int) :
    IsWritten (positional digits e) := by
  have hzeros (n : Nat) : ∀ b ∈ List.replicate n (Bytes.ascii '0'), Bytes.isDigit b = true := by
    intro b hb
    rw [List.eq_of_mem_replicate hb]
    rfl
  unfold positional
  split
  · have hfraction : ∀ b ∈ List.replicate (-e - 1).toNat (Bytes.ascii '0') ++ digits, Bytes.isDigit b = true :=
      List.forall_mem_append.mpr ⟨hzeros _, h⟩
    have hdecimal := Python.Decimal.pointed (List.forall_mem_singleton.mpr (rfl : Bytes.isDigit 48 = true)) hfraction
      (List.cons_ne_nil _ _) .none
    rw [List.append_nil] at hdecimal
    have htext : Bytes.ofString "0." ++ List.replicate (-e - 1).toNat (Bytes.ascii '0') ++ digits =
        [48] ++ 46 :: (List.replicate (-e - 1).toNat (Bytes.ascii '0') ++ digits) := List.append_assoc [48, 46] _ _
    rw [htext]
    exact .inr ⟨hdecimal, 46, List.mem_append_right [48] List.mem_cons_self, .inl rfl⟩
  · dsimp only
    have hwhole : ∀ b ∈ digits.take (e.toNat + 1) ++ List.replicate (e.toNat + 1 - digits.length) (Bytes.ascii '0'),
        Bytes.isDigit b = true := List.forall_mem_append.mpr ⟨fun b hb => h b (List.mem_of_mem_take hb), hzeros _⟩
    have hne : digits.take (e.toNat + 1) ++ List.replicate (e.toNat + 1 - digits.length) (Bytes.ascii '0') ≠ [] := by
      refine List.ne_nil_of_length_pos ?_
      rw [List.length_append, List.length_take, List.length_replicate]
      omega
    split
    · rw [List.append_nil]
      exact .inl ⟨hne, hwhole⟩
    · have hfraction : ∀ b ∈ digits.drop (e.toNat + 1), Bytes.isDigit b = true := fun b hb => h b (List.mem_of_mem_drop hb)
      have hdecimal := Python.Decimal.pointed hwhole hfraction (List.append_ne_nil_of_left_ne_nil hne _) .none
      rw [List.append_nil] at hdecimal
      exact .inr ⟨hdecimal, 46, List.mem_append_right _ List.mem_cons_self, .inl rfl⟩

theorem isWritten_text (d : Decimal) : IsWritten d.text := by
  unfold text
  dsimp only
  split
  · exact isWritten_scientific d.significant_digits _
  · exact isWritten_positional d.significant_digits _

end Decimal

namespace Binary64

/-- The text of a finite number is that of a decimal number behind its sign. -/
theorem text_finite {x : Binary64} (h : x.isFinite = true) :
    ∃ s, x.text = (if x.negative then "-" else [] : Bytes) ++ s ∧ Decimal.IsWritten s := by
  have hexponent : x.exponentField ≠ 2047 := of_decide_eq_true h
  have hnan : x.isNaN = false := by simp [isNaN, hexponent]
  have hinfinite : x.isInfinite = false := by simp [isInfinite, hexponent]
  unfold text
  dsimp only
  rw [hnan, hinfinite]
  by_cases hzero : x.isZero = true
  · refine ⟨[48], ?_, .inl ⟨List.cons_ne_nil _ _, List.forall_mem_singleton.mpr rfl⟩⟩
    rw [hzero]
    rfl
  · refine ⟨x.shortest.text, ?_, Decimal.isWritten_text _⟩
    rw [Bool.eq_false_iff.mpr hzero]
    rfl

/-- Any other number is written as a name, perhaps with a sign. -/
theorem text_not_finite {x : Binary64} (h : x.isFinite = false) :
    x.text ∈ (["NaN", "+Inf", "-Inf"] : List Bytes) := by
  have hexponent : x.exponentField = 2047 := by simpa [isFinite] using h
  unfold text
  dsimp only
  split
  · simp
  · next hnan =>
    have hinfinite : x.isInfinite = true := by simpa [isNaN, isInfinite, hexponent] using hnan
    rw [hinfinite]
    cases x.negative <;> simp

end Binary64

/-! ## Literals of values -/

namespace Value

/-- The literal that is the value. A floating-point number is not pinned down but for its sign. -/
def IsDenotedBy : Value → Python.Literal → Prop
  | .int i, .int n => n = i.toInt
  | .float x, .float negative _ => negative = x.negative
  | .string s, .string body => body = s
  | .bool b, .name id => id = if b then Bytes.ofString "yes" else "no"
  | .undefined, .name id => id = "INDEF"
  | .none, .name id | .unknown, .name id => id = "None"
  | _, _ => False

/-- The literal of a value is read as the value. -/
def IsReadBack (v : Value) : Prop := ∃ l, Python.literal? v.literal = some l ∧ v.IsDenotedBy l

/-- A value that is no infinity and no failed computation. -/
def IsFinite : Value → Prop
  | .float x => x.isFinite = true
  | _ => True

/-- The literal of a finite number is a decimal number behind its sign, with a point or an exponent. -/
theorem exists_decimal {x : Binary64} (h : x.isFinite = true) : ∃ s,
    (Value.float x).literal = (if x.negative then "-" else [] : Bytes) ++ s ∧ Python.Decimal s ∧ Decimal.HasMark s := by
  obtain ⟨s, htext, hwritten⟩ := Binary64.text_finite h
  have hsign : (if x.negative then "-" else [] : Bytes).any (([46, 101, 69, 110, 78] : Bytes).contains) = false := by
    cases x.negative <;> rfl
  unfold literal
  dsimp only
  rw [htext, List.any_append, hsign, Bool.false_or]
  rcases hwritten with ⟨hne, hdigits⟩ | ⟨hdecimal, b, hb, hmark⟩
  · have hplain : s.any (([46, 101, 69, 110, 78] : Bytes).contains) = false := by
      rw [List.any_eq_false]
      intro b hb
      have := Bytes.imp_byte Bytes.isDigit (fun b => !([46, 101, 69, 110, 78] : Bytes).contains b) (by decide) (hdigits b hb)
      simpa using this
    refine ⟨s ++ 46 :: ([48] ++ []), ?_, .pointed hdigits (List.forall_mem_singleton.mpr rfl) (by simp) .none, 46, by simp,
      .inl rfl⟩
    rw [hplain, if_neg (by decide), List.append_assoc]
    rfl
  · have hmarked : s.any (([46, 101, 69, 110, 78] : Bytes).contains) = true :=
      List.any_eq_true.mpr ⟨b, hb, by rcases hmark with rfl | rfl <;> decide⟩
    exact ⟨s, by rw [hmarked, if_pos rfl], hdecimal, b, hb, hmark⟩

theorem literal_not_finite {x : Binary64} (h : x.isFinite = false) :
    (Value.float x).literal ∈ (["NaN", "+Inf", "-Inf"] : List Bytes) := by
  have htext := Binary64.text_not_finite h
  have hany : ∀ t ∈ (["NaN", "+Inf", "-Inf"] : List Bytes), t.any (([46, 101, 69, 110, 78] : Bytes).contains) = true := by decide
  unfold literal
  dsimp only
  rw [if_pos (hany _ htext)]
  exact htext

theorem isReadBack_int (i : Int64) : (Value.int i).IsReadBack := by
  cases hi : i.toInt with
  | ofNat n =>
    have hliteral := Python.literal?_number (Python.numeral_ofNat n) false
    rw [Python.signedNumber, Python.integer?_ofNat] at hliteral
    exact ⟨.int n, by rw [literal, hi]; exact hliteral, hi.symm⟩
  | negSucc n =>
    have hliteral := Python.literal?_number (Python.numeral_ofNat (n + 1)) true
    rw [Python.signedNumber, Python.integer?_ofNat] at hliteral
    exact ⟨.int (.negSucc n), by rw [literal, hi]; exact hliteral, hi.symm⟩

theorem isReadBack_float {x : Binary64} (h : x.isFinite = true) : (Value.float x).IsReadBack := by
  obtain ⟨s, hliteral, hdecimal, b, hb, hmark⟩ := exists_decimal h
  have hfloat : Python.integer? s = Option.none :=
    Python.integer?_decimal_eq_none hdecimal ⟨b, hb, by rcases hmark with rfl | rfl <;> rfl⟩
  have hread := Python.literal?_number (.decimal hdecimal) x.negative
  rw [← hliteral, Python.signedNumber, hfloat] at hread
  exact ⟨_, hread, rfl⟩

/-- A name stands for no number, and a name behind a sign is no literal at all. -/
theorem not_isReadBack_float {x : Binary64} (h : x.isFinite = false) : ¬ (Value.float x).IsReadBack := by
  rintro ⟨l, hl, hdenotes⟩
  have hall : (["NaN", "+Inf", "-Inf"] : List Bytes).all
      (fun t => (Python.literal? t).all (· == .name "NaN")) = true := by rfl
  have hname := List.all_eq_true.mp hall _ (literal_not_finite h)
  rw [hl, Option.all_some, beq_iff_eq] at hname
  rw [hname] at hdenotes
  exact hdenotes

/-- A value is read back from its literal just if it is finite. -/
theorem isReadBack_iff (v : Value) : v.IsReadBack ↔ v.IsFinite := by
  have hname {id : Bytes} (hid : Python.isIdentifier id = true) (hv : v.literal = id) (h : v.IsDenotedBy (.name id)) :
      v.IsReadBack := ⟨_, by rw [hv, Python.literal?_name hid], h⟩
  cases v with
  | none | unknown => exact iff_of_true ⟨.name "None", rfl, rfl⟩ trivial
  | undefined => exact iff_of_true (hname (by decide) rfl rfl) trivial
  | bool b =>
    cases b with
    | true => exact iff_of_true (@hname "yes" (by decide) rfl rfl) trivial
    | false => exact iff_of_true (@hname "no" (by decide) rfl rfl) trivial
  | string s =>
    exact iff_of_true ⟨_, Python.literal?_of_read (Python.reads_string s).read_eq, rfl⟩ trivial
  | int i => exact iff_of_true (isReadBack_int i) trivial
  | float x =>
    cases hx : x.isFinite with
    | true => exact iff_of_true (isReadBack_float hx) hx
    | false => exact iff_of_false (not_isReadBack_float hx) (by rw [IsFinite, hx]; decide)

end Value

/-! ## The head of the code -/

/-- The values that are written for a variable: its default, or those of all its elements, and its bounds. -/
def Variable.written (v : Variable) : List Value :=
  (if v.isArray then v.values else [v.default]) ++ [v.options.min, v.options.max].filter (· ≠ .none)

namespace Script

variable {st : Settings} {source : Bytes} {u : CompiledUnit} {t : Tree} {scope : Scope} {body : List Stmt}
  {stmts : List Code.Stmt} {p : Progress}

/-- The code begins with the function and the entries of all variables. -/
theorem Compiled.code_preamble [Library] (h : Compiled st source u t scope body stmts p) :
    ∃ rest, u.code = Code.unlines (imports ++ [[], functionLine scope, [], listLine scope st.filename] ++
      scope.params.vars.map (fun v => paramLine (Code.identifier v.name) v) ++
      scope.locals.vars.map (fun v => paramLine v.defaultLiteral v) ++ rest) := by
  obtain ⟨rest, hpreamble⟩ : ∃ rest, preamble scope st.filename p.usesPackage =
      imports ++ [[], functionLine scope, [], listLine scope st.filename] ++
        scope.params.vars.map (fun v => paramLine (Code.identifier v.name) v) ++
        scope.locals.vars.map (fun v => paramLine v.defaultLiteral v) ++ rest := ⟨_, by rw [preamble, List.append_assoc _ _ [[]]]⟩
  refine ⟨rest ++ (Code.Stmt.allLines Code.bodyLevel stmts ++ u.warnings.map warningLine), ?_⟩
  rw [h.code, hpreamble]
  simp only [List.append_assoc]

/-- A text is refused, or compiled to code that begins with the imports, the function and one entry for each variable. The
formal parameters have their defaults; an array has a list of its elements, and any other variable its default alone.
Every value that is written for a variable is read back from its literal just if it is finite: an integer as the same
integer, a floating-point number as one with a point or an exponent, a string as its bytes, and anything else as its
name. A value that is not finite is a name, perhaps with a sign. -/
theorem compile_literals [Library] (filename mode source : Bytes) :
    (∃ halt, (compile { filename, mode } source).outcome = .error halt) ∨
    ∃ u t scope body stmts p rest, (compile { filename, mode } source).outcome = .ok u ∧
      Compiled { filename, mode } source u t scope body stmts p ∧
      u.code = Code.unlines (imports ++ [[], functionLine scope, [], listLine scope filename] ++
        scope.params.vars.map (fun v => paramLine (Code.identifier v.name) v) ++
        scope.locals.vars.map (fun v => paramLine v.defaultLiteral v) ++ rest) ∧
      formals scope = scope.params.vars.map (fun v => (Code.identifier v.name, v.defaultLiteral)) ++
        [(taskParam, Bytes.ofString "None")] ∧
      ∀ v ∈ scope.params.vars ++ scope.locals.vars,
        (v.isArray = true → v.defaultLiteral = "[" ++ Bytes.join ", " (v.values.map Value.literal) ++ "]") ∧
        (v.isArray = false → v.defaultLiteral = v.default.literal) ∧
        (∀ text, (Bytes.ofString "min", text) ∈ attributes v ↔ v.options.min ≠ .none ∧ text = v.options.min.literal) ∧
        (∀ text, (Bytes.ofString "max", text) ∈ attributes v ↔ v.options.max ≠ .none ∧ text = v.options.max.literal) ∧
        ∀ w ∈ v.written, (w.IsReadBack ↔ w.IsFinite) ∧
          (¬ w.IsFinite → w.literal ∈ (["NaN", "+Inf", "-Inf"] : List Bytes)) := by
  cases hu : (compile { filename, mode } source).outcome with
  | error halt => exact .inl ⟨halt, rfl⟩
  | ok u =>
    obtain ⟨t, scope, body, stmts, p, h⟩ := exists_compiled hu
    obtain ⟨rest, hcode⟩ := h.code_preamble
    refine .inr ⟨u, t, scope, body, stmts, p, rest, rfl, h, hcode, rfl, fun v _ => ⟨fun harray => ?_, fun harray => ?_, ?_, ?_,
      fun w _ => ⟨w.isReadBack_iff, ?_⟩⟩⟩
    · rw [Variable.defaultLiteral, if_pos harray]
    · rw [Variable.defaultLiteral, harray]
      rfl
    · intro text
      simp +decide [attributes]
    · intro text
      simp +decide [attributes]
    · intro hfinite
      cases w with
      | float x => exact Value.literal_not_finite (Bool.eq_false_iff.mpr hfinite)
      | _ => exact absurd trivial hfinite

/-! ## An infinite default -/

/-- A declaration of a number by the name of an infinity. -/
def infiniteDefault : Bytes := "real x = \"inf\"\n"

def infiniteDefaultTree : Tree :=
  .branch .program .unset [
    .branch .localDecls .unset [.branch .localDecls .unset [],
      .branch .declStmt .unset [.leaf ⟨.typeName, "real", some "real", 1⟩,
        .branch .declList .unset [.branch .declSpec .unset [
          .branch .declVar .unset [.branch .varName .unset [.leaf ⟨.ident, "x", none, 1⟩], .leaf ⟨.equals, "=", none, 1⟩,
            .branch .initList .unset [.branch .initValue .unset [.branch .constant .unset [
              .leaf ⟨.string, "\"inf\"", some "inf", 1⟩]]]]]],
        .branch .term .unset [.leaf ⟨.newline, "\n", none, 1⟩]]],
    .branch .stmtList .unset []]

theorem tree_infiniteDefault : tree infiniteDefault = .ok infiniteDefaultTree :=
  tree_eq_ok (by decide +kernel) (grown_of_grows rfl) rfl (by decide) (by decide)

/-- It is compiled to code that enters the variable with a signed name for its default, which is no literal. -/
theorem infinite_default : ∃ u scope rest, (compile {} infiniteDefault).outcome = .ok u ∧
    u.code = Code.unlines (imports ++ [[], functionLine scope, [], listLine scope []] ++
      scope.params.vars.map (fun v => paramLine (Code.identifier v.name) v) ++
      [Bytes.ofString "\tVars.addParam(makeIrafPar(+Inf, datatype='real', name='x', mode='u'))"] ++ rest) ∧
    scope.locals.vars.map (·.default.literal) = ["+Inf"] ∧ Python.literal? "+Inf" = none := by
  obtain ⟨scope, hscope, hlines, hliterals⟩ : ∃ scope, (declarations {} infiniteDefaultTree).2 = .ok scope ∧
      scope.locals.vars.map (fun v => paramLine v.defaultLiteral v) =
        [Bytes.ofString "\tVars.addParam(makeIrafPar(+Inf, datatype='real', name='x', mode='u'))"] ∧
      scope.locals.vars.map (·.default.literal) = ["+Inf"] := ⟨_, rfl, by decide, by decide⟩
  obtain ⟨u, hu, h⟩ := compiles tree_infiniteDefault hscope rfl rfl rfl
  obtain ⟨rest, hcode⟩ := h.code_preamble
  rw [hlines] at hcode
  exact ⟨u, scope, rest, hu, hcode, hliterals, rfl⟩

end Script

end IrafCl
