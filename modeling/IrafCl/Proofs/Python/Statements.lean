import IrafCl.Code.Stmt
import IrafCl.Proofs.Python.Reader
import IrafCl.Proofs.Text.Bytes
import Mathlib.Data.List.TakeWhile

/-!
# Python statements

How Python lays out statements. A simple statement is one line, or a call whose arguments stand in rows of their own,
one level deeper. A block stands one level deeper than its head and is never empty: a `pass` stands alone in it, or
other statements do. What follows an `if` is printed right after its block, at its level. Whether the parts of a
statement are expressions, targets and calls is left to the reader of expressions, so a printed line of a
well-formed statement is a single line of text (`oneLine_printAll`). A jump is well-formed wherever it stands: the depth of
loops is not kept.
-/

namespace IrafCl.Python

open Code (BinaryOp indented callHead)

/-! ## Parts -/

/-- Whether a text is an expression. -/
def isExpr (s : Bytes) : Bool := (read s).isSome

/-- Whether an expression can be assigned to. -/
def Tree.isAssignable : Tree → Bool
  | .path _ | .field _ _ | .index _ _ => true
  | _ => false

/-- Whether a text is an expression that can be assigned to. -/
def isTarget (s : Bytes) : Bool := (read s).any Tree.isAssignable

/-- Whether a text of that many arguments makes a call of a function. -/
def isCall (fn args : List Bytes) : Bool :=
  match read (Code.dotted fn ++ "(" ++ Bytes.join ", " args ++ ")") with
  | some (.call (.path ids) values) => ids = fn && values.length = args.length
  | _ => false

/-- The operators of assignments that update their target. -/
def isUpdate : BinaryOp → Bool
  | .add | .sub | .mul | .div | .floorDiv | .mod | .pow => true
  | _ => false

/-- What a block depends on: an expression, or whether a name is one of some values. -/
inductive Test where
  | expr (text : Bytes)
  | oneOf (name : Bytes) (values : List Bytes)
  deriving DecidableEq, Repr

namespace Test

def text : Test → Bytes
  | .expr text => text
  | .oneOf name values => name ++ " in (" ++ Bytes.join ", " values ++ ",)"

def isOk : Test → Bool
  | .expr text => isExpr text
  | .oneOf name values => isIdentifier name && !values.isEmpty && values.all isExpr

end Test

/-! ## Simple statements -/

/-- A simple statement. A call may bind its result to names, and has its arguments in rows. -/
inductive Simple where
  | pass
  | leave
  | next
  | done
  | delete (name : Bytes)
  | assign (target value : Bytes)
  | update (target : Bytes) (op : BinaryOp) (value : Bytes)
  | call (names fn : List Bytes) (rows : List (List Bytes))
  deriving DecidableEq, Repr

/-- The rows of the arguments of a call: each of them ends with a comma, and the last closes the call. -/
def rowLines : List (List Bytes) → List Bytes
  | [] => [Bytes.ofString ")"]
  | [row] => [Bytes.join ", " row ++ ")"]
  | row :: next :: rows => (Bytes.join ", " row ++ ",") :: rowLines (next :: rows)

/-- A text before the first of some lines. -/
def headed (head : Bytes) : List Bytes → List Bytes
  | [] => []
  | first :: rest => (head ++ first) :: rest

namespace Simple

/-- The lines without their indentation. -/
def lines : Simple → List Bytes
  | .pass => [Bytes.ofString "pass"]
  | .leave => [Bytes.ofString "break"]
  | .next => [Bytes.ofString "continue"]
  | .done => [Bytes.ofString "return"]
  | .delete name => ["del " ++ name]
  | .assign target value => [target ++ " = " ++ value]
  | .update target op value => [target ++ " " ++ op.text ++ "= " ++ value]
  | .call names fn rows => headed (callHead names fn) (rowLines rows)

/-- The lines at a level: all but the first stand one level deeper. -/
def print (level : Nat) (s : Simple) : List Bytes :=
  match s.lines with
  | [] => []
  | first :: rest => indented level first :: rest.map (indented (level + 1))

/-- Whether a statement may stand among others; `pass` may not. -/
def isOk : Simple → Bool
  | .pass => false
  | .leave | .next | .done => true
  | .delete name => isIdentifier name
  | .assign target value => isTarget target && isExpr value
  | .update target op value => isTarget target && isUpdate op && isExpr value
  | .call names fn rows =>
    names.all isIdentifier && isCall fn rows.flatten && rows.flatten.all (fun arg => isCall fn [arg]) &&
      rows.all (!·.isEmpty)

end Simple

/-! ## Statements -/

mutual

/-- A statement. -/
inductive Stmt where
  | simple (s : Simple)
  | loop (test : Test) (body : List Stmt)
  | choose (test : Test) (body : List Stmt) (rest : Chain)

/-- What follows the first block of an `if`. -/
inductive Chain where
  | none
  | elseIf (test : Test) (body : List Stmt) (rest : Chain)
  | otherwise (body : List Stmt)

end

mutual

/-- The lines of a statement at a level. -/
def Stmt.print (level : Nat) : Stmt → List Bytes
  | .simple s => s.print level
  | .loop test body => indented level ("while " ++ test.text ++ ":") :: Stmt.printAll (level + 1) body
  | .choose test body rest =>
    indented level ("if " ++ test.text ++ ":") :: (Stmt.printAll (level + 1) body ++ rest.print level)

/-- The lines of statements one after the other. -/
def Stmt.printAll (level : Nat) : List Stmt → List Bytes
  | [] => []
  | s :: ss => s.print level ++ Stmt.printAll level ss

def Chain.print (level : Nat) : Chain → List Bytes
  | .none => []
  | .elseIf test body rest =>
    indented level ("elif " ++ test.text ++ ":") :: (Stmt.printAll (level + 1) body ++ rest.print level)
  | .otherwise body => indented level "else:" :: Stmt.printAll (level + 1) body

end

/-- Whether statements are a block, given whether each of them may stand among others. -/
def isBlock (body : List Stmt) (ok : Bool) : Bool :=
  match body with
  | [] => false
  | [.simple .pass] => true
  | _ => ok

mutual

/-- Whether a statement may stand among others. -/
def Stmt.isOk : Stmt → Bool
  | .simple s => s.isOk
  | .loop test body => test.isOk && isBlock body (Stmt.areOk body)
  | .choose test body rest => test.isOk && isBlock body (Stmt.areOk body) && rest.isOk

def Stmt.areOk : List Stmt → Bool
  | [] => true
  | s :: ss => s.isOk && Stmt.areOk ss

def Chain.isOk : Chain → Bool
  | .none => true
  | .elseIf test body rest => test.isOk && isBlock body (Stmt.areOk body) && rest.isOk
  | .otherwise body => isBlock body (Stmt.areOk body)

end

/-! ## Lines -/

theorem Simple.lines_ne_nil (s : Simple) : s.lines ≠ [] := by
  cases s with
  | call names fn rows => rcases rows with _ | ⟨row, _ | ⟨next, rows⟩⟩ <;> exact nofun
  | _ => exact nofun

/-- Every statement has a line. -/
theorem Stmt.print_ne_nil (level : Nat) (s : Stmt) : s.print level ≠ [] := by
  cases s with
  | simple s =>
    rw [Stmt.print, Simple.print]
    split
    · next hnil => exact absurd hnil s.lines_ne_nil
    · exact List.cons_ne_nil _ _
  | loop test body => exact List.cons_ne_nil _ _
  | choose test body rest => exact List.cons_ne_nil _ _

/-! ## Single lines -/

/-- A text without a line break. -/
def OneLine (s : Bytes) : Prop := ∀ b ∈ s, b ≠ 10 ∧ b ≠ 13

instance (s : Bytes) : Decidable (OneLine s) := List.decidableBAll _ s

theorem oneLine_append {s t : Bytes} : OneLine (s ++ t) ↔ OneLine s ∧ OneLine t := List.forall_mem_append

theorem oneLine_cons {b : UInt8} {s : Bytes} : OneLine (b :: s) ↔ (b ≠ 10 ∧ b ≠ 13) ∧ OneLine s := List.forall_mem_cons

theorem OneLine.of_bytes (good : UInt8 → Bool) {s : Bytes} (hgood : good 10 = false ∧ good 13 = false)
    (h : ∀ b ∈ s, good b = true) : OneLine s := by
  intro b hb
  have hb := h b hb
  constructor <;> rintro rfl
  · rw [hgood.1] at hb
    cases hb
  · rw [hgood.2] at hb
    cases hb

/-- The bytes of a number stand at the front of the text. -/
theorem take_numberRun (decimal marked : Bool) (s : Bytes) :
    s.take (numberRun decimal marked s).length = numberRun decimal marked s := by
  induction s generalizing marked with
  | nil => rfl
  | cons b s ih =>
    unfold numberRun
    split
    · rw [List.length_cons, List.take_succ_cons, ih]
    · split
      · rw [List.length_cons, List.take_succ_cons, ih]
      · rfl

theorem oneLine_numberRun (decimal marked : Bool) (s : Bytes) : OneLine (numberRun decimal marked s) := by
  refine .of_bytes (fun b => isWordByte b || isSign b) (by decide) ?_
  induction s generalizing marked with
  | nil => exact nofun
  | cons b s ih =>
    unfold numberRun
    split
    · next hb => exact List.forall_mem_cons.mpr ⟨by simp [hb], ih _⟩
    · split
      · next hb => exact List.forall_mem_cons.mpr ⟨by simp [(Bool.and_eq_true_iff.mp hb).2], ih _⟩
      · exact nofun

/-- The body of a string goes over no line break. -/
theorem oneLine_stringBody {quote : UInt8} (hquote : isQuote quote = true) {s body : Bytes} {n : Nat}
    (h : stringBody? quote s = some (body, n)) : OneLine (s.take n) := by
  have hline {b : UInt8} (good : UInt8 → Bool) (hgood : good 10 = false ∧ good 13 = false) (hb : good b = true) :
      OneLine [b] := .of_bytes good hgood (by simpa using hb)
  have hcons {b : UInt8} {s : Bytes} (hb : OneLine [b]) (hs : OneLine s) : OneLine (b :: s) :=
    oneLine_append.mpr ⟨hb, hs⟩
  have hclose : OneLine [quote] := hline isQuote (by decide) hquote
  fun_induction stringBody? quote s generalizing body n with
  | case1 => cases h
  | case2 => cases h; exact hclose
  | case3 => cases h
  | case4 => cases h; simpa using hclose
  | case5 => cases h
  | case6 b c rest hb hbreak hbackslash ih =>
    obtain ⟨⟨body, n⟩, hbody, heq⟩ := Option.map_eq_some_iff.mp h
    cases heq
    rw [List.take_succ_cons]
    refine hcons ?_ (ih hbody)
    simpa [OneLine] using hbreak
  | case7 b c rest hb hbreak hbackslash hx ih =>
    obtain ⟨v, hv, h⟩ := Option.bind_eq_some_iff.mp h
    obtain ⟨⟨body, n⟩, hbody, heq⟩ := Option.bind_eq_some_iff.mp h
    cases heq
    rw [List.take_succ_cons, List.take_succ_cons]
    refine hcons (by simpa [OneLine] using hbreak) (hcons ?_ (ih hbody))
    exact hline (fun b => (unescape? b).isSome) (by decide) (by rw [hv]; rfl)
  | case8 b c hb hbreak hbackslash hx high low rest ih =>
    obtain ⟨v, hv, h⟩ := Option.bind_eq_some_iff.mp h
    obtain ⟨w, hw, h⟩ := Option.bind_eq_some_iff.mp h
    obtain ⟨⟨body, n⟩, hbody, heq⟩ := Option.bind_eq_some_iff.mp h
    cases heq
    iterate 4 rw [List.take_succ_cons]
    have hhex {x : UInt8} {v : Nat} (h : Bytes.hexValue? x = some v) : OneLine [x] :=
      hline isHexDigit (by decide) (by rw [isHexDigit, h]; rfl)
    have hc : c = Bytes.ascii 'x' := by simpa using hx
    refine hcons (by simpa [OneLine] using hbreak) (hcons ?_ (hcons (hhex hv) (hcons (hhex hw) (ih hbody))))
    rw [hc]
    decide
  | case9 => cases h

theorem oneLine_symbols : ∀ x ∈ symbols, x.1 ≠ [] ∧ OneLine x.1 := by decide

/-- A token that is a text at the front. -/
theorem oneLine_front {b : UInt8} {rest s : Bytes} (hne : s ≠ []) (hfront : (b :: rest).take s.length = s) (hs : OneLine s) :
    OneLine (b :: rest.take (s.length - 1)) := by
  obtain ⟨n, hn⟩ := Nat.exists_eq_add_one_of_ne_zero (List.length_pos_iff.mpr hne).ne'
  rw [hn, List.take_succ_cons] at hfront
  rw [hn, Nat.add_sub_cancel, hfront]
  exact hs

/-- A token goes over no line break. -/
theorem oneLine_token {b : UInt8} {rest : Bytes} {t : Option Tok} {n : Nat} (h : token? b rest = some (t, n)) :
    OneLine (b :: rest.take n) := by
  unfold token? at h
  split at h
  · next hb =>
    cases h
    rw [hb, List.take_zero]
    decide
  split at h
  · next hb =>
    dsimp only at h
    split at h
    · cases h
    · cases h
      rw [← List.prefix_iff_eq_take.mp (List.takeWhile_prefix isWordByte)]
      refine oneLine_append (s := [b]) |>.mpr ⟨.of_bytes isWordStart (by decide) (by simpa using hb), ?_⟩
      exact .of_bytes isWordByte (by decide) fun x hx => List.mem_takeWhile_imp hx
  split at h
  · dsimp only at h
    split at h
    · next hnumber =>
      cases h
      refine oneLine_front ?_ (take_numberRun _ _ _) (oneLine_numberRun _ _ _)
      intro hnil
      rw [hnil] at hnumber
      cases hnumber
    · cases h
  split at h
  · next hquote =>
    split at h
    · cases h
    · obtain ⟨⟨body, k⟩, hbody, heq⟩ := Option.map_eq_some_iff.mp h
      cases heq
      refine oneLine_append (s := [b]) |>.mpr ⟨.of_bytes isQuote (by decide) (by simpa using hquote), ?_⟩
      exact oneLine_stringBody hquote hbody
  · obtain ⟨⟨symbol, k⟩, hfind, heq⟩ := Option.map_eq_some_iff.mp h
    cases heq
    have hsymbol := oneLine_symbols _ (List.mem_of_find?_eq_some hfind)
    have hfront : symbol.isPrefixOf (b :: rest) = true := by simpa using List.find?_some hfind
    have htake := List.prefix_iff_eq_take.mp (List.isPrefixOf_iff_prefix.mp hfront)
    exact oneLine_front hsymbol.1 htake.symm hsymbol.2

theorem oneLine_lexAfter {skip : Nat} {s : Bytes} {ts : List Tok} (h : lexAfter skip s = some ts) : OneLine (s.drop skip) := by
  induction s generalizing skip ts with
  | nil => simp [OneLine]
  | cons b rest ih =>
    cases skip with
    | succ skip => exact ih h
    | zero =>
      rw [lexAfter] at h
      split at h
      · next t n htoken =>
        obtain ⟨us, hus, -⟩ := Option.map_eq_some_iff.mp h
        have hrest : OneLine (rest.take n ++ rest.drop n) :=
          oneLine_append.mpr ⟨(oneLine_cons.mp (oneLine_token htoken)).2, ih hus⟩
        rw [List.take_append_drop] at hrest
        exact oneLine_cons.mpr ⟨(oneLine_cons.mp (oneLine_token htoken)).1, hrest⟩
      · cases h

/-- What is read stands on a single line. -/
theorem oneLine_read {s : Bytes} {e : Tree} (h : read s = some e) : OneLine s := by
  obtain ⟨ts, hts, -⟩ := Option.bind_eq_some_iff.mp h
  exact oneLine_lexAfter hts

theorem oneLine_isExpr {s : Bytes} (h : isExpr s = true) : OneLine s := by
  obtain ⟨e, he⟩ := Option.isSome_iff_exists.mp h
  exact oneLine_read he

theorem isExpr_of_isTarget {s : Bytes} (h : isTarget s = true) : isExpr s = true := Option.isSome_of_any h

theorem oneLine_isCall {fn args : List Bytes} (h : isCall fn args = true) :
    OneLine (Code.dotted fn) ∧ OneLine (Bytes.join ", " args) := by
  unfold isCall at h
  split at h
  · next heq =>
    have hline := oneLine_read heq
    rw [oneLine_append, oneLine_append, oneLine_append] at hline
    exact ⟨hline.1.1.1, hline.1.2⟩
  · cases h

theorem oneLine_isIdentifier {id : Bytes} (h : isIdentifier id = true) : OneLine id := by
  simp only [isIdentifier, Bool.and_eq_true, List.all_eq_true] at h
  exact .of_bytes _ (by decide) h.2

theorem oneLine_join : ∀ {ss : List Bytes}, OneLine (Bytes.join ", " ss) ↔ ∀ s ∈ ss, OneLine s
  | [] => by simp [Bytes.join, OneLine]
  | [s] => by simp [Bytes.join_singleton]
  | s :: t :: ss => by
    rw [Bytes.join_cons_cons, oneLine_append, oneLine_append, oneLine_join, List.forall_mem_cons]
    simp [show OneLine (Bytes.ofString ", ") by decide]

/-! ## Printed lines -/

theorem oneLine_indented {level : Nat} {s : Bytes} (h : OneLine s) : OneLine (indented level s) := by
  refine oneLine_append.mpr ⟨fun b hb => ?_, h⟩
  rw [(List.mem_replicate.mp hb).2]
  decide

theorem Test.oneLine_text {t : Test} (h : t.isOk = true) : OneLine t.text := by
  cases t with
  | expr text => exact oneLine_isExpr h
  | oneOf name values =>
    simp only [isOk, Bool.and_eq_true, List.all_eq_true] at h
    rw [text, oneLine_append, oneLine_append, oneLine_append]
    exact ⟨⟨⟨oneLine_isIdentifier h.1.1, by decide⟩, oneLine_join.mpr fun v hv => oneLine_isExpr (h.2 v hv)⟩, by decide⟩

theorem oneLine_rowLines : ∀ {rows : List (List Bytes)}, (∀ arg ∈ rows.flatten, OneLine arg) → ∀ line ∈ rowLines rows, OneLine line
  | [], _ => by decide
  | [row], h => by
    have hrow : OneLine (Bytes.join ", " row ++ ")") :=
      oneLine_append.mpr ⟨oneLine_join.mpr fun arg harg => h arg (by simpa using harg), by decide⟩
    simpa [rowLines] using hrow
  | row :: next :: rows, h => by
    rw [rowLines, List.forall_mem_cons]
    refine ⟨oneLine_append.mpr ⟨oneLine_join.mpr fun arg harg => h arg ?_, by decide⟩, oneLine_rowLines fun arg harg => h arg ?_⟩
    · rw [List.flatten_cons]
      exact List.mem_append_left _ harg
    · rw [List.flatten_cons]
      exact List.mem_append_right _ harg

theorem oneLine_headed {head : Bytes} {lines : List Bytes} (hhead : OneLine head) (hlines : ∀ line ∈ lines, OneLine line) :
    ∀ line ∈ headed head lines, OneLine line := by
  cases lines with
  | nil => exact nofun
  | cons first rest =>
    rw [List.forall_mem_cons] at hlines
    exact List.forall_mem_cons.mpr ⟨oneLine_append.mpr ⟨hhead, hlines.1⟩, hlines.2⟩

theorem Simple.oneLine_lines {s : Simple} (h : s.isOk = true) : ∀ line ∈ s.lines, OneLine line := by
  cases s with
  | pass => cases h
  | leave => decide
  | next => decide
  | done => decide
  | delete name =>
    have hname : OneLine ("del " ++ name) := oneLine_append.mpr ⟨by decide, oneLine_isIdentifier h⟩
    simpa [lines] using hname
  | assign target value =>
    rw [isOk, Bool.and_eq_true] at h
    have hline : OneLine (target ++ " = " ++ value) := by
      rw [oneLine_append, oneLine_append]
      exact ⟨⟨oneLine_isExpr (isExpr_of_isTarget h.1), by decide⟩, oneLine_isExpr h.2⟩
    simpa [lines] using hline
  | update target op value =>
    rw [isOk, Bool.and_eq_true, Bool.and_eq_true] at h
    have hline : OneLine (target ++ " " ++ op.text ++ "= " ++ value) := by
      rw [oneLine_append, oneLine_append, oneLine_append, oneLine_append]
      exact ⟨⟨⟨⟨oneLine_isExpr (isExpr_of_isTarget h.1.1), by decide⟩, by cases op <;> decide⟩, by decide⟩, oneLine_isExpr h.2⟩
    simpa [lines] using hline
  | call names fn rows =>
    simp only [isOk, Bool.and_eq_true, List.all_eq_true] at h
    obtain ⟨⟨⟨hnames, hcall⟩, -⟩, -⟩ := h
    obtain ⟨hfn, hargs⟩ := oneLine_isCall hcall
    refine oneLine_headed ?_ (oneLine_rowLines (oneLine_join.mp hargs))
    rw [callHead, oneLine_append, oneLine_append]
    refine ⟨⟨?_, hfn⟩, by decide⟩
    split
    · exact nofun
    · exact oneLine_append.mpr ⟨oneLine_join.mpr fun name hname => oneLine_isIdentifier (hnames name hname), by decide⟩

theorem Simple.oneLine_print {s : Simple} (h : s.isOk = true) (level : Nat) : ∀ line ∈ s.print level, OneLine line := by
  have hlines := s.oneLine_lines h
  unfold print
  cases hs : s.lines with
  | nil => exact nofun
  | cons first rest =>
    rw [hs, List.forall_mem_cons] at hlines
    refine List.forall_mem_cons.mpr ⟨oneLine_indented hlines.1, fun line hline => ?_⟩
    obtain ⟨s, hs, rfl⟩ := List.mem_map.mp hline
    exact oneLine_indented (hlines.2 s hs)

/-- A block that holds no lone `pass` is one of statements that may stand among others. -/
theorem cases_isBlock {body : List Stmt} {ok : Bool} (h : isBlock body ok = true) : body = [.simple .pass] ∨ body ≠ [] ∧ ok = true := by
  unfold isBlock at h
  split at h
  · cases h
  · exact .inl rfl
  · next hne _ => exact .inr ⟨fun hnil => hne hnil, h⟩

theorem oneLine_head {before test : Bytes} (level : Nat) (hbefore : OneLine before) (htest : OneLine test) :
    OneLine (indented level (before ++ test ++ ":")) := by
  refine oneLine_indented ?_
  rw [oneLine_append, oneLine_append]
  exact ⟨⟨hbefore, htest⟩, by decide⟩

theorem oneLine_block {level : Nat} {body : List Stmt} (h : isBlock body (Stmt.areOk body) = true)
    (hok : Stmt.areOk body = true → ∀ line ∈ Stmt.printAll level body, OneLine line) :
    ∀ line ∈ Stmt.printAll level body, OneLine line := by
  rcases cases_isBlock h with rfl | ⟨-, h⟩
  · intro line hline
    obtain rfl : line = indented level "pass" := by simpa [Stmt.printAll, Stmt.print, Simple.print, Simple.lines] using hline
    exact oneLine_indented (by decide)
  · exact hok h

mutual

theorem Stmt.oneLine_print (level : Nat) : ∀ (s : Stmt), s.isOk = true → ∀ line ∈ s.print level, OneLine line
  | .simple s, h => s.oneLine_print h level
  | .loop test body, h => by
    rw [Stmt.isOk, Bool.and_eq_true] at h
    rw [Stmt.print, List.forall_mem_cons]
    exact ⟨oneLine_head level (by decide) (test.oneLine_text h.1), oneLine_block h.2 (Stmt.oneLine_printAll (level + 1) body)⟩
  | .choose test body rest, h => by
    rw [Stmt.isOk, Bool.and_eq_true, Bool.and_eq_true] at h
    rw [Stmt.print, List.forall_mem_cons, List.forall_mem_append]
    exact ⟨oneLine_head level (by decide) (test.oneLine_text h.1.1),
      oneLine_block h.1.2 (Stmt.oneLine_printAll (level + 1) body), Chain.oneLine_print level rest h.2⟩

/-- Every printed line of well-formed statements is a single line. -/
theorem Stmt.oneLine_printAll (level : Nat) : ∀ (ss : List Stmt), Stmt.areOk ss = true → ∀ line ∈ Stmt.printAll level ss, OneLine line
  | [], _ => nofun
  | s :: ss, h => by
    rw [Stmt.areOk, Bool.and_eq_true] at h
    rw [Stmt.printAll, List.forall_mem_append]
    exact ⟨Stmt.oneLine_print level s h.1, Stmt.oneLine_printAll level ss h.2⟩

theorem Chain.oneLine_print (level : Nat) : ∀ (c : Chain), c.isOk = true → ∀ line ∈ c.print level, OneLine line
  | .none, _ => nofun
  | .elseIf test body rest, h => by
    rw [Chain.isOk, Bool.and_eq_true, Bool.and_eq_true] at h
    rw [Chain.print, List.forall_mem_cons, List.forall_mem_append]
    exact ⟨oneLine_head level (by decide) (test.oneLine_text h.1.1),
      oneLine_block h.1.2 (Stmt.oneLine_printAll (level + 1) body), Chain.oneLine_print level rest h.2⟩
  | .otherwise body, h => by
    rw [Chain.isOk] at h
    rw [Chain.print, List.forall_mem_cons]
    exact ⟨oneLine_indented (by decide), oneLine_block h (Stmt.oneLine_printAll (level + 1) body)⟩

end

end IrafCl.Python
