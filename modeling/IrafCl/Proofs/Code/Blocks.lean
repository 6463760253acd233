import IrafCl.Proofs.Code.Layout
import IrafCl.Proofs.Code.Printing

/-!
# Lines as Python statements

The lines of a call are its arguments in rows (`exists_rows`): no line ends inside an argument. So the lines of
statements whose parts are read by Python are the print of Python statements (`Stmt.exists_print`), where a block
that holds nothing is a lone `pass`.
-/

namespace IrafCl.Code

open Python (isExpr isTarget isCall isIdentifier isUpdate rowLines headed)

/-! ## Rows -/

/-- The lines of a call are its arguments in rows. -/
theorem exists_rows (level : Nat) (head : Bytes) (args : List Bytes) :
    ∃ rows : List (List Bytes), rows.flatten = args ∧ (∀ row ∈ rows, row ≠ []) ∧
      callLines level head args = headed head (rowLines rows) := by
  obtain ⟨rows, hargs, hrows, hlines, -⟩ := exists_filled_rows level head args
  exact ⟨rows, hargs, hrows, hlines⟩

/-! ## Statements -/

/-- An expression is written as a test. -/
def Expr.IsTest (e : Expr) : Prop := ∃ t : Python.Test, t.isOk = true ∧ t.text = e.text

mutual

/-- The parts of a statement are written as Python has them. -/
def Stmt.IsOk : Stmt → Prop
  | .assign target value => isTarget target.text = true ∧ isExpr value.text = true
  | .update target op value => isTarget target.text = true ∧ isUpdate op = true ∧ isExpr value.text = true
  | .call names fn args => (∀ name ∈ names, isIdentifier name = true) ∧ isCall fn (Arg.texts args) = true ∧
      ∀ arg ∈ Arg.texts args, isCall fn [arg] = true
  | .delete name => isIdentifier name = true
  | .leave | .next | .done => True
  | .loop test body => test.IsTest ∧ Stmt.AreOk body
  | .choose test body rest => test.IsTest ∧ Stmt.AreOk body ∧ rest.IsOk

def Stmt.AreOk : List Stmt → Prop
  | [] => True
  | s :: ss => s.IsOk ∧ Stmt.AreOk ss

def Chain.IsOk : Chain → Prop
  | .none => True
  | .elseIf test body rest => test.IsTest ∧ Stmt.AreOk body ∧ rest.IsOk
  | .otherwise body => Stmt.AreOk body

end

theorem areOk_iff {ss : List Stmt} : Stmt.AreOk ss ↔ ∀ s ∈ ss, s.IsOk := by
  induction ss with
  | nil => simp [Stmt.AreOk]
  | cons s ss ih => rw [Stmt.AreOk, ih, List.forall_mem_cons]

/-! ## Calls -/

/-- An argument is printed, perhaps after a keyword. -/
def Arg.Prints (a : Arg) : Prop := ∃ x : Item, x.Prints ∧ x.all = a.text

theorem prints_keyword {key : Bytes} (hkey : isIdentifier key = true) {e : Expr} {t : Python.Tree} (h : Prints 0 e.text t) :
    (Arg.keyword key e).Prints := by
  refine ⟨⟨some key, false, e.text, t⟩, ⟨h, ?_⟩, rfl⟩
  rintro _ ⟨⟩
  exact (Python.isWord_of_identifier hkey).1

theorem exists_items {args : List Arg} (h : ∀ a ∈ args, a.Prints) :
    ∃ xs : List Item, (∀ x ∈ xs, x.Prints) ∧ Arg.texts args = xs.map Item.all := by
  induction args with
  | nil => exact ⟨[], nofun, rfl⟩
  | cons a args ih =>
    rw [List.forall_mem_cons] at h
    obtain ⟨x, hx, htext⟩ := h.1
    obtain ⟨xs, hxs, htexts⟩ := ih h.2
    exact ⟨x :: xs, List.forall_mem_cons.mpr ⟨hx, hxs⟩, by rw [Arg.texts, htexts, List.map_cons, htext]⟩

theorem isCall_texts {fn : List Bytes} (hfn : IsPath fn) {args : List Arg} (h : ∀ a ∈ args, a.Prints) :
    isCall fn (Arg.texts args) = true := by
  obtain ⟨xs, hxs, htexts⟩ := exists_items h
  have hread := (prints_call hfn htexts hxs).reads.read_eq
  rw [Expr.text] at hread
  unfold isCall
  rw [hread]
  simp [htexts]

theorem argTexts_eq_map (args : List Arg) : Arg.texts args = args.map Arg.text := by
  induction args with
  | nil => rfl
  | cons a args ih => rw [Arg.texts, ih, List.map_cons]

theorem mem_texts {args : List Arg} {text : Bytes} (h : text ∈ Arg.texts args) : ∃ a ∈ args, a.text = text := by
  rw [argTexts_eq_map] at h
  exact List.mem_map.mp h

theorem isOk_call {names fn : List Bytes} (hnames : ∀ name ∈ names, isIdentifier name = true) (hfn : IsPath fn)
    {args : List Arg} (hargs : ∀ a ∈ args, a.Prints) : (Stmt.call names fn args).IsOk := by
  refine ⟨hnames, isCall_texts hfn hargs, fun text htext => ?_⟩
  obtain ⟨a, ha, rfl⟩ := mem_texts htext
  have hsingle : ∀ b ∈ [a], b.Prints := by simpa using hargs a ha
  exact isCall_texts hfn hsingle

/-! ## Printed statements -/

/-- A block is laid out as its statements are, and one that holds nothing as a lone `pass`. -/
def LaidBlock (body : List Stmt) (block : List Python.Stmt) (laid : Prop) : Prop :=
  if body.isEmpty then block = [.simple .pass] else laid

mutual

/-- A Python statement has the form of a statement, block by block. -/
def Stmt.Laid : Stmt → Python.Stmt → Prop
  | .loop _ body, .loop _ block => LaidBlock body block (Stmt.AllLaid body block)
  | .choose _ body rest, .choose _ block chain => LaidBlock body block (Stmt.AllLaid body block) ∧ rest.Laid chain
  | .loop .., _ | .choose .., _ => False
  | _, .simple s => s ≠ .pass
  | _, _ => False

def Stmt.AllLaid : List Stmt → List Python.Stmt → Prop
  | [], [] => True
  | s :: ss, p :: ps => s.Laid p ∧ Stmt.AllLaid ss ps
  | _, _ => False

def Chain.Laid : Chain → Python.Chain → Prop
  | .none, .none => True
  | .elseIf _ body rest, .elseIf _ block chain => LaidBlock body block (Stmt.AllLaid body block) ∧ rest.Laid chain
  | .otherwise body, .otherwise block => LaidBlock body block (Stmt.AllLaid body block)
  | _, _ => False

end

/-- Statements are printed as Python statements of the same form. -/
structure PrintedAs (level : Nat) (ss : List Stmt) (ps : List Python.Stmt) : Prop where
  ok : Python.Stmt.areOk ps = true
  laid : Stmt.AllLaid ss ps
  print : Python.Stmt.printAll level ps = Stmt.allLines level ss

/-- A block is printed as the statements in it, or as a `pass`. -/
theorem PrintedAs.exists_block {level : Nat} {body : List Stmt} {ps : List Python.Stmt} (h : PrintedAs level body ps) :
    ∃ block, Python.isBlock block (Python.Stmt.areOk block) = true ∧ LaidBlock body block (Stmt.AllLaid body block) ∧
      Python.Stmt.printAll level block = blockLines level (Stmt.allLines level body) := by
  cases body with
  | nil => exact ⟨[.simple .pass], rfl, rfl, rfl⟩
  | cons s ss =>
    refine ⟨ps, ?_, h.laid, ?_⟩
    · unfold Python.isBlock
      split
      · exact h.laid.elim
      · rfl
      · exact h.ok
    · cases ps with
      | nil => exact h.laid.elim
      | cons p ps =>
        have hne : Stmt.allLines level (s :: ss) ≠ [] := by
          rw [← h.print, Python.Stmt.printAll]
          exact List.append_ne_nil_of_left_ne_nil (p.print_ne_nil level) _
        rw [h.print, blockLines, if_neg (by simpa using hne)]

theorem exists_print_call {names fn : List Bytes} {args : List Arg} (h : (Stmt.call names fn args).IsOk) (level : Nat) :
    ∃ s : Python.Simple, s.isOk = true ∧ s ≠ .pass ∧ s.print level = indentedCall level names fn args := by
  obtain ⟨hnames, hcall, hargs⟩ := h
  obtain ⟨rows, hflatten, hrows, hlines⟩ := exists_rows level (callHead names fn) (Arg.texts args)
  refine ⟨.call names fn rows, ?_, nofun, ?_⟩
  · simp only [Python.Simple.isOk, Bool.and_eq_true, List.all_eq_true, hflatten]
    exact ⟨⟨⟨hnames, hcall⟩, hargs⟩, fun row hrow => by simpa using hrows row hrow⟩
  · rw [indentedCall, hlines]
    rfl

mutual

/-- The lines of a statement are the print of a Python statement. -/
theorem Stmt.exists_print (level : Nat) : ∀ (s : Stmt), s.IsOk →
    ∃ p : Python.Stmt, p.isOk = true ∧ s.Laid p ∧ p.print level = s.lines level
  | .assign target value, h =>
    ⟨.simple (.assign target.text value.text), by simpa [Python.Stmt.isOk, Python.Simple.isOk, Stmt.IsOk] using h, nofun, rfl⟩
  | .update target op value, h =>
    ⟨.simple (.update target.text op value.text),
      by simpa [Python.Stmt.isOk, Python.Simple.isOk, Stmt.IsOk, and_assoc] using h, nofun, rfl⟩
  | .call names fn args, h => by
    obtain ⟨s, hs, hpass, hprint⟩ := exists_print_call h level
    exact ⟨.simple s, hs, hpass, hprint⟩
  | .delete name, h => ⟨.simple (.delete name), h, nofun, rfl⟩
  | .leave, _ => ⟨.simple .leave, rfl, nofun, rfl⟩
  | .next, _ => ⟨.simple .next, rfl, nofun, rfl⟩
  | .done, _ => ⟨.simple .done, rfl, nofun, rfl⟩
  | .loop test body, h => by
    obtain ⟨⟨t, ht, htext⟩, hbody⟩ := h
    obtain ⟨ps, hps⟩ := Stmt.exists_printAll (level + 1) body hbody
    obtain ⟨block, hblock, hlaid, hprint⟩ := hps.exists_block
    refine ⟨.loop t block, by rw [Python.Stmt.isOk, ht, hblock]; rfl, hlaid, ?_⟩
    rw [Python.Stmt.print, Stmt.lines, htext, hprint]
  | .choose test body rest, h => by
    obtain ⟨⟨t, ht, htext⟩, hbody, hrest⟩ := h
    obtain ⟨ps, hps⟩ := Stmt.exists_printAll (level + 1) body hbody
    obtain ⟨block, hblock, hlaid, hprint⟩ := hps.exists_block
    obtain ⟨chain, hchain, hlaid', hprint'⟩ := Chain.exists_print level rest hrest
    refine ⟨.choose t block chain, by rw [Python.Stmt.isOk, ht, hblock, hchain]; rfl, ⟨hlaid, hlaid'⟩, ?_⟩
    rw [Python.Stmt.print, Stmt.lines, htext, hprint, hprint']

/-- The lines of statements are the print of Python statements. -/
theorem Stmt.exists_printAll (level : Nat) : ∀ (ss : List Stmt), Stmt.AreOk ss → ∃ ps, PrintedAs level ss ps
  | [], _ => ⟨[], rfl, trivial, rfl⟩
  | s :: ss, h => by
    obtain ⟨p, hp, hlaid, hprint⟩ := Stmt.exists_print level s h.1
    obtain ⟨ps, hps⟩ := Stmt.exists_printAll level ss h.2
    refine ⟨p :: ps, by rw [Python.Stmt.areOk, hp, hps.ok]; rfl, ⟨hlaid, hps.laid⟩, ?_⟩
    rw [Python.Stmt.printAll, Stmt.allLines, hprint, hps.print]

theorem Chain.exists_print (level : Nat) : ∀ (c : Chain), c.IsOk →
    ∃ p : Python.Chain, p.isOk = true ∧ c.Laid p ∧ p.print level = c.lines level
  | .none, _ => ⟨.none, rfl, trivial, rfl⟩
  | .elseIf test body rest, h => by
    obtain ⟨⟨t, ht, htext⟩, hbody, hrest⟩ := h
    obtain ⟨ps, hps⟩ := Stmt.exists_printAll (level + 1) body hbody
    obtain ⟨block, hblock, hlaid, hprint⟩ := hps.exists_block
    obtain ⟨chain, hchain, hlaid', hprint'⟩ := Chain.exists_print level rest hrest
    refine ⟨.elseIf t block chain, by rw [Python.Chain.isOk, ht, hblock, hchain]; rfl, ⟨hlaid, hlaid'⟩, ?_⟩
    rw [Python.Chain.print, Chain.lines, htext, hprint, hprint']
  | .otherwise body, h => by
    obtain ⟨ps, hps⟩ := Stmt.exists_printAll (level + 1) body h
    obtain ⟨block, hblock, hlaid, hprint⟩ := hps.exists_block
    refine ⟨.otherwise block, by rw [Python.Chain.isOk, hblock], hlaid, ?_⟩
    rw [Python.Chain.print, Chain.lines, hprint]

end

end IrafCl.Code
