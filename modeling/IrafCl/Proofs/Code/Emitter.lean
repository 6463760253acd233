import IrafCl.Code.Emitter
import IrafCl.Proofs.Code.Wording

/-!
# What the emitter writes

Rendering an expression gives its text and leaves the emitter as it was, however deeply its calls nest
(`Expr.render_eq`): each call puts its separator in the table and takes it out again, and drops the buffer that its
arguments went to (`Emitter.captureArgs_eq`). Everything else that is written is lines: `Wrote e e' lines` says that
between two states exactly these lines went to the active buffer, at the level that is current in both. Lines and
suites write so, hence statements do (`Stmt.wrote_emit`), and the text of a function is the lines of its statements if
their arguments can be cut apart (`written_eq`).
-/

namespace IrafCl.Code

/-! ## Translations -/

namespace Translation

variable {t : Translation} {type : Bytes}

theorem text_set (t : Translation) (type s : Bytes) : (t.set type s).text type = s := by
  unfold text
  induction t with
  | nil => simp [set]
  | cons entry rest ih =>
    obtain ⟨other, old⟩ := entry
    rw [set]
    split
    · simp
    · next hne => rw [List.lookup_cons, beq_eq_false_iff_ne.mpr (Ne.symm hne), ih]

/-- What a type was written as before can be put back. -/
theorem set_set {old : Bytes} (h : t.lookup type = some old) (new : Bytes) : (t.set type new).set type old = t := by
  induction t with
  | nil => cases h
  | cons entry rest ih =>
    obtain ⟨other, text⟩ := entry
    rw [List.lookup_cons] at h
    rw [set]
    by_cases heq : other = type
    · subst heq
      rw [beq_self_eq_true] at h
      rw [if_pos rfl, set, if_pos rfl, Option.some.inj h]
    · rw [beq_eq_false_iff_ne.mpr (Ne.symm heq)] at h
      rw [if_neg heq, set, if_neg heq, ih h]

/-- A type that was not written at all can be taken out again. -/
theorem delete_set (h : t.lookup type = none) (new : Bytes) : (t.set type new).delete type = t := by
  induction t with
  | nil => rw [set, delete, if_pos rfl]
  | cons entry rest ih =>
    obtain ⟨other, text⟩ := entry
    rw [List.lookup_cons] at h
    rw [set]
    by_cases heq : other = type
    · subst heq
      rw [beq_self_eq_true] at h
      cases h
    · rw [beq_eq_false_iff_ne.mpr (Ne.symm heq)] at h
      rw [if_neg heq, delete, if_neg heq, ih h]

end Translation

/-! ## Buffers -/

namespace Emitter

theorem textOf_cons (s : Bytes) (buffer : List Bytes) : textOf (s :: buffer) = textOf buffer ++ s := by
  simp [textOf]

theorem write_mk (s : Bytes) (top : List Bytes) (below : List (List Bytes)) (indent : Nat) (emitted : List Bool)
    (t : Translation) :
    (Emitter.mk (top :: below) indent emitted t).write s = ⟨(s :: top) :: below, indent, emitted, t⟩ := rfl

/-- What is captured leaves no trace, if the body only adds to the fresh buffer. -/
theorem capture_eq {e : Emitter} {body : Emitter → Emitter} {buffer : List Bytes}
    (h : body { e with out := [] :: e.out } = { e with out := buffer :: e.out }) :
    e.capture body = (textOf buffer, e) := by
  unfold capture
  rw [h]
  rfl

/-- Another text for a type leaves no trace, if the body leaves none where the type has that text. -/
theorem withTranslation_eq {α : Type} {e : Emitter} {type text : Bytes} {body : Emitter → α × Emitter} {a : α}
    (h : body { e with translate := e.translate.set type text } =
      (a, { e with translate := e.translate.set type text })) : e.withTranslation type text body = (a, e) := by
  unfold withTranslation
  rw [h]
  dsimp only
  cases hbefore : e.translate.lookup type with
  | some old => exact congrArg (fun t => (a, { e with translate := t })) (Translation.set_set hbefore text)
  | none => exact congrArg (fun t => (a, { e with translate := t })) (Translation.delete_set hbefore text)

/-- What is captured with a separator leaves no trace either. -/
theorem captureArgs_eq {e : Emitter} {sep : Bytes} {body : Emitter → Emitter} {buffer : List Bytes}
    (h : body ⟨[] :: e.out, e.indent, e.emitted, e.translate.set comma sep⟩ =
      ⟨buffer :: e.out, e.indent, e.emitted, e.translate.set comma sep⟩) :
    e.captureArgs sep body = (textOf buffer, e) := withTranslation_eq (capture_eq h)

end Emitter

mutual

theorem Expr.render_eq : ∀ (x : Expr) (e : Emitter), x.render e = (x.text, e)
  | .number _, _ => rfl
  | .int _, _ => rfl
  | .string _, _ => rfl
  | .path _, _ => rfl
  | .field _ _ _, _ => rfl
  | .call fn args, e => by
    obtain ⟨buffer, hbuffer, htext⟩ := Arg.writeAll_eq args [] e.out e.indent e.emitted (e.translate.set comma ", ")
    rw [Expr.render, Emitter.captureArgs_eq hbuffer, htext, Translation.text_set, Expr.text]
    simp [Emitter.textOf]
  | .subscript base index, e => by
    simp only [Expr.render, Expr.render_eq base, Expr.renderAll_eq index, Expr.text]
  | .before x, e => by rw [Expr.render, Expr.render_eq x, Expr.text]
  | .paren x, e => by rw [Expr.render, Expr.render_eq x, Expr.text]
  | .not x, e => by rw [Expr.render, Expr.render_eq x, Expr.text]
  | .minus x, e => by rw [Expr.render, Expr.render_eq x, Expr.text]
  | .plus x, e => by rw [Expr.render, Expr.render_eq x, Expr.text]
  | .binary op l r, e => by
    simp only [Expr.render, Expr.render_eq l, Expr.render_eq r, Expr.text]
  | .oneOf x choices, e => by
    simp only [Expr.render, Expr.render_eq x, Expr.renderAll_eq choices, Expr.text]

theorem Expr.renderAll_eq : ∀ (xs : List Expr) (e : Emitter), Expr.renderAll xs e = (Expr.texts xs, e)
  | [], _ => rfl
  | x :: xs, e => by
    simp only [Expr.renderAll, Expr.render_eq x, Expr.renderAll_eq xs, Expr.texts]

theorem Arg.render_eq : ∀ (a : Arg) (e : Emitter), a.render e = (a.text, e)
  | .mk key bare x, e => by rw [Arg.render, Expr.render_eq x, Arg.text]

/-- Arguments go to the active buffer, and between them what commas are written as. -/
theorem Arg.writeAll_eq : ∀ (as : List Arg) (top : List Bytes) (below : List (List Bytes)) (indent : Nat)
    (emitted : List Bool) (t : Translation), ∃ buffer,
      Arg.writeAll as ⟨top :: below, indent, emitted, t⟩ = ⟨buffer :: below, indent, emitted, t⟩ ∧
      Emitter.textOf buffer = Emitter.textOf top ++ Bytes.join (t.text comma) (Arg.texts as)
  | [], top, below, indent, emitted, t => ⟨top, rfl, by simp [Arg.texts, Bytes.join]⟩
  | a :: as, top, below, indent, emitted, t => by
    rw [Arg.writeAll, Arg.render_eq a]
    cases as with
    | nil =>
      refine ⟨a.text :: top, rfl, ?_⟩
      simp [Emitter.textOf_cons, Arg.texts, Bytes.join]
    | cons b bs =>
      obtain ⟨buffer, hbuffer, htext⟩ :=
        Arg.writeAll_eq (b :: bs) (t.text comma :: a.text :: top) below indent emitted t
      refine ⟨buffer, hbuffer, ?_⟩
      rw [htext, Emitter.textOf_cons, Emitter.textOf_cons]
      simp only [Arg.texts, Bytes.join_cons_cons, List.append_assoc]

end

/-- Captured arguments are their texts with the separator between them, and the emitter is left as it was. -/
theorem Arg.captureArgs_writeAll (as : List Arg) (e : Emitter) (sep : Bytes) :
    e.captureArgs sep (Arg.writeAll as) = (Bytes.join sep (Arg.texts as), e) := by
  obtain ⟨buffer, hbuffer, htext⟩ := Arg.writeAll_eq as [] e.out e.indent e.emitted (e.translate.set comma sep)
  rw [Emitter.captureArgs_eq hbuffer, htext, Translation.text_set]
  simp [Emitter.textOf]

/-- Cutting the arguments of a task call leaves the emitter as it was, and gives their texts if none of them holds the
byte they are cut at. -/
theorem Arg.cutAll_eq (as : List Arg) (e : Emitter) :
    ∃ texts, Arg.cutAll as e = (texts, e) ∧ ((∀ text ∈ Arg.texts as, argSep ∉ text) → texts = Arg.texts as) := by
  unfold Arg.cutAll
  rw [Arg.captureArgs_writeAll]
  cases as with
  | nil => exact ⟨[], rfl, fun _ => rfl⟩
  | cons a as => exact ⟨_, rfl, fun h => Bytes.pieces_join (List.cons_ne_nil _ _) h⟩

/-! ## Lines -/

namespace Emitter

/-- The emitter has a buffer, and knows whether anything was written at its level. -/
structure Ready (e : Emitter) : Prop where
  out : e.out ≠ []
  level : e.indent < e.emitted.length

/-- Lines were written to the active buffer, at one level. -/
structure Wrote (e e' : Emitter) (lines : List Bytes) : Prop where
  indent : e'.indent = e.indent
  below : e'.out.tail = e.out.tail
  ready : e'.Ready
  text : textOf (e'.out.headD []) = textOf (e.out.headD []) ++ unlines lines
  outer : ∀ k < e.indent, e'.emitted[k]? = e.emitted[k]?
  emitted : e'.emitted.getD e.indent false = (e.emitted.getD e.indent false || !lines.isEmpty)

theorem Wrote.refl {e : Emitter} (h : e.Ready) : Wrote e e [] :=
  ⟨rfl, rfl, h, by simp [unlines], fun _ _ => rfl, by simp⟩

theorem Wrote.trans {e e' e'' : Emitter} {lines lines' : List Bytes} (h : Wrote e e' lines)
    (h' : Wrote e' e'' lines') : Wrote e e'' (lines ++ lines') := by
  refine ⟨h'.indent.trans h.indent, h'.below.trans h.below, h'.ready, ?_, ?_, ?_⟩
  · rw [h'.text, h.text, unlines, unlines, unlines, List.flatMap_append, List.append_assoc]
  · intro k hk
    rw [h'.outer k (by rw [h.indent]; exact hk), h.outer k hk]
  · have := h'.emitted
    rw [h.indent] at this
    rw [this, h.emitted]
    cases lines <;> simp

theorem foldl_writeLine (rest : List Bytes) (top : List Bytes) (below : List (List Bytes)) (indent : Nat)
    (emitted : List Bool) (t : Translation) : ∃ buffer,
      rest.foldl (fun e s => e.writeLine (e.indent + 1) s) (Emitter.mk (top :: below) indent emitted t) =
        ⟨buffer :: below, indent, emitted, t⟩ ∧
      textOf buffer = textOf top ++ unlines (rest.map (indented (indent + 1))) := by
  induction rest generalizing top with
  | nil => exact ⟨top, rfl, by simp [unlines]⟩
  | cons s rest ih =>
    obtain ⟨buffer, hbuffer, htext⟩ := ih ((indented (indent + 1) s ++ [10]) :: top)
    refine ⟨buffer, hbuffer, ?_⟩
    rw [htext, textOf_cons]
    simp only [unlines, List.map_cons, List.flatMap_cons, List.append_assoc]

theorem wrote_line {e : Emitter} (h : e.Ready) (first : Bytes) (rest : List Bytes) :
    Wrote e (e.line first rest) (indented e.indent first :: rest.map (indented (e.indent + 1))) := by
  obtain ⟨out, indent, emitted, t⟩ := e
  obtain ⟨hout, hlevel⟩ := h
  cases out with
  | nil => exact absurd rfl hout
  | cons top below =>
    obtain ⟨buffer, hbuffer, htext⟩ :=
      foldl_writeLine rest ((indented indent first ++ [10]) :: top) below indent emitted t
    have hline : Emitter.line ⟨top :: below, indent, emitted, t⟩ first rest =
        ⟨buffer :: below, indent, emitted.set indent true, t⟩ := by
      unfold line
      rw [writeLine, write_mk, hbuffer]
    rw [hline]
    refine ⟨rfl, rfl, ⟨by simp, by simpa using hlevel⟩, ?_, ?_, ?_⟩
    · simp only [List.headD_cons, htext, textOf_cons, unlines, List.flatMap_cons, List.append_assoc]
    · intro k hk
      exact List.getElem?_set_ne (Nat.ne_of_gt hk)
    · simp [List.getD_eq_getElem?_getD, hlevel]

/-! ## Blocks -/

theorem ready_push {e : Emitter} (h : e.Ready) (level : Nat) : (e.push level).Ready := by
  refine ⟨h.out, ?_⟩
  simp only [push, List.length_set, List.length_append, List.length_replicate]
  omega

/-- A fresh level hides nothing of the levels below it. -/
theorem getElem?_push {e : Emitter} {level k : Nat} (hk : k < level) (hlen : k < e.emitted.length) :
    (e.push level).emitted[k]? = e.emitted[k]? := by
  rw [push, List.getElem?_set_ne (Nat.ne_of_gt hk), List.getElem?_append_left hlen]

theorem getD_push (e : Emitter) (level : Nat) : (e.push level).emitted.getD level false = false := by
  simp only [push, List.getD_eq_getElem?_getD, List.getElem?_set, ↓reduceIte]
  split <;> rfl

/-- A level where nothing was written says so before it is left. -/
theorem wrote_pass {e e' : Emitter} {lines : List Bytes} (h : Wrote e e' lines)
    (hfresh : e.emitted.getD e.indent false = false) :
    Wrote e (if e'.emitted.getD e'.indent false then e' else e'.line "pass" []) (blockLines e.indent lines) := by
  have hflag := h.emitted
  rw [hfresh, Bool.false_or, ← h.indent] at hflag
  rw [hflag]
  cases lines with
  | nil =>
    have hpass := h.trans (wrote_line h.ready "pass" [])
    rw [h.indent] at hpass
    exact hpass
  | cons line lines => exact h

/-- The emitter where the block after a head begins. -/
def inSuite (e : Emitter) (head : Bytes) : Emitter := (e.line head []).push (e.indent + 1)

theorem ready_inSuite {e : Emitter} (h : e.Ready) (head : Bytes) : (e.inSuite head).Ready :=
  ready_push (wrote_line h head []).ready _

/-- A head and its block. -/
theorem wrote_suite {e : Emitter} (h : e.Ready) {head : Bytes} {body : Emitter → Emitter} {lines : List Bytes}
    (hbody : Wrote (e.inSuite head) (body (e.inSuite head)) lines) :
    Wrote e (e.suite head body) (indented e.indent head :: blockLines (e.indent + 1) lines) := by
  have hhead := wrote_line h head []
  have hindent : (e.line head []).indent = e.indent := hhead.indent
  have hblock := wrote_pass hbody (getD_push _ _)
  unfold inSuite at hblock
  unfold suite pop
  dsimp only
  rw [hindent]
  generalize e.line head [] = e₁ at *
  generalize body (e₁.push (e.indent + 1)) = e₂ at *
  generalize (if e₂.emitted.getD e₂.indent false then e₂ else e₂.line "pass" []) = e₃ at *
  have hlevel : e₃.indent = e.indent + 1 := hblock.indent
  refine ⟨?_, ?_, ⟨hblock.ready.out, ?_⟩, ?_, ?_, ?_⟩
  · simp [hlevel]
  · exact hblock.below.trans hhead.below
  · have := hblock.ready.level
    simp only [hlevel] at this ⊢
    omega
  · have htext := hblock.text
    simp only [push] at htext
    rw [htext, hhead.text]
    simp [unlines]
  · intro k hk
    have hlen : k < e₁.emitted.length := by have := hhead.ready.level; omega
    rw [hblock.outer k (Nat.lt_succ_of_lt hk), getElem?_push (Nat.lt_succ_of_lt hk) hlen, hhead.outer k hk]
  · -- the head itself was written at this level
    have hlen : e.indent < e₁.emitted.length := by have := hhead.ready.level; omega
    have hflag := hhead.emitted
    simp only [List.getD_eq_getElem?_getD] at hflag ⊢
    rw [hblock.outer e.indent (Nat.lt_succ_self _), getElem?_push (Nat.lt_succ_self _) hlen, hflag]
    simp

end Emitter

/-! ## Statements -/

/-- The texts of arguments that are worded in all their parts can be cut apart. -/
theorem cuttable_of_worded {fn : List Bytes} {args : List Arg} (h : (Expr.call fn args).All Expr.Worded) :
    ∀ text ∈ Arg.texts args, argSep ∉ text := fun text htext =>
  (Arg.visible_texts args h.2 h.1.2 text htext).zero_not_mem

open Emitter in
theorem wrote_call {e : Emitter} (h : e.Ready) (names fn : List Bytes) (args : List Arg) :
    ∃ lines, Wrote e ((Stmt.call names fn args).emit e) lines ∧
      ((Stmt.call names fn args).All Expr.Worded → lines = (Stmt.call names fn args).lines e.indent) := by
  obtain ⟨texts, hcut, htexts⟩ := Arg.cutAll_eq args e
  simp only [Stmt.emit, hcut, Stmt.lines, indentedCall]
  cases hlines : callLines e.indent (callHead names fn) texts with
  | nil =>
    refine ⟨[], .refl h, fun hworded => ?_⟩
    rw [← htexts (cuttable_of_worded hworded), hlines]
  | cons first rest =>
    refine ⟨_, wrote_line h first rest, fun hworded => ?_⟩
    rw [← htexts (cuttable_of_worded hworded), hlines]

open Emitter in
mutual

/-- A statement writes lines: those of its text, if it is worded in all its parts. -/
theorem Stmt.wrote_emit : ∀ (s : Stmt) {e : Emitter}, e.Ready →
    ∃ lines, Wrote e (s.emit e) lines ∧ (s.All Expr.Worded → lines = s.lines e.indent)
  | .assign target value, e, h => by
    simp only [Stmt.emit, Expr.render_eq, Stmt.lines]
    exact ⟨_, wrote_line h _ [], fun _ => rfl⟩
  | .update target op value, e, h => by
    simp only [Stmt.emit, Expr.render_eq, Stmt.lines]
    exact ⟨_, wrote_line h _ [], fun _ => rfl⟩
  | .call names fn args, e, h => wrote_call h names fn args
  | .delete name, e, h => ⟨_, wrote_line h _ [], fun _ => rfl⟩
  | .leave, e, h => ⟨_, wrote_line h _ [], fun _ => rfl⟩
  | .next, e, h => ⟨_, wrote_line h _ [], fun _ => rfl⟩
  | .done, e, h => ⟨_, wrote_line h _ [], fun _ => rfl⟩
  | .loop test body, e, h => by
    obtain ⟨lines, hbody, hlines⟩ := Stmt.wrote_emitAll body (ready_inSuite h ("while " ++ test.text ++ ":"))
    simp only [Stmt.emit, Expr.render_eq, Stmt.lines]
    refine ⟨_, wrote_suite h hbody, fun hworded => ?_⟩
    rw [hlines hworded.2]
    rfl
  | .choose test body rest, e, h => by
    obtain ⟨lines, hbody, hlines⟩ := Stmt.wrote_emitAll body (ready_inSuite h ("if " ++ test.text ++ ":"))
    have hsuite := wrote_suite h hbody
    obtain ⟨more, hrest, hmore⟩ := rest.wrote_emit hsuite.ready
    rw [hsuite.indent] at hmore
    simp only [Stmt.emit, Expr.render_eq, Stmt.lines]
    refine ⟨_, hsuite.trans hrest, fun hworded => ?_⟩
    rw [hlines hworded.2.1, hmore hworded.2.2]
    rfl

theorem Stmt.wrote_emitAll : ∀ (ss : List Stmt) {e : Emitter}, e.Ready →
    ∃ lines, Wrote e (Stmt.emitAll ss e) lines ∧ (Stmt.AllOf Expr.Worded ss → lines = Stmt.allLines e.indent ss)
  | [], e, h => ⟨[], .refl h, fun _ => rfl⟩
  | s :: ss, e, h => by
    obtain ⟨lines, hs, hlines⟩ := s.wrote_emit h
    obtain ⟨more, hss, hmore⟩ := Stmt.wrote_emitAll ss hs.ready
    rw [hs.indent] at hmore
    refine ⟨_, hs.trans hss, fun hworded => ?_⟩
    rw [hlines hworded.1, hmore hworded.2, Stmt.allLines]

theorem Chain.wrote_emit : ∀ (c : Chain) {e : Emitter}, e.Ready →
    ∃ lines, Wrote e (c.emit e) lines ∧ (c.All Expr.Worded → lines = c.lines e.indent)
  | .none, e, h => ⟨[], .refl h, fun _ => rfl⟩
  | .elseIf test body rest, e, h => by
    obtain ⟨lines, hbody, hlines⟩ := Stmt.wrote_emitAll body (ready_inSuite h ("elif " ++ test.text ++ ":"))
    have hsuite := wrote_suite h hbody
    obtain ⟨more, hrest, hmore⟩ := rest.wrote_emit hsuite.ready
    rw [hsuite.indent] at hmore
    simp only [Chain.emit, Expr.render_eq, Chain.lines]
    refine ⟨_, hsuite.trans hrest, fun hworded => ?_⟩
    rw [hlines hworded.2.1, hmore hworded.2.2]
    rfl
  | .otherwise body, e, h => by
    obtain ⟨lines, hbody, hlines⟩ := Stmt.wrote_emitAll body (ready_inSuite h "else:")
    simp only [Chain.emit, Chain.lines]
    refine ⟨_, wrote_suite h hbody, fun hworded => ?_⟩
    rw [hlines hworded]
    rfl

end

/-- After all statements the level is the one they began at, and one buffer is left. -/
theorem Emitter.wrote_after (stmts : List Stmt) : ∃ lines,
    Wrote (start.push bodyLevel) (Emitter.after stmts) lines ∧
      (Stmt.AllOf Expr.Worded stmts → lines = Stmt.allLines bodyLevel stmts) :=
  Stmt.wrote_emitAll stmts ⟨by simp [push, start], by simp [push, start]⟩

theorem Emitter.indent_after (stmts : List Stmt) : (Emitter.after stmts).indent = bodyLevel := by
  obtain ⟨_, h, -⟩ := wrote_after stmts
  exact h.indent

theorem Emitter.out_after (stmts : List Stmt) : ∃ buffer, (Emitter.after stmts).out = [buffer] ∧
    (Stmt.AllOf Expr.Worded stmts → textOf buffer = unlines (Stmt.allLines bodyLevel stmts)) := by
  obtain ⟨lines, h, hlines⟩ := wrote_after stmts
  cases hout : (Emitter.after stmts).out with
  | nil => exact absurd hout h.ready.out
  | cons buffer below =>
    have hbelow := h.below
    have htext := h.text
    rw [hout] at hbelow htext
    have hnil : below = [] := hbelow
    rw [hnil]
    refine ⟨buffer, rfl, fun hworded => ?_⟩
    rw [← hlines hworded]
    exact htext

/-- The checks of the emitter never fail: the text of a function is the lines of its statements. -/
theorem written_eq {stmts : List Stmt} (h : Stmt.AllOf Expr.Worded stmts) :
    written stmts = .ok (unlines (Stmt.allLines bodyLevel stmts)) := by
  obtain ⟨buffer, hout, htext⟩ := Emitter.out_after stmts
  simp [written, hout, Emitter.indent_after, Contract.check, htext h, bind, Except.bind, pure, Except.pure]

end IrafCl.Code
