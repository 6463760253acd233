import IrafCl.Proofs.Code.Emitter
import IrafCl.Proofs.Script.Wording

/-!
# Captured arguments

The list of arguments in a call is walked from left to right: each argument is written, and at each comma whatever commas
are written as. Captured with a separator, the list is the texts of its arguments with the separator between them, however
deeply further calls stand in them, and buffers and table are as they were. No text has a zero byte in it, so a list that
is captured with zero bytes is cut into the texts again (`captureArgs_writeList`).
-/

namespace IrafCl.Code

/-- Another argument is written behind some others and what commas are written as. -/
theorem Arg.writeAll_concat (a : Arg) : ∀ {as : List Arg}, as ≠ [] → ∀ (e : Emitter),
    Arg.writeAll (as ++ [a]) e =
      ((Arg.writeAll as e).write ((Arg.writeAll as e).translate.text comma)).write a.text
  | [], hne, _ => absurd rfl hne
  | [b], _, e => by simp only [List.singleton_append, Arg.writeAll, Arg.render_eq]; rfl
  | b :: d :: as, _, e => by
    have ih := Arg.writeAll_concat a (List.cons_ne_nil d as)
    rw [List.cons_append, Arg.writeAll, Arg.writeAll, Arg.render_eq]
    exact ih _

end IrafCl.Code

namespace IrafCl.Script

open Code (Emitter)

variable {n : Tree} {c : Context}

/-- Writes the argument of a `call_arg` node. -/
def writeArg (c : Context) (n : Tree) (e : Emitter) : Emitter :=
  match arg? n with
  | some a =>
    let (text, e) := (a.lower c).render e
    e.write text
  | none => e

mutual

/-- Walks a list of arguments, and writes each argument and each comma. -/
def writeList (c : Context) : Tree → Emitter → Emitter
  | .absent, e => e
  | .leaf t, e => if t.kind = .comma then e.write (e.translate.text Code.comma) else e
  | .branch k types cs, e => if k = .callArg then writeArg c (.branch k types cs) e else writeLists c cs e

def writeLists (c : Context) : List Tree → Emitter → Emitter
  | [], e => e
  | n :: ns, e => writeLists c ns (writeList c n e)

end

/-- The arguments of a list are those of its `call_arg` nodes, and the walk writes them one after the other. -/
structure ReadsList (c : Context) (n : Tree) (args : List Arg) : Prop where
  read : args? n = some args
  items : (members .callArgs .callArg n).mapM arg? = some args
  lexed : ∀ a ∈ args, a.IsLexed
  ne_nil : args ≠ []
  write : ∀ e, writeList c n e = Code.Arg.writeAll (Arg.lowerAll c args) e

/-- A single argument is written as its text. -/
theorem writeList_arg (h : Kid .callArg n) {a : Arg} (ha : arg? n = some a) (e : Emitter) :
    writeList c n e = e.write (a.lower c).text := by
  obtain ⟨types, cs, rfl⟩ := Kid.branch h rfl
  rw [writeList, if_pos rfl, writeArg, ha]
  dsimp only
  rw [Code.Arg.render_eq]

theorem exists_readsList (c : Context) (h : Grown n) : n.kind? = some .callArgs → ∃ args, ReadsList c n args := by
  refine Grown.induction (P := fun n => n.kind? = some .callArgs → ∃ args, ReadsList c n args) (fun n hn ih hk => ?_) h
  obtain ⟨types, cs, rhs, rfl, hrhs, hkids⟩ := hn.children hk rfl
  cases ListNode.of_callArgs hrhs hkids with
  | one hx =>
    obtain ⟨a, ha, hlexed⟩ := (readsExpr hx.2).arg hx.1
    refine ⟨[a], ?_, ?_, List.forall_mem_singleton.mpr hlexed, List.cons_ne_nil _ _, fun e => ?_⟩
    · rw [args?, ha]
      rfl
    · simp [members, membersOf, hx.1, ha]
    · rw [writeList, if_neg (by decide), writeLists, writeLists, writeList_arg hx ha, Arg.lowerAll, Arg.lowerAll,
        Code.Arg.writeAll, Code.Arg.render_eq]
      rfl
  | @more xs x t hxs ht hx =>
    obtain ⟨as, has⟩ := ih xs (by simp [Node.children]) hxs
    obtain ⟨a, ha, hlexed⟩ := (readsExpr hx.2).arg hx.1
    refine ⟨as ++ [a], ?_, ?_, List.forall_mem_append.mpr ⟨has.lexed, List.forall_mem_singleton.mpr hlexed⟩, by simp, fun e => ?_⟩
    · rw [args?, has.read, ha]
      rfl
    · have hcomma : (Node.leaf t : Tree).kind? = some .comma := congrArg some ht
      simp [members, membersOf, hxs, hcomma, hx.1, has.items, ha]
    · have hne : Arg.lowerAll c as ≠ [] := by
        rw [lowerAll_eq_map, Ne, List.map_eq_nil_iff]
        exact has.ne_nil
      rw [lowerAll_eq_map, List.map_append, ← lowerAll_eq_map, List.map_singleton, Code.Arg.writeAll_concat _ hne,
        ← has.write, writeList, if_neg (by decide), writeLists, writeLists, writeLists, writeLists, writeList, if_pos ht,
        writeList_arg hx ha]

/-- For every list of arguments, in every state: captured with a separator it is the texts of its arguments, in the order of
its `call_arg` nodes, with the separator between them, and the state is as it was. No text has a zero byte in it, and what
is captured with zero bytes is cut into just these texts. -/
theorem captureArgs_writeList (scope : Scope) (mode : Bytes) {n : Tree} (h : n.kind? = some .callArgs ∧ Grown n) :
    ∃ args texts, (members .callArgs .callArg n).mapM arg? = some args ∧
      texts = args.map (fun a => (a.lower (.of scope mode)).text) ∧
      (∀ a ∈ args, ∀ e : Emitter, (a.lower (.of scope mode)).render e = ((a.lower (.of scope mode)).text, e)) ∧
      (∀ (e : Emitter) (sep : Bytes), e.captureArgs sep (writeList (.of scope mode) n) = (Bytes.join sep texts, e)) ∧
      (∀ text ∈ texts, 0 ∉ text) ∧
      (∀ e : Emitter, Bytes.pieces Code.argSep (e.captureArgs [Code.argSep] (writeList (.of scope mode) n)).1 = texts) ∧
      args? n = some args ∧ ∀ e : Emitter, Code.Arg.cutAll (Arg.lowerAll (.of scope mode) args) e = (texts, e) := by
  obtain ⟨args, hargs⟩ := exists_readsList (.of scope mode) h.2 h.1
  obtain ⟨hkeyed, hworded⟩ := argsWorded_lowerAll (isIdentifier_handle scope mode) hargs.lexed
  have htexts : Code.Arg.texts (Arg.lowerAll (.of scope mode) args) = args.map (fun a => (a.lower (.of scope mode)).text) := by
    rw [Code.argTexts_eq_map, lowerAll_eq_map, List.map_map]
    rfl
  have hzero := fun text htext => (Code.Arg.visible_texts _ hworded hkeyed text htext).zero_not_mem
  have hwrite : writeList (.of scope mode) n = Code.Arg.writeAll (Arg.lowerAll (.of scope mode) args) := funext hargs.write
  have hcapture (e : Emitter) (sep : Bytes) := Code.Arg.captureArgs_writeAll (Arg.lowerAll (.of scope mode) args) e sep
  rw [htexts] at hzero
  simp only [htexts, ← hwrite] at hcapture
  refine ⟨args, _, hargs.items, rfl, fun a _ e => Code.Arg.render_eq _ e, hcapture, hzero, fun e => ?_, hargs.read, fun e => ?_⟩
  · rw [hcapture]
    exact Bytes.pieces_join (by simpa using hargs.ne_nil) hzero
  · obtain ⟨texts, hcut, heq⟩ := Code.Arg.cutAll_eq (Arg.lowerAll (.of scope mode) args) e
    rw [htexts] at heq
    rw [hcut, heq hzero]

/-- An expression as a list of arguments. -/
def singleTree (e : Tree) : Tree := .branch .callArgs .unset [.branch .callArg .unset [e]]

def numberTree (digits : Bytes) : Tree := operandTree (.branch .constant .unset [.leaf ⟨.integer, digits, none, 1⟩])

/-- A list with another argument. -/
def followedTree (list arg : Tree) : Tree := .branch .callArgs .unset [list, .leaf ⟨.comma, ",", none, 1⟩, arg]

/-- The arguments of a call with a call in it, `g(1, 2)`, with a string that is a zero byte, given to `s`, and with a flag,
`v-`. -/
def nestedList : Tree :=
  followedTree
    (followedTree
      (singleTree (operandTree (.branch .funcCall .unset [.leaf ⟨.ident, "g", none, 1⟩, .leaf ⟨.lparen, "(", none, 1⟩,
        followedTree (singleTree (numberTree "1")) (.branch .callArg .unset [numberTree "2"]),
        .leaf ⟨.rparen, ")", none, 1⟩])))
      (.branch .callArg .unset [.leaf ⟨.ident, "s", none, 1⟩, .leaf ⟨.equals, "=", none, 1⟩,
        operandTree (.branch .constant .unset [.leaf ⟨.string, "\"\x00\"", some [0], 1⟩])]))
    (.branch .callArg .unset [.leaf ⟨.ident, "v", none, 1⟩, .leaf ⟨.minus, "-", none, 1⟩])

/-- The comma of the inner call stays one, and the zero byte of the string is escaped. -/
theorem captureArgs_nested : (nestedList.kind? = some .callArgs ∧ Grown nestedList) ∧
    ∀ (e : Emitter) (sep : Bytes), e.captureArgs sep (writeList (.of .empty "al") nestedList) =
      (Bytes.join sep ["iraf.g(1, 2)", "s='\\x00'", "v=no"], e) := by
  have hgrown : nestedList.kind? = some .callArgs ∧ Grown nestedList := ⟨rfl, grown_of_grows rfl⟩
  have htexts : ((members .callArgs .callArg nestedList).mapM arg?).map
      (fun args => args.map (fun a => (a.lower (.of .empty "al")).text)) =
      some (["iraf.g(1, 2)", "s='\\x00'", "v=no"] : List Bytes) := by decide +kernel
  obtain ⟨args, texts, hitems, rfl, -, hcapture, -⟩ := captureArgs_writeList .empty "al" hgrown
  simp only [hitems, Option.map_some, Option.some.injEq] at htexts
  simp only [htexts] at hcapture
  exact ⟨hgrown, hcapture⟩

end IrafCl.Script
