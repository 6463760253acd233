import IrafCl.Library.Standard
import IrafCl.Proofs.Code.Name
import IrafCl.Proofs.Script.Branching
import IrafCl.Proofs.Script.Compiled
import IrafCl.Proofs.Script.Subterms
import IrafCl.Proofs.Script.Unambiguous
import IrafCl.Proofs.Script.Wording

/-!
# Pipes in generated code

The stages of a pipeline hand their output on in temporaries. Each temporary has a number that no other has, a single stage
reads it as its input, it is dropped right after that, and no other statement has to do with it (`HandedOn`). The stage
before is to bind it, and does so unless it defines a package: then it binds the names of the package in place of the
temporary, which is read and dropped all the same (`compile_pipes`, `package_unbound`).
-/

namespace IrafCl.Code

/-! ## Steps -/

mutual

/-- The statements in a statement one after the other, as they are written, each without its blocks. -/
def Stmt.steps : Stmt → List Stmt
  | .loop test body => .loop test [] :: Stmt.allSteps body
  | .choose test body rest => .choose test [] .none :: (Stmt.allSteps body ++ rest.steps)
  | s => [s]

def Stmt.allSteps : List Stmt → List Stmt
  | [] => []
  | s :: ss => s.steps ++ Stmt.allSteps ss

def Chain.steps : Chain → List Stmt
  | .none => []
  | .elseIf test body rest => .choose test [] .none :: (Stmt.allSteps body ++ rest.steps)
  | .otherwise body => Stmt.allSteps body

end

theorem allSteps_append (xs ys : List Stmt) : Stmt.allSteps (xs ++ ys) = Stmt.allSteps xs ++ Stmt.allSteps ys := by
  induction xs with
  | nil => rfl
  | cons x xs ih => rw [List.cons_append, Stmt.allSteps, ih, Stmt.allSteps, List.append_assoc]

/-- The variable that an expression begins with. -/
def Expr.root : Expr → Option Bytes
  | .path (id :: _) | .field (id :: _) _ _ | .call (id :: _) _ => some id
  | _ => none

/-- An expression does not begin with a variable. -/
def Expr.RootNe (x : Bytes) (e : Expr) : Prop := e.root ≠ some x

/-- A statement neither binds nor drops a variable, and no expression in it begins with that. -/
def Stmt.Avoids (x : Bytes) (s : Stmt) : Prop := x ∉ s.bound ∧ s.All (Expr.RootNe x)

theorem not_mem_bound {x : Bytes} {e : Expr} (h : e.All (Expr.RootNe x)) : x ∉ e.bound := by
  unfold Expr.bound
  split
  · next name =>
    rw [List.mem_singleton]
    rintro rfl
    exact h rfl
  · exact List.not_mem_nil

end IrafCl.Code

namespace IrafCl.Script

/-! ## Temporaries -/

theorem pipeName_injective : Function.Injective pipeName := fun _ _ h =>
  Bytes.ofNat_injective (List.append_cancel_left h)

theorem pipeName_take (n : Nat) : (pipeName n).take 2 = [80, 105] := rfl

/-- The function of package definitions. -/
def packagePath : List Bytes := ["iraf", "package"]

/-- A call hands its output on in a temporary that it binds, unless it is a package definition, which binds the names of the
package. Its arguments have nothing to do with the temporary. -/
def Writes (x : Bytes) (s : Code.Stmt) : Prop :=
  ∃ names fn args, s = .call names fn args ∧ names = (if fn = packagePath then packageNames else [x]) ∧
    Code.Arg.keyword "Stdout" (.number "1") ∈ args ∧ (Code.Expr.call fn args).All (Code.Expr.RootNe x)

/-- A call takes its input from a temporary, in one of its arguments and nowhere else, and does not bind it. -/
def Reads (x : Bytes) (s : Code.Stmt) : Prop :=
  ∃ names fn front back, s = .call names fn (front ++ .keyword "Stdin" (.name x) :: back) ∧ x ∉ names ∧
    (Code.Expr.call fn (front ++ back)).All (Code.Expr.RootNe x)

/-- A temporary is handed on: one step writes it, a later one reads it and the next drops it, and no other step has to do
with it. -/
def HandedOn (x : Bytes) (steps : List Code.Stmt) : Prop :=
  ∃ before writer between reader after, steps = before ++ writer :: (between ++ reader :: .delete x :: after) ∧
    Writes x writer ∧ Reads x reader ∧ ∀ s ∈ before ++ between ++ after, s.Avoids x

section HandedOn

variable {x : Bytes} {xs ys : List Code.Stmt}

theorem HandedOn.after (h : HandedOn x ys) (hxs : ∀ s ∈ xs, s.Avoids x) : HandedOn x (xs ++ ys) := by
  obtain ⟨before, writer, between, reader, after, rfl, hwrites, hreads, havoids⟩ := h
  refine ⟨xs ++ before, writer, between, reader, after, by simp, hwrites, hreads, ?_⟩
  rw [List.append_assoc xs, List.append_assoc xs]
  exact List.forall_mem_append.mpr ⟨hxs, havoids⟩

theorem HandedOn.before (h : HandedOn x xs) (hys : ∀ s ∈ ys, s.Avoids x) : HandedOn x (xs ++ ys) := by
  obtain ⟨before, writer, between, reader, after, rfl, hwrites, hreads, havoids⟩ := h
  refine ⟨before, writer, between, reader, after ++ ys, by simp, hwrites, hreads, ?_⟩
  rw [← List.append_assoc]
  exact List.forall_mem_append.mpr ⟨havoids, hys⟩

end HandedOn

/-- Some steps use the temporaries from one number to another, which they hand on, and no other but the one that they may
begin to read from. -/
structure Piped (input : Option Nat) (low high : Nat) (steps : List Code.Stmt) : Prop where
  le : low ≤ high
  handed : ∀ n, low < n → n ≤ high → HandedOn (pipeName n) steps
  avoids : ∀ n, n ≤ low ∨ high < n → some n ≠ input → ∀ s ∈ steps, s.Avoids (pipeName n)
  reads : ∀ n ∈ input, ∃ reader after, steps = reader :: .delete (pipeName n) :: after ∧ Reads (pipeName n) reader ∧
    ∀ s ∈ after, s.Avoids (pipeName n)

section Piped

variable {low mid high : Nat} {xs ys : List Code.Stmt}

theorem Piped.append (h : Piped none low mid xs) (h' : Piped none mid high ys) : Piped none low high (xs ++ ys) where
  le := Nat.le_trans h.le h'.le
  handed n hlow hhigh := by
    rcases Nat.lt_or_ge mid n with hmid | hmid
    · exact (h'.handed n hmid hhigh).after (h.avoids n (.inr hmid) nofun)
    · exact (h.handed n hlow hmid).before (h'.avoids n (.inl hmid) nofun)
  avoids n hn _ := by
    have hle := h.le
    have hle' := h'.le
    exact List.forall_mem_append.mpr ⟨h.avoids n (by omega) nofun, h'.avoids n (by omega) nofun⟩
  reads := nofun

/-- Steps that have nothing to do with temporaries. -/
theorem piped_of_avoids (low : Nat) (h : ∀ n, ∀ s ∈ xs, s.Avoids (pipeName n)) : Piped none low low xs where
  le := Nat.le_refl _
  handed _ hlow hhigh := absurd hhigh (Nat.not_le.mpr hlow)
  avoids n _ _ := h n
  reads := nofun

theorem piped_nil (low : Nat) : Piped none low low [] := piped_of_avoids low fun _ => List.forall_mem_nil _

theorem Piped.cons (h : Piped none low high xs) {s : Code.Stmt} (hs : ∀ n, s.Avoids (pipeName n)) :
    Piped none low high (s :: xs) :=
  (piped_of_avoids low fun n => List.forall_mem_singleton.mpr (hs n)).append h

end Piped

/-! ## Expressions -/

/-- The variables that the code of an expression may begin with. -/
def owners : List Bytes :=
  [varsObject, taskParam, taskRegistry, "EOF", "yes", "no", "INDEF", "float", "str", "locals"]

/-- An expression begins with none but these variables. -/
def Free (e : Code.Expr) : Prop := ∀ x ∈ e.root, x ∈ owners

theorem rootNe_of_free (n : Nat) {e : Code.Expr} (h : Free e) : e.RootNe (pipeName n) := by
  intro hroot
  have howners : ∀ x ∈ owners, x.take 2 ≠ [80, 105] := by decide
  exact howners _ (h _ hroot) (pipeName_take n)

theorem free_of_root {e : Code.Expr} {x : Bytes} (h : e.root = some x) (hx : x ∈ owners) : Free e := by
  intro y hy
  rw [h] at hy
  cases hy
  exact hx

theorem handle_mem_owners (scope : Scope) (mode : Bytes) : (Context.of scope mode).handle ∈ owners := by
  unfold Context.of
  dsimp only
  split <;> decide

section Lowering

variable {c : Context} {n : Nat}

theorem rootNe_constant {k : Constant} (hk : k.IsLexed) : k.lower.All (Code.Expr.RootNe (pipeName n)) := by
  have howned {e : Code.Expr} {x : Bytes} (h : e.root = some x) (hx : x ∈ owners) : e.RootNe (pipeName n) :=
    rootNe_of_free n (free_of_root h hx)
  unfold Constant.IsLexed at hk
  unfold Constant.lower
  split
  · exact rootNe_of_free n nofun
  · exact rootNe_of_free n nofun
  · exact rootNe_of_free n nofun
  · exact rootNe_of_free n nofun
  · refine ⟨howned rfl (by decide), Code.Arg.allOf_iff.mpr ?_⟩
    rw [List.forall_mem_map]
    exact fun part _ => rootNe_of_free n nofun
  · exact rootNe_of_free n nofun
  · next hkind =>
    rw [hkind] at hk
    rcases hk with htext | htext <;> rw [htext] <;> exact howned rfl (by decide)
  · next hkind =>
    rw [hkind] at hk
    rw [hk]
    exact howned rfl (by decide)

theorem rootNe_owned {owner : Bytes} (howner : owner ∈ owners) {e : Code.Expr} (h : Owned owner e) :
    e.All (Code.Expr.RootNe (pipeName n)) := by
  cases h with
  | path ids => exact rootNe_of_free n (free_of_root rfl howner)
  | field ids param name => exact rootNe_of_free n (free_of_root rfl howner)

theorem rootNe_reference (hc : c.handle ∈ owners) (path : Bytes) :
    (c.reference path).All (Code.Expr.RootNe (pipeName n)) ∧ (c.array path).All (Code.Expr.RootNe (pipeName n)) := by
  have howners : ∀ owner ∈ [varsObject, c.handle, taskRegistry, Bytes.ofString "EOF"], owner ∈ owners := by
    simp only [List.forall_mem_cons]
    exact ⟨by decide, hc, by decide, by decide, nofun⟩
  obtain ⟨⟨_, href, hreference⟩, ⟨_, harr, harray⟩⟩ := owned_reference c path
  exact ⟨rootNe_owned (howners _ href) hreference, rootNe_owned (howners _ harr) harray⟩

theorem IsFunction.free {fn : List Bytes} (h : IsFunction fn) (args : List Code.Arg) : Free (.call fn args) := by
  cases h with
  | task _ => exact free_of_root rfl (by decide)
  | cast type =>
    unfold castFunction
    repeat' split
    all_goals exact free_of_root rfl (by decide)
  | conversion h =>
    unfold conversion? at h
    split at h
    all_goals cases h
    all_goals exact free_of_root rfl (by decide)
  | locals => exact free_of_root rfl (by decide)

theorem root_of_isBare {e : Code.Expr} (h : e.isBare = true) : e.root = none := by
  cases e <;> first | rfl | cases h

/-- The code of expressions begins nowhere with a temporary. -/
theorem pervades_rootNe (hc : c.handle ∈ owners) (n : Nat) : Pervades c (Code.Expr.RootNe (pipeName n)) where
  one := nofun
  constant := rootNe_constant
  reference _ := (rootNe_reference hc _).1
  array _ := (rootNe_reference hc _).2
  call hfn _ := rootNe_of_free n (hfn.free _)
  bare h := by
    rw [Code.Expr.RootNe, root_of_isBare h]
    exact nofun

/-! ## Tasks -/

/-- The arguments that a task call has before those of the pipes. -/
def TaskCall.ownArgs (c : Context) (t : TaskCall) : List Code.Arg :=
  Arg.lowerAll c t.args ++ t.redirections.map (Redirection.lower c) ++ t.packageArgs

theorem free_taskPath (task : Bytes) (args : List Code.Arg) : Free (.call (taskPath task) args) := by
  unfold taskPath
  repeat' split
  all_goals exact free_of_root rfl (by decide)

/-- Only a package definition is the function of package definitions. -/
theorem taskPath_eq_iff {task : Bytes} : taskPath task = packagePath ↔ task = "package" := by
  constructor
  · intro h
    have hrenamed : ∀ name ∈ ["clPrint", "clPrintf", "clChdir", "clError"], ([Bytes.ofString "iraf", Bytes.ofString name]) ≠ packagePath := by
      decide
    simp only [List.forall_mem_cons] at hrenamed
    obtain ⟨hprint, hprintf, hcd, herror, -⟩ := hrenamed
    unfold taskPath at h
    repeat' split at h
    · exact absurd h hprint
    · exact absurd h hprintf
    · exact absurd h hcd
    · exact absurd h herror
    · have hparts : (Code.parts task).map Code.identifier = ["package"] := (List.cons.inj h).2
      obtain ⟨part, hpart, hidentifier⟩ := List.map_eq_singleton_iff.mp hparts
      have hname := Code.eq_of_identifier (by decide) (by decide) hidentifier
      have hjoin := Bytes.join_pieces (Bytes.ascii '.') task
      rw [← hjoin]
      show Bytes.join _ (Code.parts task) = _
      rw [hpart, hname]
      rfl
  · rintro rfl
    rfl

theorem pipeName_not_mem (n : Nat) : pipeName n ∉ packageNames := by
  have hnames : ∀ x ∈ packageNames, x.take 2 ≠ [80, 105] := by decide
  exact fun h => hnames _ h (pipeName_take n)

/-- A task call has nothing to do with temporaries but for those of its pipes. -/
theorem all_ownArgs (hc : c.handle ∈ owners) {t : TaskCall} (h : t.Holds .lexed) (n : Nat) :
    Code.Arg.AllOf (Code.Expr.RootNe (pipeName n)) (t.ownArgs c) := by
  have hP := pervades_rootNe hc n
  have hargs : Code.Arg.AllOf (Code.Expr.RootNe (pipeName n)) (Arg.lowerAll c t.args) :=
    Arg.all_lowerAll hP t.args (Arg.allOf_iff.mpr fun a ha => (h.args a ha).2)
  have hfiles : Code.Arg.AllOf (Code.Expr.RootNe (pipeName n)) (t.redirections.map (Redirection.lower c)) := by
    rw [Code.Arg.allOf_iff, List.forall_mem_map]
    exact fun r hr => r.file.all_lower hP (h.redirections r hr).2
  have hpackage : Code.Arg.AllOf (Code.Expr.RootNe (pipeName n)) t.packageArgs := by
    unfold TaskCall.packageArgs
    split
    · rw [Code.Arg.allOf_iff, List.forall_mem_map]
      intro name hname hroot
      cases hroot
      exact pipeName_not_mem n hname
    · trivial
  exact Code.Arg.allOf_append.mpr ⟨Code.Arg.allOf_append.mpr ⟨hargs, hfiles⟩, hpackage⟩

theorem avoids_call (hc : c.handle ∈ owners) {t : TaskCall} (h : t.Holds .lexed) {n : Nat} {names : List Bytes}
    (hnames : pipeName n ∉ names) {extra : List Code.Arg} (hextra : Code.Arg.AllOf (Code.Expr.RootNe (pipeName n)) extra) :
    (t.lower c names extra).Avoids (pipeName n) := by
  refine ⟨?_, rootNe_of_free n (free_taskPath _ _), Code.Arg.allOf_append.mpr ⟨all_ownArgs hc h n, hextra⟩⟩
  show pipeName n ∉ if t.task = "package" then packageNames else names
  split
  · exact pipeName_not_mem n
  · exact hnames

theorem writes_call (hc : c.handle ∈ owners) {t : TaskCall} (h : t.Holds .lexed) {n : Nat} {extra : List Code.Arg}
    (hextra : Code.Arg.AllOf (Code.Expr.RootNe (pipeName n)) extra)
    (hstdout : Code.Arg.keyword "Stdout" (.number "1") ∈ extra) : Writes (pipeName n) (t.lower c [pipeName n] extra) := by
  refine ⟨_, _, _, rfl, ?_, List.mem_append_right _ hstdout, rootNe_of_free n (free_taskPath _ _),
    Code.Arg.allOf_append.mpr ⟨all_ownArgs hc h n, hextra⟩⟩
  simp only [taskPath_eq_iff]

theorem reads_call (hc : c.handle ∈ owners) {t : TaskCall} (h : t.Holds .lexed) {n : Nat} {names : List Bytes}
    (hnames : pipeName n ∉ names) {extra : List Code.Arg} (hextra : Code.Arg.AllOf (Code.Expr.RootNe (pipeName n)) extra) :
    Reads (pipeName n) (t.lower c names (inputArgs (some (pipeName n)) ++ extra)) := by
  refine ⟨_, _, t.ownArgs c, extra, rfl, ?_, rootNe_of_free n (free_taskPath _ _),
    Code.Arg.allOf_append.mpr ⟨all_ownArgs hc h n, hextra⟩⟩
  split
  · exact pipeName_not_mem n
  · exact hnames

/-! ## Pipelines -/

theorem rootNe_inputArgs {input : Option Nat} {n : Nat} (h : some n ≠ input) :
    Code.Arg.AllOf (Code.Expr.RootNe (pipeName n)) (inputArgs (input.map pipeName)) := by
  cases input with
  | none => trivial
  | some m =>
    refine ⟨fun hroot => h ?_, trivial⟩
    rw [pipeName_injective (Option.some.inj hroot)]

theorem avoids_dropPipe {input : Option Nat} {n : Nat} (h : some n ≠ input) :
    ∀ s ∈ Code.Stmt.allSteps (dropPipe (input.map pipeName)), s.Avoids (pipeName n) := by
  cases input with
  | none => exact nofun
  | some m =>
    refine List.forall_mem_singleton.mpr ⟨fun hmem => h ?_, trivial⟩
    rw [pipeName_injective (List.mem_singleton.mp hmem)]

/-- A stage that writes to the next temporary comes before the stages that begin to read from that. It reads from its input,
which is dropped after it. -/
theorem Piped.stage {input : Option Nat} {low high : Nat} {s : Code.Stmt} {later : List Code.Stmt} (hinput : ∀ n ∈ input, n ≤ low)
    (hwrites : Writes (pipeName (low + 1)) s) (hreads : ∀ n ∈ input, Reads (pipeName n) s)
    (havoids : ∀ n, some n ≠ input → n ≠ low + 1 → s.Avoids (pipeName n)) (h : Piped (some (low + 1)) (low + 1) high later) :
    Piped input low high (s :: (Code.Stmt.allSteps (dropPipe (input.map pipeName)) ++ later)) where
  le := Nat.le_of_succ_le h.le
  handed n hlow hhigh := by
    have hfresh : some n ≠ input := by
      rintro rfl
      exact Nat.lt_irrefl _ (Nat.lt_of_lt_of_le hlow (hinput n rfl))
    rcases Nat.lt_or_eq_of_le (Nat.succ_le_of_lt hlow) with hlow' | rfl
    -- a temporary of the later stages
    · have hhanded := (h.handed n hlow' hhigh).after (avoids_dropPipe hfresh)
      exact hhanded.after (List.forall_mem_singleton.mpr (havoids n hfresh (Nat.ne_of_gt hlow')))
    -- the temporary between this stage and the next
    · obtain ⟨reader, after, hlater, hreader, hafter⟩ := h.reads _ rfl
      refine ⟨[], s, _, reader, after, congrArg _ (congrArg _ hlater), hwrites, hreader, ?_⟩
      exact List.forall_mem_append.mpr ⟨avoids_dropPipe hfresh, hafter⟩
  avoids n hn hne := by
    have hle := h.le
    have hnext : n ≠ low + 1 := by omega
    refine List.forall_mem_cons.mpr ⟨havoids n hne hnext, List.forall_mem_append.mpr ⟨avoids_dropPipe hne, ?_⟩⟩
    exact h.avoids n (hn.imp_left Nat.le_succ_of_le) fun heq => hnext (Option.some.inj heq)
  reads := by
    rintro n ⟨⟩
    have hlow : n ≤ low := hinput n rfl
    refine ⟨s, later, rfl, hreads n rfl, h.avoids n (.inl (Nat.le_succ_of_le hlow)) fun heq => ?_⟩
    exact Nat.ne_of_lt (Nat.lt_succ_of_le hlow) (Option.some.inj heq)

/-- The stages of a pipeline hand on the temporaries that they take, and the first one reads from its input. -/
theorem StagesLower.piped (hc : c.handle ∈ owners) {stdin : Option Bytes} {calls : List TaskCall} {p q : Progress}
    {code : List Code.Stmt} (h : StagesLower c stdin calls p code q) : (∀ t ∈ calls, t.Holds .lexed) →
      ∀ input : Option Nat, stdin = input.map pipeName → (∀ n ∈ input, n ≤ p.pipes ∧ calls ≠ []) →
      Piped input p.pipes q.pipes (Code.Stmt.allSteps code) := by
  induction h with
  | nil =>
    intro _ input _ hinput
    cases input with
    | none => exact piped_nil _
    | some n => exact absurd rfl (hinput n rfl).2
  | @last stdin t p =>
    rintro hcalls input rfl -
    rw [List.forall_mem_singleton] at hcalls
    show Piped input p.pipes p.pipes (t.lower c [] (inputArgs (input.map pipeName)) ::
      Code.Stmt.allSteps (dropPipe (input.map pipeName)))
    refine ⟨Nat.le_refl _, fun n hlow hhigh => absurd hhigh (Nat.not_le.mpr hlow), fun n _ hn => ?_, ?_⟩
    · exact List.forall_mem_cons.mpr ⟨avoids_call hc hcalls List.not_mem_nil (rootNe_inputArgs hn), avoids_dropPipe hn⟩
    · rintro n ⟨⟩
      refine ⟨_, [], rfl, ?_, nofun⟩
      have hreads : Reads (pipeName n) (t.lower c [] (inputArgs (some (pipeName n)) ++ [])) :=
        reads_call hc hcalls List.not_mem_nil trivial
      exact hreads
  | @stage stdin t next rest p code q _ ih =>
    rintro hcalls input rfl hinput
    rw [List.forall_mem_cons] at hcalls
    have hlater : Piped (some (p.pipes + 1)) (p.pipes + 1) q.pipes (Code.Stmt.allSteps code) :=
      ih hcalls.2 (some (p.pipes + 1)) rfl (by rintro _ ⟨⟩; exact ⟨Nat.le_refl _, List.cons_ne_nil _ _⟩)
    have hbound : ∀ n ∈ input, n ≤ p.pipes := fun n hn => (hinput n hn).1
    let stdout := Code.Arg.keyword "Stdout" (.number "1")
    have hstdout (n : Nat) : Code.Arg.AllOf (Code.Expr.RootNe (pipeName n)) [stdout] := ⟨nofun, trivial⟩
    have hextra {n : Nat} (hn : some n ≠ input) :
        Code.Arg.AllOf (Code.Expr.RootNe (pipeName n)) (inputArgs (input.map pipeName) ++ [stdout]) :=
      Code.Arg.allOf_append.mpr ⟨rootNe_inputArgs hn, hstdout n⟩
    have hother {n : Nat} (hn : n ≠ p.pipes + 1) : pipeName n ∉ [pipeName (p.pipes + 1)] :=
      fun h => hn (pipeName_injective (List.mem_singleton.mp h))
    show Piped input p.pipes _ (t.lower c [pipeName (p.pipes + 1)] (inputArgs (input.map pipeName) ++ [stdout]) ::
      Code.Stmt.allSteps (dropPipe (input.map pipeName) ++ code))
    rw [Code.allSteps_append]
    refine hlater.stage hbound ?_ ?_ fun n hn hne => avoids_call hc hcalls.1 (hother hne) (hextra hn)
    · have hfresh : some (p.pipes + 1) ≠ input := by
        rintro rfl
        exact Nat.not_succ_le_self _ (hbound _ rfl)
      exact writes_call hc hcalls.1 (hextra hfresh) (by simp [stdout])
    · rintro n ⟨⟩
      exact reads_call hc hcalls.1 (hother (Nat.ne_of_lt (Nat.lt_succ_of_le (hbound n rfl)))) (hstdout n)

/-! ## Statements -/

theorem avoids_assignment (hc : c.handle ∈ owners) {a : Assignment} (h : a.Holds .lexed) (n : Nat) :
    (a.lower c).Avoids (pipeName n) := by
  have hP := pervades_rootNe hc n
  refine ⟨?_, all_assignment hP h⟩
  have hbound := Code.not_mem_bound (all_target hP h.1)
  obtain ⟨target, op, value⟩ := a
  cases op <;> exact hbound

theorem steps_assignment (a : Assignment) : (a.lower c).steps = [a.lower c] := by
  obtain ⟨target, op, value⟩ := a
  cases op <;> rfl

theorem piped_assignments (hc : c.handle ∈ owners) {a : Option Assignment} (h : ∀ x ∈ a, x.Holds .lexed) (low : Nat) :
    Piped none low low (Code.Stmt.allSteps (a.toList.map (Assignment.lower c))) := by
  cases a with
  | none => exact piped_nil low
  | some a =>
    show Piped none low low ((a.lower c).steps ++ [])
    rw [List.append_nil, steps_assignment]
    exact piped_of_avoids low fun n => List.forall_mem_singleton.mpr (avoids_assignment hc (h a rfl) n)

/-- The head of an `if` block has nothing to do with temporaries if its test has not. -/
theorem avoids_choose {test : Code.Expr} {n : Nat} (h : test.All (Code.Expr.RootNe (pipeName n))) :
    (Code.Stmt.choose test [] .none).Avoids (pipeName n) := ⟨List.not_mem_nil, h, trivial, trivial⟩

theorem avoids_loop {test : Code.Expr} {n : Nat} (h : test.All (Code.Expr.RootNe (pipeName n))) :
    (Code.Stmt.loop test []).Avoids (pipeName n) := ⟨List.not_mem_nil, h, trivial⟩

theorem steps_elseChain (folds : Bool) (body : List Code.Stmt) : (elseChain folds body).steps = Code.Stmt.allSteps body := by
  unfold elseChain
  split
  · simp [Code.Stmt.allSteps, Code.Stmt.steps, Code.Chain.steps]
  · rfl

/-- The steps in the cases of a switch. -/
def caseSteps (cases : List Case) : List Code.Stmt := cases.flatMap fun x => .choose x.1 [] .none :: Code.Stmt.allSteps x.2

theorem steps_caseChain (otherwise : Option (List Code.Stmt)) (cases : List Case) :
    (caseChain otherwise cases).steps = caseSteps cases ++ otherwise.toList.flatMap Code.Stmt.allSteps := by
  induction cases with
  | nil => cases otherwise <;> simp [caseChain, caseSteps, Code.Chain.steps]
  | cons x cases ih => simp [caseChain, caseSteps, Code.Chain.steps, ih]

theorem piped_switchChain {low mid high : Nat} {otherwise : Option (List Code.Stmt)} {cases : List Case}
    (hcases : Piped none low mid (caseSteps cases))
    (hdefault : Piped none mid high (otherwise.toList.flatMap Code.Stmt.allSteps)) :
    Piped none low high (Code.Stmt.allSteps (switchChain otherwise cases)) := by
  have hall := hcases.append hdefault
  cases cases with
  | nil =>
    cases otherwise with
    | none => exact hall
    | some body =>
      have hone : ∀ n, (Code.Stmt.choose (.number "1") [] .none).Avoids (pipeName n) := fun n => avoids_choose nofun
      simpa [switchChain, caseSteps, Code.Stmt.allSteps, Code.Stmt.steps, Code.Chain.steps] using hall.cons hone
  | cons x cases =>
    simpa [switchChain, caseSteps, Code.Stmt.allSteps, Code.Stmt.steps, steps_caseChain] using hall

theorem rootNe_switchName (m n : Nat) : (Code.Expr.name (switchName m)).All (Code.Expr.RootNe (pipeName n)) := by
  intro hroot
  have hhead : some 83 = some (80 : UInt8) := congrArg List.head? (Option.some.inj hroot)
  exact absurd hhead (by decide)

theorem avoids_switch (hc : c.handle ∈ owners) {subject : Expr} (h : subject.All Expr.IsLexed) (m n : Nat) :
    (Code.Stmt.assign (.name (switchName m)) (subject.lower c)).Avoids (pipeName n) := by
  have hname := rootNe_switchName m n
  exact ⟨Code.not_mem_bound hname, hname, subject.all_lower (pervades_rootNe hc n) h⟩

mutual

/-- The steps of a statement hand on the temporaries that it takes. -/
theorem Stmt.Lowers.piped (hc : c.handle ∈ owners) {s : Stmt} {p q : Progress} {code : List Code.Stmt} :
    s.Lowers c p code q → s.Holds .lexed → Piped none p.pipes q.pipes (Code.Stmt.allSteps code)
  | .empty, _ => piped_nil p.pipes
  | .labelled hbody, h => hbody.piped hc h.2
  | .assign, h => piped_assignments hc (a := some _) (by rintro _ ⟨⟩; exact h) p.pipes
  | .pipeline hstages, h => hstages.piped hc h none rfl nofun
  | .leave, _ => piped_of_avoids p.pipes fun _ => List.forall_mem_singleton.mpr ⟨List.not_mem_nil, trivial⟩
  | .next, _ => piped_of_avoids p.pipes fun _ => List.forall_mem_singleton.mpr ⟨List.not_mem_nil, trivial⟩
  | .done, _ => piped_of_avoids p.pipes fun _ => List.forall_mem_singleton.mpr ⟨List.not_mem_nil, trivial⟩
  | .jump, _ => piped_nil p.pipes
  | .block hbody, h => hbody.piped hc h
  | .branch hyes, h => by
    have htest (n : Nat) := avoids_choose (Expr.all_lower (pervades_rootNe hc n) _ h.1)
    simpa [Code.Stmt.allSteps, Code.Stmt.steps, Code.Chain.steps] using (hyes.piped hc h.2).cons htest
  | .branchElse hyes hno, h => by
    have htest (n : Nat) := avoids_choose (Expr.all_lower (pervades_rootNe hc n) _ h.1)
    have hbodies := (hyes.piped hc h.2.1).append (hno.piped hc h.2.2)
    simpa [Code.Stmt.allSteps, Code.Stmt.steps, steps_elseChain] using hbodies.cons htest
  | .loop hbody, h => by
    have htest (n : Nat) := avoids_loop (Expr.all_lower (pervades_rootNe hc n) _ h.1)
    simpa [Code.Stmt.allSteps, Code.Stmt.steps] using (hbody.piped hc h.2).cons htest
  | .forLoop hlowers, h => by
    obtain ⟨hfirst, htest, hstep, hbody⟩ := h
    have hbodies := (hlowers.piped hc hbody).append (piped_assignments hc hstep _)
    rw [Code.allSteps_append]
    refine (piped_assignments hc hfirst p.pipes).append ?_
    simpa [Code.Stmt.allSteps, Code.Stmt.steps, Code.allSteps_append] using
      hbodies.cons fun n => avoids_loop (all_testCode (pervades_rootNe hc n) htest)
  | .switch hcases hdefault, h =>
    (piped_switchChain (hcases.piped hc (rootNe_switchName _) h.2) (hdefault.piped hc h.2)).cons fun n =>
      avoids_switch hc h.1 (p.switches + 1) n

theorem Stmt.AllLower.piped (hc : c.handle ∈ owners) {ss : List Stmt} {p q : Progress} {code : List Code.Stmt} :
    Stmt.AllLower c ss p code q → Stmt.AllHold .lexed ss → Piped none p.pipes q.pipes (Code.Stmt.allSteps code)
  | .nil, _ => piped_nil p.pipes
  | .cons hs hss, h => by
    rw [Code.allSteps_append]
    exact (hs.piped hc h.1).append (hss.piped hc h.2)

theorem Clause.CasesLower.piped (hc : c.handle ∈ owners) {subject : Code.Expr} {seen : Bool} {clauses : List Clause}
    {p q : Progress} {cases : List Case} : Clause.CasesLower c subject seen clauses p cases q →
      (∀ n, subject.All (Code.Expr.RootNe (pipeName n))) → Clause.AllHold .lexed clauses →
      Piped none p.pipes q.pipes (caseSteps cases)
  | .nil, _, _ => piped_nil p.pipes
  | .case hbody hrest, hsubject, h => by
    have hcase := (hbody.piped hc h.2.1).cons fun n => avoids_choose (all_case (pervades_rootNe hc n) (hsubject n) h.1.2)
    exact hcase.append (hrest.piped hc hsubject h.2.2)
  | .otherwise hrest, hsubject, h => by simpa using hrest.piped hc hsubject h.2

theorem Clause.DefaultLowers.piped (hc : c.handle ∈ owners) {clauses : List Clause} {p q : Progress}
    {code : Option (List Code.Stmt)} : Clause.DefaultLowers c clauses p code q → Clause.AllHold .lexed clauses →
      Piped none p.pipes q.pipes (code.toList.flatMap Code.Stmt.allSteps)
  | .nil, _ => piped_nil p.pipes
  | .case hrest, h => hrest.piped hc h.2.2
  | .earlier _ hrest, h => hrest.piped hc h.2
  | .last _ hbody, h => by
    rw [Option.toList_some, List.flatMap_singleton]
    exact hbody.piped hc h.1

end

theorem Stmt.piped_lowerAll (hc : c.handle ∈ owners) (ss : List Stmt) (h : Stmt.AllHold .lexed ss) (p : Progress) :
    Piped none p.pipes ((Stmt.lowerAll c ss).run p).2.pipes (Code.Stmt.allSteps ((Stmt.lowerAll c ss).run p).1) :=
  (Stmt.allLower c ss p).piped hc h

end Lowering

/-! ## Compiled texts -/

/-- A text is refused, or compiled. Each of the temporaries of its pipelines, and no other, is handed on in the steps of its
statements: bound by the one stage that writes to it, unless that is a package definition, read by the one stage after
that and dropped right after. No other step has to do with it. -/
theorem compile_pipes [Library] (st : Settings) (source : Bytes) : (∃ halt, (compile st source).outcome = .error halt) ∨
    ∃ u t scope body stmts p, (compile st source).outcome = .ok u ∧ Compiled st source u t scope body stmts p ∧
      ∀ n, if 0 < n ∧ n ≤ p.pipes then HandedOn (pipeName n) (Code.Stmt.allSteps stmts)
        else ∀ s ∈ Code.Stmt.allSteps stmts, s.Avoids (pipeName n) := by
  cases hu : (compile st source).outcome with
  | error halt => exact .inl ⟨halt, rfl⟩
  | ok u =>
    obtain ⟨t, scope, body, stmts, p, h⟩ := exists_compiled hu
    refine .inr ⟨u, t, scope, body, stmts, p, rfl, h, fun n => ?_⟩
    obtain ⟨body', hbody, hall⟩ := exists_body ((Typing.kind?_annotate scope t).trans h.program.1)
      (judges_lexed (Typing.grown_annotate scope h.program.2))
    obtain rfl := Option.some.inj (h.read.symm.trans hbody)
    have hpiped := Stmt.piped_lowerAll (handle_mem_owners scope st.mode) body hall .start
    rw [h.lowered] at hpiped
    split
    · next hn => exact hpiped.handed n hn.1 hn.2
    · next hn =>
      refine hpiped.avoids n ?_ nofun
      show n ≤ 0 ∨ p.pipes < n
      omega

/-- A package definition in a pipeline. -/
def definition : Bytes := "package a | b\n"

def definitionTree : Tree :=
  .branch .program .unset [
    .branch .localDecls .unset [],
    .branch .stmtList .unset [.branch .stmtList .unset [], .branch .statement .unset [
      .branch .simpleStmt .unset [.branch .pipeline .unset [
        .branch .pipeline .unset [.branch .taskCall .unset [
          .leaf ⟨.ident, "package", none, 1⟩,
          .branch .cmdArgs .unset [.branch .cmdArgs .unset [],
            .branch .cmdArg .unset [.branch .cmdWord .unset [.leaf ⟨.ident, "a", none, 1⟩]]],
          .branch .redirs .unset []]],
        .leaf ⟨.pipe, "|", none, 1⟩,
        .branch .taskCall .unset [.leaf ⟨.ident, "b", none, 1⟩, .branch .cmdArgs .unset [], .branch .redirs .unset []]]],
      .branch .term .unset [.leaf ⟨.newline, "\n", none, 1⟩]]]]

theorem tree_definition : tree definition = .ok definitionTree :=
  tree_eq_ok (by decide +kernel) (grown_of_grows rfl) rfl (by decide) (by decide)

/-- The calls `PkgName, PkgBinary = iraf.package('a', PkgName=PkgName, PkgBinary=PkgBinary, Stdout=1)` and
`iraf.b(Stdin=Pipe1)`, and `del Pipe1`. -/
def unbound : List Code.Stmt :=
  [.call ["PkgName", "PkgBinary"] ["iraf", "package"]
      [.mk none true (.string "a"), .keyword "PkgName" (.name "PkgName"), .keyword "PkgBinary" (.name "PkgBinary"),
        .keyword "Stdout" (.number "1")],
    .call [] ["iraf", "b"] [.keyword "Stdin" (.name "Pipe1")],
    .delete "Pipe1"]

/-- The temporary that the second stage reads, and that is dropped after it, is bound nowhere. -/
theorem package_unbound : ∃ u t scope body stmts p, (compile {} definition).outcome = .ok u ∧
    Compiled {} definition u t scope body stmts p ∧ stmts = unbound ∧ Code.Stmt.allSteps unbound = unbound ∧
    ∀ s ∈ unbound, ∀ names fn args, s = .call names fn args → Bytes.ofString "Pipe1" ∉ names := by
  obtain ⟨scope, hscope⟩ : ∃ scope, (declarations {} definitionTree).2 = .ok scope := ⟨_, rfl⟩
  obtain ⟨u, hu, h⟩ := compiles tree_definition hscope rfl rfl rfl
  have hnames : Bytes.ofString "Pipe1" ∉ packageNames := by decide
  refine ⟨u, _, scope, _, _, _, hu, h, rfl, rfl, ?_⟩
  simp only [unbound, List.forall_mem_cons]
  refine ⟨?_, ?_, nofun, nofun⟩
  · rintro _ _ _ ⟨⟩
    exact hnames
  · rintro _ _ _ ⟨⟩
    exact List.not_mem_nil

end IrafCl.Script
