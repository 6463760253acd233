import IrafCl.Code.Stmt

/-!
# Loops around lines

A line stands in the block of a `while` line above it if it and every line between the two are deeper than the `while`
(`InLoop`). A `break` or a `continue` that stands in no such block is one that stands outside all loops of the statements
that the lines are printed from (`Stmt.nested_allLines`). So whether the jumps of a text are nested as Python wants them is
a matter of the statements alone.
-/

namespace IrafCl.Code

/-! ## Lines -/

/-- The level of a line: how many tabs it begins with. -/
def depth (line : Bytes) : Nat := (line.takeWhile (· == 9)).length

/-- A line without the tabs that it begins with. -/
def unindented (line : Bytes) : Bytes := line.dropWhile (· == 9)

/-- A line is a `break` or a `continue`. -/
def IsJump (line : Bytes) : Prop := unindented line = "break" ∨ unindented line = "continue"

/-- A line begins a `while` block. -/
def IsWhile (line : Bytes) : Prop := Bytes.ofString "while " <+: unindented line

instance : DecidablePred IsJump := fun _ => inferInstanceAs (Decidable (_ ∨ _))

instance : DecidablePred IsWhile := fun _ => inferInstanceAs (Decidable (_ <+: _))

/-- What comes at a level below some lines is in the block of one of them that begins a `while`. -/
def InLoop (before : List Bytes) (level : Nat) : Prop :=
  ∃ above head between, before = above ++ head :: between ∧ IsWhile head ∧ depth head < level ∧
    ∀ line ∈ between, depth head < depth line

/-- Each jump in some lines, which stand below others, is in the block of a `while`. -/
def Nested (before lines : List Bytes) : Prop :=
  ∀ above line below, lines = above ++ line :: below → IsJump line → InLoop (before ++ above) (depth line)

variable {before lines more : List Bytes} {line head : Bytes} {level : Nat}

theorem tabs (level : Nat) : ∀ b ∈ List.replicate level (9 : UInt8), (b == 9) = true := by
  intro b hb
  rw [List.eq_of_mem_replicate hb]
  rfl

theorem depth_indented (level : Nat) (s : Bytes) : depth (indented level s) = level + depth s := by
  rw [depth, indented, List.takeWhile_append_of_pos (tabs level), List.length_append, List.length_replicate, depth]

theorem unindented_indented (level : Nat) (s : Bytes) : unindented (indented level s) = unindented s := by
  rw [unindented, indented, List.dropWhile_append_of_pos (tabs level), unindented]

/-! ## Lines that are no jumps -/

/-- A line has a byte that no jump has. -/
def Marked (line : Bytes) : Prop := ∃ b ∈ line, b ≠ 9 ∧ Bytes.isLower b = false

theorem Marked.append_left {s : Bytes} (h : Marked s) (t : Bytes) : Marked (t ++ s) := by
  obtain ⟨b, hb, hmark⟩ := h
  exact ⟨b, List.mem_append_right t hb, hmark⟩

theorem Marked.append_right {s : Bytes} (h : Marked s) (t : Bytes) : Marked (s ++ t) := by
  obtain ⟨b, hb, hmark⟩ := h
  exact ⟨b, List.mem_append_left t hb, hmark⟩

theorem Marked.indented {s : Bytes} (h : Marked s) (level : Nat) : Marked (indented level s) := h.append_left _

theorem Marked.not_isJump (h : Marked line) : ¬ IsJump line := by
  obtain ⟨b, hb, htab, hmark⟩ := h
  have hmem : b ∈ unindented line := by
    rw [← List.takeWhile_append_dropWhile (p := (· == 9)) (l := line)] at hb
    rcases List.mem_append.mp hb with hb | hb
    · have heq := List.all_eq_true.mp List.all_takeWhile b hb
      exact absurd (beq_iff_eq.mp heq) htab
    · exact hb
  have hlower {s : Bytes} (h : s = "break" ∨ s = "continue") : s.all Bytes.isLower = true := by
    rcases h with rfl | rfl <;> decide
  intro hjump
  have hb := List.all_eq_true.mp (hlower hjump) b hmem
  rw [hmark] at hb
  cases hb

theorem marked_pieces : ∀ (args : List Bytes), ∀ p ∈ pieces args, Marked p
  | [] => nofun
  | [a] => by
    have hclose : Marked ")" := ⟨41, by decide⟩
    simpa [pieces] using hclose.append_left a
  | a :: b :: rest => by
    have hcomma : Marked "," := ⟨44, by decide⟩
    exact List.forall_mem_cons.mpr ⟨hcomma.append_left a, marked_pieces (b :: rest)⟩

theorem marked_fill (ps : List Bytes) (hps : ∀ p ∈ ps, Marked p) : ∀ (start next : Nat) (line : Bytes), Marked line →
    ∀ l ∈ fill start next line ps, Marked l := by
  induction ps with
  | nil =>
    intro start next line hline
    exact List.forall_mem_singleton.mpr hline
  | cons p ps ih =>
    rw [List.forall_mem_cons] at hps
    intro start next line hline
    rw [fill]
    split
    · exact List.forall_mem_cons.mpr ⟨hline, ih hps.2 next next p hps.1⟩
    · exact ih hps.2 start next _ (hps.1.append_left _)

/-- No line of a call is a jump: each has a parenthesis or a comma. -/
theorem marked_indentedCall (level : Nat) (names fn : List Bytes) (args : List Arg) :
    ∀ l ∈ indentedCall level names fn args, Marked l := by
  have hopen : Marked "(" := ⟨40, by decide⟩
  have hhead : Marked (callHead names fn) := hopen.append_left _
  have hlines : ∀ l ∈ callLines level (callHead names fn) (Arg.texts args), Marked l := by
    have hpieces := marked_pieces (Arg.texts args)
    unfold callLines
    split
    · exact List.forall_mem_singleton.mpr (hhead.append_right _)
    · next p ps heq =>
      rw [heq, List.forall_mem_cons] at hpieces
      exact marked_fill ps hpieces.2 _ _ _ (hhead.append_right p)
  unfold indentedCall
  split
  · exact List.forall_mem_nil _
  · next first rest heq =>
    rw [heq, List.forall_mem_cons] at hlines
    refine List.forall_mem_cons.mpr ⟨hlines.1.indented level, ?_⟩
    rw [List.forall_mem_map]
    exact fun l hl => (hlines.2 l hl).indented (level + 1)

/-! ## Loops above -/

/-- Lines at a level or deeper do not end the blocks that come to that level, and begin none that does. -/
theorem inLoop_append (h : ∀ l ∈ lines, level ≤ depth l) : InLoop (before ++ lines) level ↔ InLoop before level := by
  constructor
  · rintro ⟨above, w, between, heq, hwhile, hdepth, hbetween⟩
    rcases List.append_eq_append_iff.mp heq with ⟨middle, rfl, hlines⟩ | ⟨middle, hbefore, hrest⟩
    · have hw : w ∈ lines := by rw [hlines]; simp
      exact absurd (h w hw) (Nat.not_le.mpr hdepth)
    · cases middle with
      | nil =>
        have hw : w ∈ lines := by rw [List.nil_append] at hrest; rw [← hrest]; exact List.mem_cons_self
        exact absurd (h w hw) (Nat.not_le.mpr hdepth)
      | cons m middle =>
        rw [List.cons_append, List.cons.injEq] at hrest
        obtain ⟨rfl, rfl⟩ := hrest
        exact ⟨above, w, middle, hbefore, hwhile, hdepth, fun l hl => hbetween l (List.mem_append_left _ hl)⟩
  · rintro ⟨above, w, between, rfl, hwhile, hdepth, hbetween⟩
    refine ⟨above, w, between ++ lines, by simp, hwhile, hdepth, ?_⟩
    exact List.forall_mem_append.mpr ⟨hbetween, fun l hl => Nat.lt_of_lt_of_le hdepth (h l hl)⟩

/-- The block of a `while` line. -/
theorem inLoop_while (hwhile : IsWhile head) (hdepth : depth head = level) : InLoop (before ++ [head]) (level + 1) :=
  ⟨before, head, [], rfl, hwhile, by omega, nofun⟩

/-- The block of a line that begins no `while` is in the loops that the line is in. -/
theorem inLoop_head (hwhile : ¬ IsWhile head) (hdepth : depth head = level) :
    InLoop (before ++ [head]) (level + 1) ↔ InLoop before level := by
  constructor
  · rintro ⟨above, w, between, heq, hw, hlevel, hbetween⟩
    rcases List.eq_nil_or_concat between with rfl | ⟨between, last, rfl⟩
    · obtain ⟨-, hlast⟩ := List.append_inj' heq rfl
      cases hlast
      exact absurd hw hwhile
    · rw [List.concat_eq_append, ← List.cons_append, ← List.append_assoc] at heq
      obtain ⟨rfl, hlast⟩ := List.append_inj' heq rfl
      cases hlast
      rw [List.concat_eq_append, List.forall_mem_append, List.forall_mem_singleton] at hbetween
      exact ⟨above, w, between, rfl, hw, hdepth ▸ hbetween.2, hbetween.1⟩
  · rintro ⟨above, w, between, rfl, hw, hlevel, hbetween⟩
    refine ⟨above, w, between ++ [head], by simp, hw, by omega, ?_⟩
    exact List.forall_mem_append.mpr ⟨hbetween, List.forall_mem_singleton.mpr (by omega)⟩

/-! ## Jumps one line after another -/

theorem nested_nil : Nested before [] := by
  intro above line below h
  cases above <;> cases h

theorem nested_cons :
    Nested before (line :: lines) ↔ (IsJump line → InLoop before (depth line)) ∧ Nested (before ++ [line]) lines := by
  constructor
  · refine fun h => ⟨fun hjump => ?_, fun above l below heq hjump => ?_⟩
    · simpa using h [] line lines rfl hjump
    · simpa using h (line :: above) l below (by rw [heq]; rfl) hjump
  · rintro ⟨hline, hlines⟩ above l below heq hjump
    cases above with
    | nil =>
      cases heq
      simpa using hline hjump
    | cons a above =>
      cases heq
      simpa using hlines above l below rfl hjump

theorem nested_append : Nested before (lines ++ more) ↔ Nested before lines ∧ Nested (before ++ lines) more := by
  induction lines generalizing before with
  | nil => simp [nested_nil]
  | cons line lines ih => rw [List.cons_append, nested_cons, nested_cons, ih, and_assoc, List.append_assoc, List.singleton_append]

theorem nested_of_not_isJump (h : ∀ l ∈ lines, ¬ IsJump l) : Nested before lines := by
  rintro above line below rfl hjump
  exact absurd hjump (h line (by simp))

theorem nested_of_marked (h : ∀ l ∈ lines, Marked l) : Nested before lines :=
  nested_of_not_isJump fun l hl => (h l hl).not_isJump

theorem nested_jump {s : Bytes} (hjump : IsJump s) (hdepth : depth s = 0) :
    Nested before [indented level s] ↔ InLoop before level := by
  rw [nested_cons, depth_indented, hdepth, Nat.add_zero]
  unfold IsJump at *
  rw [unindented_indented]
  exact ⟨fun h => h.1 hjump, fun h => ⟨fun _ => h, nested_nil⟩⟩

/-! ## Statements -/

mutual

/-- Whether a `break` or a `continue` stands in a statement outside all loops in it. -/
def Stmt.hasJump : Stmt → Bool
  | .leave | .next => true
  | .choose _ body rest => Stmt.anyJump body || rest.hasJump
  | _ => false

def Stmt.anyJump : List Stmt → Bool
  | [] => false
  | s :: ss => s.hasJump || Stmt.anyJump ss

def Chain.hasJump : Chain → Bool
  | .none => false
  | .elseIf _ body rest => Stmt.anyJump body || rest.hasJump
  | .otherwise body => Stmt.anyJump body

end

theorem anyJump_append (xs ys : List Stmt) : Stmt.anyJump (xs ++ ys) = (Stmt.anyJump xs || Stmt.anyJump ys) := by
  induction xs with
  | nil => rfl
  | cons x xs ih => rw [List.cons_append, Stmt.anyJump, ih, Stmt.anyJump, Bool.or_assoc]

theorem le_depth_indented (level : Nat) (s : Bytes) : level ≤ depth (indented level s) := by
  rw [depth_indented]
  exact Nat.le_add_right _ _

theorem le_depth_indentedCall (level : Nat) (names fn : List Bytes) (args : List Arg) :
    ∀ l ∈ indentedCall level names fn args, level ≤ depth l := by
  unfold indentedCall
  split
  · exact List.forall_mem_nil _
  · refine List.forall_mem_cons.mpr ⟨le_depth_indented _ _, ?_⟩
    rw [List.forall_mem_map]
    exact fun l _ => Nat.le_of_succ_le (le_depth_indented (level + 1) l)

/-- A block is as deep as the statements in it. -/
theorem le_depth_blockLines (h : ∀ l ∈ lines, level + 1 ≤ depth l) : ∀ l ∈ blockLines (level + 1) lines, level ≤ depth l := by
  unfold blockLines
  split
  · exact List.forall_mem_singleton.mpr (Nat.le_of_succ_le (le_depth_indented _ _))
  · exact fun l hl => Nat.le_of_succ_le (h l hl)

mutual

/-- The lines of a statement are at its level or deeper. -/
theorem Stmt.le_depth_lines (level : Nat) : ∀ (s : Stmt), ∀ l ∈ s.lines level, level ≤ depth l
  | .assign _ _ => List.forall_mem_singleton.mpr (le_depth_indented _ _)
  | .update _ _ _ => List.forall_mem_singleton.mpr (le_depth_indented _ _)
  | .call names fn args => le_depth_indentedCall level names fn args
  | .delete _ => List.forall_mem_singleton.mpr (le_depth_indented _ _)
  | .leave => List.forall_mem_singleton.mpr (le_depth_indented _ _)
  | .next => List.forall_mem_singleton.mpr (le_depth_indented _ _)
  | .done => List.forall_mem_singleton.mpr (le_depth_indented _ _)
  | .loop _ body =>
    List.forall_mem_cons.mpr ⟨le_depth_indented _ _, le_depth_blockLines (Stmt.le_depth_allLines (level + 1) body)⟩
  | .choose _ body rest => by
    rw [Stmt.lines, List.forall_mem_cons, List.forall_mem_append]
    exact ⟨le_depth_indented _ _, le_depth_blockLines (Stmt.le_depth_allLines (level + 1) body), rest.le_depth_lines level⟩

theorem Stmt.le_depth_allLines (level : Nat) : ∀ (ss : List Stmt), ∀ l ∈ Stmt.allLines level ss, level ≤ depth l
  | [] => nofun
  | s :: ss => List.forall_mem_append.mpr ⟨s.le_depth_lines level, Stmt.le_depth_allLines level ss⟩

theorem Chain.le_depth_lines (level : Nat) : ∀ (r : Chain), ∀ l ∈ r.lines level, level ≤ depth l
  | .none => nofun
  | .elseIf _ body rest => by
    rw [Chain.lines, List.forall_mem_cons, List.forall_mem_append]
    exact ⟨le_depth_indented _ _, le_depth_blockLines (Stmt.le_depth_allLines (level + 1) body), rest.le_depth_lines level⟩
  | .otherwise body =>
    List.forall_mem_cons.mpr ⟨le_depth_indented _ _, le_depth_blockLines (Stmt.le_depth_allLines (level + 1) body)⟩

end

/-! ## Heads of blocks -/

/-- A head of a block is no jump, and begins a `while` or not. -/
structure Heads (level : Nat) (head : Bytes) (loops : Bool) : Prop where
  depth : depth head = level
  marked : Marked head
  isWhile : IsWhile head ↔ loops = true

theorem heads_indented {s : Bytes} {loops : Bool} (hdepth : depth s = 0) (hmarked : Marked s) (hwhile : IsWhile s ↔ loops = true) :
    Heads level (indented level s) loops := by
  refine ⟨by rw [depth_indented, hdepth, Nat.add_zero], hmarked.indented level, ?_⟩
  rw [← hwhile, IsWhile, IsWhile, unindented_indented]

theorem not_isWhile_of_head (h : (unindented line).head? ≠ some 119) : ¬ IsWhile line := by
  rintro ⟨rest, heq⟩
  exact h (by rw [← heq]; rfl)

theorem heads_while (level : Nat) (test : Bytes) : Heads level (indented level ("while " ++ test ++ ":")) true := by
  have hcolon : Marked ":" := ⟨58, by decide⟩
  refine heads_indented rfl (hcolon.append_left _) ⟨fun _ => rfl, fun _ => ?_⟩
  exact ⟨test ++ ":", (List.append_assoc _ _ _).symm⟩

theorem heads_if (level : Nat) (test : Bytes) : Heads level (indented level ("if " ++ test ++ ":")) false := by
  have hcolon : Marked ":" := ⟨58, by decide⟩
  refine heads_indented rfl (hcolon.append_left _) (iff_of_false (not_isWhile_of_head ?_) nofun)
  show some 105 ≠ some 119
  decide

theorem heads_elif (level : Nat) (test : Bytes) : Heads level (indented level ("elif " ++ test ++ ":")) false := by
  have hcolon : Marked ":" := ⟨58, by decide⟩
  refine heads_indented rfl (hcolon.append_left _) (iff_of_false (not_isWhile_of_head ?_) nofun)
  show some 101 ≠ some 119
  decide

theorem heads_else (level : Nat) : Heads level (indented level "else:") false := by
  refine heads_indented rfl ⟨58, by decide⟩ (iff_of_false (not_isWhile_of_head ?_) nofun)
  decide

theorem nested_blockLines : Nested before (blockLines level lines) ↔ Nested before lines := by
  unfold blockLines
  split
  · next hempty =>
    have hpass : ¬ IsJump "pass" := by decide
    rw [List.isEmpty_iff.mp hempty]
    refine iff_of_true (nested_of_not_isJump (List.forall_mem_singleton.mpr ?_)) nested_nil
    rwa [IsJump, unindented_indented]
  · rfl

/-- The jumps below a head: those of its block, which may be in a loop of the head, and those of what follows. -/
theorem nested_suite {loops : Bool} {rest : List Bytes} (hhead : Heads level head loops) (hlines : ∀ l ∈ lines, level + 1 ≤ depth l)
    {jumps more : Bool} (hbody : ∀ before, Nested before lines ↔ InLoop before (level + 1) ∨ jumps = false)
    (hrest : ∀ before, Nested before rest ↔ InLoop before level ∨ more = false) :
    Nested before (head :: (blockLines (level + 1) lines ++ rest)) ↔
      InLoop before level ∨ ((!loops && jumps) || more) = false := by
  have hblock : ∀ l ∈ head :: blockLines (level + 1) lines, level ≤ depth l :=
    List.forall_mem_cons.mpr ⟨Nat.le_of_eq hhead.depth.symm, le_depth_blockLines hlines⟩
  have hmore := hrest (before ++ head :: blockLines (level + 1) lines)
  rw [inLoop_append hblock] at hmore
  rw [← List.cons_append, nested_append, hmore, nested_cons, nested_blockLines, hbody]
  have hjump := hhead.marked.not_isJump
  cases loops with
  | true =>
    have hinside : InLoop (before ++ [head]) (level + 1) := inLoop_while (hhead.isWhile.mpr rfl) hhead.depth
    simp [hjump, hinside]
  | false =>
    have houtside : InLoop (before ++ [head]) (level + 1) ↔ InLoop before level :=
      inLoop_head (fun h => nomatch hhead.isWhile.mp h) hhead.depth
    rw [houtside]
    simp only [hjump, false_implies, true_and, Bool.not_false, Bool.true_and, Bool.or_eq_false_iff]
    exact or_and_left.symm

/-- The jumps below a head that nothing follows. -/
theorem nested_suite_only {loops : Bool} (hhead : Heads level head loops) (hlines : ∀ l ∈ lines, level + 1 ≤ depth l)
    {jumps : Bool} (hbody : ∀ before, Nested before lines ↔ InLoop before (level + 1) ∨ jumps = false) :
    Nested before (head :: blockLines (level + 1) lines) ↔ InLoop before level ∨ (!loops && jumps) = false := by
  have hnothing (before : List Bytes) : Nested before [] ↔ InLoop before level ∨ false = false :=
    iff_of_true nested_nil (.inr rfl)
  have h : Nested before (head :: (blockLines (level + 1) lines ++ [])) ↔ _ := nested_suite hhead hlines hbody hnothing
  rwa [List.append_nil, Bool.or_false] at h

mutual

/-- The jumps of a statement are in loops if they are in loops of the statement, or else the statement is in one. -/
theorem Stmt.nested_lines (level : Nat) : ∀ (s : Stmt) (before : List Bytes),
    Nested before (s.lines level) ↔ InLoop before level ∨ s.hasJump = false
  | .assign target value, before => by
    have hequals : Marked " = " := ⟨61, by decide⟩
    refine iff_of_true (nested_of_marked (List.forall_mem_singleton.mpr ?_)) (.inr rfl)
    exact ((hequals.append_left _).append_right _).indented level
  | .update target op value, before => by
    have hequals : Marked "= " := ⟨61, by decide⟩
    refine iff_of_true (nested_of_marked (List.forall_mem_singleton.mpr ?_)) (.inr rfl)
    exact ((hequals.append_left _).append_right _).indented level
  | .call names fn args, before => iff_of_true (nested_of_marked (marked_indentedCall level names fn args)) (.inr rfl)
  | .delete name, before => by
    have hblank : Marked "del " := ⟨32, by decide⟩
    exact iff_of_true (nested_of_marked (List.forall_mem_singleton.mpr ((hblank.append_right _).indented level))) (.inr rfl)
  | .leave, before => by
    rw [Stmt.lines, nested_jump (.inl rfl) rfl]
    simp [Stmt.hasJump]
  | .next, before => by
    rw [Stmt.lines, nested_jump (.inr rfl) rfl]
    simp [Stmt.hasJump]
  | .done, before => by
    have hreturn : ¬ IsJump "return" := by decide
    refine iff_of_true (nested_of_not_isJump (List.forall_mem_singleton.mpr ?_)) (.inr rfl)
    rwa [IsJump, unindented_indented]
  | .loop test body, before => by
    rw [Stmt.lines, nested_suite_only (heads_while level test.text) (Stmt.le_depth_allLines (level + 1) body)
      (Stmt.nested_allLines (level + 1) body)]
    rfl
  | .choose test body rest, before => by
    rw [Stmt.lines, nested_suite (heads_if level test.text) (Stmt.le_depth_allLines (level + 1) body)
      (Stmt.nested_allLines (level + 1) body) (rest.nested_lines level)]
    rfl

/-- The jumps of statements are in loops if they are in loops of the statements, or else these are in one. -/
theorem Stmt.nested_allLines (level : Nat) : ∀ (ss : List Stmt) (before : List Bytes),
    Nested before (Stmt.allLines level ss) ↔ InLoop before level ∨ Stmt.anyJump ss = false
  | [], before => iff_of_true nested_nil (.inr rfl)
  | s :: ss, before => by
    rw [Stmt.allLines, nested_append, s.nested_lines level, Stmt.nested_allLines level ss,
      inLoop_append (s.le_depth_lines level), Stmt.anyJump, Bool.or_eq_false_iff]
    exact or_and_left.symm

theorem Chain.nested_lines (level : Nat) : ∀ (r : Chain) (before : List Bytes),
    Nested before (r.lines level) ↔ InLoop before level ∨ r.hasJump = false
  | .none, before => iff_of_true nested_nil (.inr rfl)
  | .elseIf test body rest, before => by
    rw [Chain.lines, nested_suite (heads_elif level test.text) (Stmt.le_depth_allLines (level + 1) body)
      (Stmt.nested_allLines (level + 1) body) (rest.nested_lines level)]
    rfl
  | .otherwise body, before => by
    rw [Chain.lines, nested_suite_only (heads_else level) (Stmt.le_depth_allLines (level + 1) body)
      (Stmt.nested_allLines (level + 1) body)]
    rfl

end

end IrafCl.Code
