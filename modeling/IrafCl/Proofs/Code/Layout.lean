import IrafCl.Code.Emitter
import IrafCl.Proofs.Python.Statements

/-!
# Filled lines

`fill` is greedy: a piece goes to the line that is being filled unless it would not fit, and only then does the next
line begin. `Filled` says so of lines and the rows of arguments that they hold. The column where a line starts is
that of the level it is printed at, and changes once, after the first line, so the first line stands apart in
`Filled` and the later ones are alike. What all lines of a call have in common follows by their place
(`line_callLines`).

A call without arguments is one line however long its head is (`long_head`).
-/

namespace IrafCl.Code

open Python (rowLines headed)

/-- The columns of a line that is printed at a level of indentation. -/
def columns (level : Nat) (line : Bytes) : Nat := level * tabWidth + line.length

/-- The level at which a line of a call is printed, by its place: all but the first stand one level deeper. -/
def lineLevel (level i : Nat) : Nat := if i = 0 then level else level + 1

/-! ## Printing -/

/-- A statement is written line by line, each at the level of its place. -/
theorem out_line (e : Emitter) (first : Bytes) (rest : List Bytes) :
    (e.line first rest).out =
      (((first :: rest).mapIdx fun i line => indented (lineLevel e.indent i) line ++ [10]).foldl Emitter.write e).out := by
  have hindent (e : Emitter) (s : Bytes) : (e.write s).indent = e.indent := by
    unfold Emitter.write
    split <;> rfl
  have hrest : ∀ (rest : List Bytes) (e' : Emitter), e'.indent = e.indent →
      rest.foldl (fun e s => e.writeLine (e.indent + 1) s) e' =
        (rest.map fun s => indented (e.indent + 1) s ++ [10]).foldl Emitter.write e' := by
    intro rest
    induction rest with
    | nil => exact fun _ _ => rfl
    | cons s rest ih =>
      intro e' h
      rw [List.foldl_cons, List.map_cons, List.foldl_cons, Emitter.writeLine, h]
      exact ih _ ((hindent e' _).trans h)
  have hlater : rest.mapIdx (fun i line => indented (lineLevel e.indent (i + 1)) line ++ [10]) =
      rest.map fun s => indented (e.indent + 1) s ++ [10] := by
    refine List.ext_getElem (by simp) fun i _ _ => ?_
    simp [lineLevel]
  rw [List.mapIdx_cons, hlater, List.foldl_cons]
  have hout := congrArg Emitter.out (hrest rest (e.writeLine e.indent first) (hindent e _))
  exact hout

/-! ## Rows -/

theorem headed_nil : ∀ lines, headed [] lines = lines
  | [] => rfl
  | _ :: _ => rfl

/-- One more argument in the first row. -/
theorem headed_rowLines_cons (line arg arg' : Bytes) (row : List Bytes) (rows : List (List Bytes)) :
    headed (line ++ (arg ++ ",") ++ " ") (rowLines ((arg' :: row) :: rows)) =
      headed line (rowLines ((arg :: arg' :: row) :: rows)) := by
  have hjoin : Bytes.join ", " (arg :: arg' :: row) = arg ++ ("," ++ (" " ++ Bytes.join ", " (arg' :: row))) :=
    Bytes.join_cons_cons _ _ _ _
  cases rows <;> simp only [rowLines, headed, hjoin, List.append_assoc]

theorem rowLines_ne_nil : ∀ rows, rowLines rows ≠ []
  | [] | [_] | _ :: _ :: _ => List.cons_ne_nil _ _

theorem join_headed (head : Bytes) : ∀ {lines : List Bytes}, lines ≠ [] →
    Bytes.join " " (headed head lines) = head ++ Bytes.join " " lines
  | [], h => absurd rfl h
  | [line], _ => by rw [headed, Bytes.join_singleton, Bytes.join_singleton]
  | line :: next :: lines, _ => by
    rw [headed, Bytes.join_cons_cons, Bytes.join_cons_cons, List.append_assoc]

/-- The comma at the end of a row and the space before the next line are what stands between two arguments. -/
theorem join_rowLines : ∀ {rows : List (List Bytes)}, (∀ row ∈ rows, row ≠ []) →
    Bytes.join " " (rowLines rows) = Bytes.join ", " rows.flatten ++ ")"
  | [], _ => rfl
  | [row], _ => by rw [rowLines, Bytes.join_singleton, List.flatten_singleton]
  | row :: next :: rows, h => by
    rw [List.forall_mem_cons] at h
    have hrest : (next :: rows).flatten ≠ [] := by simp [(List.forall_mem_cons.mp h.2).1]
    have ih := join_rowLines h.2
    obtain ⟨line, lines, hlines⟩ := List.exists_cons_of_ne_nil (rowLines_ne_nil (next :: rows))
    rw [rowLines, hlines, Bytes.join_cons_cons, ← hlines, ih, List.flatten_cons (l := row), Bytes.join_append ", " h.1 hrest]
    simp only [List.append_assoc]
    rfl

/-! ## Filling -/

/-- Lines that hold arguments in rows, the first from column `start` and the others from column `next`. A line of
several arguments is not too long, and with the piece that comes next a line would be. -/
inductive Filled (next : Nat) : Nat → List (List Bytes) → List Bytes → Prop
  | nil {start : Nat} : Filled next start [] []
  | cons {start : Nat} {row : List Bytes} {line : Bytes} {rows : List (List Bytes)} {lines : List Bytes}
      (fits : 1 < row.length → start + line.length ≤ lineWidth)
      (full : ∀ p ∈ (pieces rows.flatten).head?, lineWidth < start + line.length + 1 + p.length)
      (rest : Filled next next rows lines) : Filled next start (row :: rows) (line :: lines)

/-- The line that is being filled stays as it is, or fits. -/
theorem first_fill (start next : Nat) (ps : List Bytes) : ∀ line : Bytes, ∃ first rest,
    fill start next line ps = first :: rest ∧ (first = line ∨ start + first.length ≤ lineWidth) := by
  induction ps with
  | nil => exact fun line => ⟨line, [], rfl, .inl rfl⟩
  | cons p ps ih =>
    intro line
    rw [fill]
    split
    · exact ⟨line, _, rfl, .inl rfl⟩
    · next hfits =>
      obtain ⟨first, rest, hfill, rfl | hfirst⟩ := ih (line ++ " " ++ p)
      · refine ⟨_, rest, hfill, .inr ?_⟩
        simp only [List.length_append, show (Bytes.ofString " ").length = 1 from rfl]
        omega
      · exact ⟨first, rest, hfill, .inr hfirst⟩

/-- Filling puts the arguments in rows, and the punctuation after an argument is that of its row. -/
theorem exists_rows_fill (args : List Bytes) : ∀ (start next : Nat) (line arg p : Bytes) (ps : List Bytes),
    pieces (arg :: args) = p :: ps → ∃ row rows, row ++ rows.flatten = args ∧ (∀ row ∈ rows, row ≠ []) ∧
      fill start next (line ++ p) ps = headed line (rowLines ((arg :: row) :: rows)) ∧
      Filled next start ((arg :: row) :: rows) (fill start next (line ++ p) ps) := by
  induction args with
  | nil =>
    intro start next line arg p ps h
    cases h
    exact ⟨[], [], rfl, nofun, by simp [fill, rowLines, headed, Bytes.join_singleton],
      .cons (fun h => absurd h (lt_irrefl 1)) nofun .nil⟩
  | cons arg' args ih =>
    intro start next line arg p ps h
    cases h
    cases hpieces : pieces (arg' :: args) with
    | nil => cases args <;> cases hpieces
    | cons p ps =>
      rw [fill]
      split
      -- the next argument begins a row
      · next hfull =>
        obtain ⟨row, rows, hargs, hrows, hlines, hfilled⟩ := ih next next [] arg' p ps hpieces
        rw [headed_nil] at hlines
        rw [List.nil_append] at hlines hfilled
        refine ⟨[], (arg' :: row) :: rows, by simp [hargs], List.forall_mem_cons.mpr ⟨by simp, hrows⟩, ?_, ?_⟩
        · rw [hlines, rowLines, headed, Bytes.join_singleton]
        · refine .cons (fun h => absurd h (lt_irrefl 1)) ?_ hfilled
          rw [List.flatten_cons, List.cons_append, hargs, hpieces]
          rintro _ ⟨⟩
          exact hfull
      · next hfits =>
        obtain ⟨row, rows, hargs, hrows, hlines, hfilled⟩ := ih start next (line ++ (arg ++ ",") ++ " ") arg' p ps hpieces
        refine ⟨arg' :: row, rows, by simp [hargs], hrows, hlines.trans (headed_rowLines_cons line arg arg' row rows), ?_⟩
        obtain ⟨first, rest, hfill, hfirst⟩ := first_fill start next ps (line ++ (arg ++ ",") ++ " " ++ p)
        rw [hfill] at hfilled ⊢
        cases hfilled with
        | cons _ full hrest =>
          refine .cons (fun _ => ?_) full hrest
          rcases hfirst with rfl | hfirst
          · simp only [List.length_append, show (Bytes.ofString " ").length = 1 from rfl] at hfits ⊢
            omega
          · exact hfirst

namespace Filled

variable {start next : Nat} {rows : List (List Bytes)} {lines : List Bytes}

/-- A line of several arguments fits. -/
theorem fits_at (h : Filled next start rows lines) : ∀ (i : Nat) (row : List Bytes) (line : Bytes),
    rows[i]? = some row → lines[i]? = some line → 1 < row.length →
      (if i = 0 then start else next) + line.length ≤ lineWidth := by
  induction h with
  | nil => exact nofun
  | cons fits _ _ ih =>
    rintro (_ | i) row line hrow hline hseveral
    · cases hrow
      cases hline
      exact fits hseveral
    · have := ih i row line hrow hline hseveral
      rw [if_neg (Nat.succ_ne_zero i)]
      rwa [ite_self] at this

/-- A line before another would not have held the next piece. -/
theorem full_at (h : Filled next start rows lines) : ∀ (i : Nat) (line p : Bytes), lines[i]? = some line →
    p ∈ (pieces (rows.drop (i + 1)).flatten).head? →
      lineWidth < (if i = 0 then start else next) + line.length + 1 + p.length := by
  induction h with
  | nil => exact nofun
  | cons _ full _ ih =>
    rintro (_ | i) line p hline hp
    · cases hline
      exact full p hp
    · have := ih i line p hline hp
      rw [if_neg (Nat.succ_ne_zero i)]
      rwa [ite_self] at this

end Filled

/-! ## Calls -/

/-- The lines of a call are its arguments in rows, and are filled with them. -/
theorem exists_filled_rows (level : Nat) (head : Bytes) (args : List Bytes) :
    ∃ rows : List (List Bytes), rows.flatten = args ∧ (∀ row ∈ rows, row ≠ []) ∧
      callLines level head args = headed head (rowLines rows) ∧
      (args ≠ [] → Filled ((level + 1) * tabWidth) (level * tabWidth) rows (callLines level head args)) := by
  unfold callLines
  split
  · next hpieces =>
    cases args with
    | nil => exact ⟨[], rfl, by simp, rfl, absurd rfl⟩
    | cons arg args => cases args <;> cases hpieces
  · next p ps hpieces =>
    cases args with
    | nil => cases hpieces
    | cons arg args =>
      obtain ⟨row, rows, hargs, hrows, hlines, hfilled⟩ := exists_rows_fill args _ _ head arg p ps hpieces
      exact ⟨(arg :: row) :: rows, by simp [hargs], List.forall_mem_cons.mpr ⟨by simp, hrows⟩, hlines, fun _ => hfilled⟩

/-- The lines of a call, joined by spaces, are its head and its arguments. Each line holds whole arguments: those of
its row. At the level at which it is printed, a line of several arguments takes no more columns than a line has, and
any line before another would take more with the next piece. -/
theorem line_callLines (e : Emitter) (head : Bytes) (args : List Bytes) :
    ∃ (first : Bytes) (rest : List Bytes) (rows : List (List Bytes)), callLines e.indent head args = first :: rest ∧
      (e.line first rest).out =
        (((first :: rest).mapIdx fun i line => indented (lineLevel e.indent i) line ++ [10]).foldl Emitter.write e).out ∧
      Bytes.join " " (first :: rest) = head ++ Bytes.join ", " args ++ ")" ∧
      rows.flatten = args ∧ (∀ row ∈ rows, row ≠ []) ∧ first :: rest = headed head (rowLines rows) ∧
      (∀ (i : Nat) (row : List Bytes) (line : Bytes), rows[i]? = some row → (first :: rest)[i]? = some line →
        1 < row.length → columns (lineLevel e.indent i) line ≤ lineWidth) ∧
      ∀ (i : Nat) (line p : Bytes), (first :: rest)[i]? = some line → p ∈ (pieces (rows.drop (i + 1)).flatten).head? →
        lineWidth < columns (lineLevel e.indent i) line + 1 + p.length := by
  obtain ⟨rows, rfl, hrows, hlines, hfilled⟩ := exists_filled_rows e.indent head args
  obtain ⟨first, rest, hcons⟩ : ∃ first rest, callLines e.indent head rows.flatten = first :: rest := by
    obtain ⟨line, lines, hrowLines⟩ := List.exists_cons_of_ne_nil (rowLines_ne_nil rows)
    exact ⟨_, _, by rw [hlines, hrowLines, headed]⟩
  have hstart (i : Nat) : (if i = 0 then e.indent * tabWidth else (e.indent + 1) * tabWidth) =
      lineLevel e.indent i * tabWidth := (apply_ite (· * tabWidth) _ _ _).symm
  rw [hcons] at hlines hfilled
  refine ⟨first, rest, rows, hcons, out_line e first rest, ?_, rfl, hrows, hlines, ?_, ?_⟩
  · rw [hlines, join_headed head (rowLines_ne_nil rows), join_rowLines hrows, List.append_assoc]
  · intro i row line hrow hline hseveral
    have hargs : rows.flatten ≠ [] := List.flatten_ne_nil_iff.mpr
      ⟨row, List.mem_of_getElem? hrow, List.ne_nil_of_length_pos (Nat.zero_lt_of_lt hseveral)⟩
    have := (hfilled hargs).fits_at i row line hrow hline hseveral
    rwa [hstart] at this
  · intro i line p hline hp
    have hargs : rows.flatten ≠ [] := by
      intro hnil
      have hdrop : (rows.drop (i + 1)).flatten = [] :=
        List.flatten_eq_nil_iff.mpr fun row hrow => List.flatten_eq_nil_iff.mp hnil row (List.mem_of_mem_drop hrow)
      rw [hdrop] at hp
      cases hp
    have := (hfilled hargs).full_at i line p hline hp
    rwa [hstart] at this

/-! ## A long head -/

/-- Without arguments there is no place to end a line, so the head alone may take a line beyond its columns. -/
theorem long_head : callLines bodyLevel (callHead [] ["iraf", List.replicate 64 97]) [] =
      [callHead [] ["iraf", List.replicate 64 97] ++ ")"] ∧
    ¬ columns (lineLevel bodyLevel 0) (callHead [] ["iraf", List.replicate 64 97] ++ ")") ≤ lineWidth := by
  decide

end IrafCl.Code
