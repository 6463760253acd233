import IrafCl.Param.Table
import IrafCl.Proofs.Param.List
import Mathlib.Data.List.Nodup

/-!
# The index of a parameter list

The variables and the index say the same twice, and each operation brings both up to date by itself. `Indexed` says that
they agree: a name is entered at a position just if the variable there has it, so names are unique. Only a removal moves
variables, and `enter` gives those behind the gap their new positions (`getElem?_enter`). Each operation keeps the
agreement and does to the variables what it does to a parameter list (`Tracks.step`), so the same holds after any
operations (`tracks_run`), and of a table and its clone that are used side by side (`Tracks.beside_clone`).
-/

namespace IrafCl

/-- The parameter list after an operation; a failed one changes nothing. -/
def ParamList.step (p : ParamList) : ParamOp → ParamList
  | .add v => (p.add v).toOption.getD p
  | .set v => p.set v
  | .remove name => p.remove name
  | .clone => p

namespace ParamTable

/-- The variables without their index. -/
def toList (t : ParamTable) : ParamList := ⟨t.vars⟩

/-- The index has the position of each name, and nothing else. -/
def Indexed (t : ParamTable) : Prop :=
  ∀ (name : Bytes) (i : Nat), t.index[name]? = some i ↔ t.names[i]? = some name

variable {t : ParamTable} {p : ParamList} {v : Variable} {name : Bytes} {i : Nat}

/-! ## Looking up -/

theorem Indexed.distinct (h : t.Indexed) : t.toList.Distinct := by
  refine List.nodup_iff_getElem?_ne_getElem?.mpr fun i j hij hj heq => ?_
  -- one name would be entered at two positions
  have hname := List.getElem?_eq_getElem hj
  have hi := (h _ i).mpr (heq.trans hname)
  rw [(h _ j).mpr hname] at hi
  exact Nat.ne_of_gt hij (Option.some.inj hi)

theorem Indexed.index_eq_none_iff (h : t.Indexed) : t.index[name]? = none ↔ name ∉ t.names := by
  rw [Option.eq_none_iff_forall_ne_some, List.mem_iff_getElem?, not_exists]
  exact forall_congr' fun i => not_congr (h name i)

theorem Indexed.has_eq (h : t.Indexed) (name : Bytes) : t.has name = t.toList.has name := by
  rw [Bool.eq_iff_iff, ParamList.has_iff, has, Std.HashMap.contains_eq_isSome_getElem?, Option.isSome_iff_ne_none, Ne,
    h.index_eq_none_iff, not_not]
  rfl

theorem Indexed.get?_eq (h : t.Indexed) (name : Bytes) : t.get? name = t.toList.get? name := by
  unfold get?
  cases hi : t.index[name]? with
  | none =>
    have hfree : t.toList.has name = false := ParamList.has_eq_false_iff.mpr (h.index_eq_none_iff.mp hi)
    exact (Option.not_isSome_iff_eq_none.mp (Bool.eq_false_iff.mp hfree)).symm
  | some i =>
    have hname := (h name i).mp hi
    rw [names, List.getElem?_map, Option.map_eq_some_iff] at hname
    obtain ⟨v, hv, rfl⟩ := hname
    rw [ParamList.Distinct.get?_of_mem h.distinct (List.mem_of_getElem? hv)]
    exact hv

/-! ## Adding and replacing -/

theorem indexed_empty : empty.Indexed := by
  intro name i
  simp [empty, names]

theorem names_append (t : ParamTable) (v : Variable) : (t.append v).names = t.names ++ [v.name] := by
  simp [names, append]

theorem Indexed.append (h : t.Indexed) (hv : v.name ∉ t.names) : (t.append v).Indexed := by
  intro name i
  rw [names_append, List.getElem?_append, List.getElem?_singleton, ParamTable.append, Std.HashMap.getElem?_insert]
  have hlength : t.names.length = t.vars.length := List.length_map _
  by_cases hname : v.name = name
  · subst hname
    rw [if_pos BEq.rfl, hlength]
    split
    · next hi =>
      refine iff_of_false (fun heq => ?_) fun heq => hv (List.mem_of_getElem? heq)
      rw [Option.some.inj heq] at hi
      exact Nat.lt_irrefl i hi
    · next hi => simp; omega
  · rw [if_neg (by simpa using hname), h name i]
    split
    · rfl
    · next hi =>
      rw [List.getElem?_eq_none (Nat.le_of_not_lt hi)]
      split <;> simp [hname]

/-- The variable at the position of a name is the only one that has it. -/
theorem Indexed.set_eq (h : t.Indexed) (hi : t.index[v.name]? = some i) :
    t.vars.set i v = t.vars.map fun w => if w.name = v.name then v else w := by
  refine List.ext_getElem? fun j => ?_
  rw [List.getElem?_set, List.getElem?_map]
  have hname (k : Nat) (w : Variable) (hw : t.vars[k]? = some w) : w.name = v.name ↔ i = k := by
    have hk : t.names[k]? = some w.name := by rw [names, List.getElem?_map, hw, Option.map_some]
    constructor
    · intro heq
      rw [heq, ← h, hi] at hk
      exact Option.some.inj hk
    · rintro rfl
      exact Option.some.inj (hk.symm.trans ((h _ _).mp hi))
  cases hj : t.vars[j]? with
  | none =>
    have hlength : t.vars.length ≤ j := List.getElem?_eq_none_iff.mp hj
    split
    · next hij =>
      subst hij
      rw [if_neg (Nat.not_lt.mpr hlength), Option.map_none]
    · rw [Option.map_none]
  | some w =>
    rw [Option.map_some]
    by_cases hij : i = j
    · have hlt : i < t.vars.length := by rw [hij]; exact (List.getElem?_eq_some_iff.mp hj).1
      rw [if_pos hij, if_pos hlt, if_pos ((hname j w hj).mpr hij)]
    · rw [if_neg hij, if_neg (mt (hname j w hj).mp hij)]

theorem Indexed.toList_set (h : t.Indexed) (v : Variable) : (t.set v).toList = t.toList.set v := by
  have hhas := h.has_eq v.name
  rw [has, Std.HashMap.contains_eq_isSome_getElem?] at hhas
  unfold ParamTable.set ParamList.set
  cases hi : t.index[v.name]? with
  | none =>
    rw [hi] at hhas
    rw [← hhas]
    rfl
  | some i =>
    rw [hi] at hhas
    rw [← hhas]
    exact congrArg ParamList.mk (h.set_eq hi)

/-- Replacing a variable leaves all names where they are. -/
theorem Indexed.set (h : t.Indexed) (v : Variable) : (t.set v).Indexed := by
  unfold ParamTable.set
  cases hi : t.index[v.name]? with
  | none => exact h.append (h.index_eq_none_iff.mp hi)
  | some i =>
    have hnames : (t.vars.set i v).map (·.name) = t.names := by
      have hname := (h _ _).mp hi
      obtain ⟨hlt, hname⟩ := List.getElem?_eq_some_iff.mp hname
      rw [List.map_set, ← hname]
      exact List.set_getElem_self hlt
    intro name j
    show t.index[name]? = some j ↔ ((t.vars.set i v).map (·.name))[j]? = some name
    rw [hnames]
    exact h name j

/-! ## Removing -/

/-- Variables with names of their own that are entered from a position on are found there, and all others where they
were. -/
theorem getElem?_enter (vs : List Variable) : ∀ (j : Nat) (index : Std.HashMap Bytes Nat), (vs.map (·.name)).Nodup →
    ∀ (name : Bytes) (k : Nat), (enter j vs index)[name]? = some k ↔
      (∃ m, (vs.map (·.name))[m]? = some name ∧ k = j + m) ∨ name ∉ vs.map (·.name) ∧ index[name]? = some k := by
  induction vs with
  | nil => simp [enter]
  | cons v vs ih =>
    intro j index hnodup name k
    rw [List.map_cons, List.nodup_cons] at hnodup
    rw [enter, ih (j + 1) (index.insert v.name j) hnodup.2, Std.HashMap.getElem?_insert, List.map_cons]
    by_cases hname : v.name = name
    · subst hname
      rw [if_pos BEq.rfl]
      constructor
      · rintro (⟨m, hm, -⟩ | ⟨-, hk⟩)
        · exact absurd (List.mem_of_getElem? hm) hnodup.1
        · exact .inl ⟨0, rfl, (Option.some.inj hk).symm⟩
      · rintro (⟨_ | m, hm, hk⟩ | ⟨hfree, -⟩)
        · exact .inr ⟨hnodup.1, congrArg some hk.symm⟩
        · rw [List.getElem?_cons_succ] at hm
          exact absurd (List.mem_of_getElem? hm) hnodup.1
        · exact absurd List.mem_cons_self hfree
    · rw [if_neg (by simpa using hname), List.mem_cons, not_or]
      constructor
      · rintro (⟨m, hm, hk⟩ | ⟨hfree, hk⟩)
        · exact .inl ⟨m + 1, hm, by omega⟩
        · exact .inr ⟨⟨Ne.symm hname, hfree⟩, hk⟩
      · rintro (⟨_ | m, hm, hk⟩ | ⟨hfree, hk⟩)
        · exact absurd (Option.some.inj hm) hname
        · exact .inl ⟨m, hm, by omega⟩
        · exact .inr ⟨hfree.2, hk⟩

/-- Where names are distinct, one that is taken out by its position is taken out by itself. -/
theorem eraseIdx_eq_filter : ∀ {vs : List Variable} {i : Nat}, (vs.map (·.name)).Nodup →
    (vs.map (·.name))[i]? = some name → vs.eraseIdx i = vs.filter fun v => v.name ≠ name
  | [], _, _, h => by cases h
  | v :: vs, 0, hnodup, h => by
    rw [List.map_cons, List.nodup_cons] at hnodup
    obtain rfl := Option.some.inj h
    have hall : vs.filter (fun w => w.name ≠ v.name) = vs := by
      refine List.filter_eq_self.mpr fun w hw => decide_eq_true fun heq => hnodup.1 ?_
      rw [← heq]
      exact List.mem_map_of_mem hw
    rw [List.eraseIdx_zero, List.tail_cons, List.filter_cons_of_neg (by simp), hall]
  | v :: vs, i + 1, hnodup, h => by
    rw [List.map_cons, List.nodup_cons] at hnodup
    have hne : v.name ≠ name := fun heq => hnodup.1 (heq ▸ List.mem_of_getElem? h)
    rw [List.eraseIdx_cons_succ, List.filter_cons_of_pos (by simpa using hne), eraseIdx_eq_filter hnodup.2 h]

theorem Indexed.toList_remove (h : t.Indexed) (name : Bytes) : (t.remove name).1.toList = t.toList.remove name := by
  unfold ParamTable.remove ParamList.remove
  cases hi : t.index[name]? with
  | none =>
    refine congrArg ParamList.mk (List.filter_eq_self.mpr fun v hv => decide_eq_true ?_).symm
    rintro rfl
    exact h.index_eq_none_iff.mp hi (List.mem_map_of_mem hv)
  | some i => exact congrArg ParamList.mk (eraseIdx_eq_filter h.distinct ((h name i).mp hi))

/-- After a removal the index has the names behind the gap one position lower, and other names where they were. -/
theorem Indexed.index_remove (h : t.Indexed) (i : Nat) (name n : Bytes) (k : Nat) :
    (enter i ((t.vars.eraseIdx i).drop i) (t.index.erase name))[n]? = some k ↔
      (∃ m, t.names[i + m + 1]? = some n ∧ k = i + m) ∨
        (∀ m, t.names[i + m + 1]? ≠ some n) ∧ n ≠ name ∧ t.index[n]? = some k := by
  have hlater (m : Nat) : (((t.vars.eraseIdx i).drop i).map (·.name))[m]? = t.names[i + m + 1]? := by
    rw [List.getElem?_map, List.getElem?_drop, List.getElem?_eraseIdx_of_ge (Nat.le_add_right i m), names,
      List.getElem?_map]
  have hnodup : (((t.vars.eraseIdx i).drop i).map (·.name)).Nodup :=
    h.distinct.sublist (((List.drop_sublist _ _).trans (List.eraseIdx_sublist _ _)).map _)
  have herase : (t.index.erase name)[n]? = some k ↔ n ≠ name ∧ t.index[n]? = some k := by
    rw [Std.HashMap.getElem?_erase]
    by_cases hn : n = name
    · rw [if_pos (beq_iff_eq.mpr hn.symm)]
      exact iff_of_false (Option.some_ne_none k).symm fun hne => hne.1 hn
    · rw [if_neg (mt eq_of_beq (Ne.symm hn)), and_iff_right hn]
  rw [getElem?_enter _ _ _ hnodup, herase, List.mem_iff_getElem?]
  simp only [hlater, not_exists, ne_eq]

theorem getElem?_names_eraseIdx (t : ParamTable) (i k : Nat) :
    ((t.vars.eraseIdx i).map (·.name))[k]? = if k < i then t.names[k]? else t.names[k + 1]? := by
  rw [names, List.getElem?_map, List.getElem?_eraseIdx, apply_ite (Option.map _), List.getElem?_map, List.getElem?_map]

theorem Indexed.remove (h : t.Indexed) (name : Bytes) : (t.remove name).1.Indexed := by
  unfold ParamTable.remove
  cases hi : t.index[name]? with
  | none => exact h
  | some i =>
    intro n k
    show (enter i ((t.vars.eraseIdx i).drop i) (t.index.erase name))[n]? = some k ↔
      ((t.vars.eraseIdx i).map (·.name))[k]? = some n
    rw [h.index_remove, getElem?_names_eraseIdx]
    by_cases hlt : k < i
    · rw [if_pos hlt, ← h n k]
      constructor
      · rintro (⟨m, -, hk⟩ | ⟨-, -, hk⟩)
        · omega
        · exact hk
      · intro hk
        refine .inr ⟨fun m hm => ?_, ?_, hk⟩
        · rw [← h, hk] at hm
          have := Option.some.inj hm
          omega
        · rintro rfl
          rw [hi] at hk
          exact Nat.ne_of_gt hlt (Option.some.inj hk)
    · rw [if_neg hlt]
      constructor
      · rintro (⟨m, hm, rfl⟩ | ⟨hfree, hne, hk⟩)
        · exact hm
        · -- a name behind the gap has been entered anew
          have hki : k ≠ i := by
            rintro rfl
            exact hne (Option.some.inj (((h _ _).mp hk).symm.trans ((h _ _).mp hi)))
          refine absurd ?_ (hfree (k - i - 1))
          rw [show i + (k - i - 1) + 1 = k by omega]
          exact (h n k).mp hk
      · intro hk
        refine .inl ⟨k - i, ?_, by omega⟩
        rwa [show i + (k - i) + 1 = k + 1 by omega]

/-! ## Operations -/

/-- The index is in order, and the variables are those of a parameter list. -/
structure Tracks (t : ParamTable) (p : ParamList) : Prop where
  indexed : t.Indexed
  toList : t.toList = p

theorem Tracks.append (h : t.Tracks p) (hv : v.name ∉ t.names) : (t.append v).Tracks (p.append v) :=
  ⟨h.indexed.append hv, congrArg (ParamList.append · v) h.toList⟩

theorem Tracks.has_iff (h : t.Tracks p) (name : Bytes) : p.has name = true ↔ name ∈ t.names := by
  rw [← h.toList]
  exact ParamList.has_iff

theorem add_of_mem (h : t.Indexed) (hv : v.name ∈ t.names) :
    t.add v = (t, some (.plain ("parameter " ++ v.name.quote ++ " already defined"))) := by
  rw [add, if_pos]
  rw [h.has_eq]
  exact ParamList.has_iff.mpr hv

theorem add_of_not_mem (h : t.Indexed) (hv : v.name ∉ t.names) : t.add v = (t.append v, none) := by
  rw [add, if_neg]
  rw [h.has_eq]
  exact mt ParamList.has_iff.mp hv

theorem Tracks.set (h : t.Tracks p) (v : Variable) : (t.set v).Tracks (p.set v) :=
  ⟨h.indexed.set v, by rw [h.indexed.toList_set, h.toList]⟩

theorem tracks_ofVars (vs : List Variable) : (ofVars vs).Tracks (.ofVars vs) := by
  have hfold : ∀ (vs : List Variable) {t : ParamTable} {p : ParamList}, t.Tracks p →
      (vs.foldl ParamTable.set t).Tracks (vs.foldl ParamList.set p) := by
    intro vs
    induction vs with
    | nil => exact id
    | cons v vs ih => exact fun h => ih (h.set v)
  exact hfold vs ⟨indexed_empty, rfl⟩

/-- A clone has the variables in the same order. -/
theorem Tracks.clone (h : t.Tracks p) : t.clone.Tracks p := by
  obtain ⟨hindexed, rfl⟩ := h
  have hclone : t.clone.Tracks (.ofVars t.toList.vars) := tracks_ofVars t.vars
  rwa [ParamList.ofVars_vars hindexed.distinct] at hclone

/-- An operation does to a table what it does to its parameter list. -/
theorem Tracks.step (h : t.Tracks p) (op : ParamOp) : (t.step op).Tracks (p.step op) := by
  cases op with
  | add v =>
    show (t.add v).1.Tracks ((p.add v).toOption.getD p)
    unfold ParamList.add
    by_cases hv : v.name ∈ t.names
    · rw [add_of_mem h.indexed hv, if_pos ((h.has_iff _).mpr hv)]
      exact h
    · rw [add_of_not_mem h.indexed hv, if_neg (mt (h.has_iff _).mp hv)]
      exact h.append hv
  | set v => exact h.set v
  | remove name => exact ⟨h.indexed.remove name, by rw [← h.toList]; exact h.indexed.toList_remove name⟩
  | clone => exact h.clone

/-- The table of some variables after operations. -/
def run (vs : List Variable) (ops : List ParamOp) : ParamTable := ops.foldl step (ofVars vs)

/-- The parameter list of some variables after operations. -/
def runList (vs : List Variable) (ops : List ParamOp) : ParamList := ops.foldl ParamList.step (.ofVars vs)

theorem tracks_run (vs : List Variable) (ops : List ParamOp) : (run vs ops).Tracks (runList vs ops) := by
  have hfold : ∀ (ops : List ParamOp) {t : ParamTable} {p : ParamList}, t.Tracks p →
      (ops.foldl ParamTable.step t).Tracks (ops.foldl ParamList.step p) := by
    intro ops
    induction ops with
    | nil => exact id
    | cons op ops ih => exact fun h => ih (h.step op)
  exact hfold ops (tracks_ofVars vs)

/-- An operation on one of two tables that are in use. -/
def stepEither : ParamTable × ParamTable → ParamOp ⊕ ParamOp → ParamTable × ParamTable
  | (t, u), .inl op => (t.step op, u)
  | (t, u), .inr op => (t, u.step op)

/-- Of two tables in use, each tracks the list that its own operations make. -/
theorem Tracks.beside {u : ParamTable} {q : ParamList} (ht : t.Tracks p) (hu : u.Tracks q) (ops : List (ParamOp ⊕ ParamOp)) :
    (ops.foldl stepEither (t, u)).1.Tracks ((ops.filterMap Sum.getLeft?).foldl ParamList.step p) ∧
      (ops.foldl stepEither (t, u)).2.Tracks ((ops.filterMap Sum.getRight?).foldl ParamList.step q) := by
  induction ops generalizing t u p q with
  | nil => exact ⟨ht, hu⟩
  | cons op ops ih =>
    cases op with
    | inl op => exact ih (ht.step op) hu
    | inr op => exact ih ht (hu.step op)

/-- A table and its clone begin as the same list. In whatever order both are used after that, neither feels what is done to
the other. -/
theorem Tracks.beside_clone (h : t.Tracks p) (ops : List (ParamOp ⊕ ParamOp)) :
    (ops.foldl stepEither (t, t.clone)).1.Tracks ((ops.filterMap Sum.getLeft?).foldl ParamList.step p) ∧
      (ops.foldl stepEither (t, t.clone)).2.Tracks ((ops.filterMap Sum.getRight?).foldl ParamList.step p) :=
  h.beside h.clone ops

/-- After any operations a table is an ordered list of variables with distinct names, and the index has the position of
each. Looking up finds the variable that has a name. A variable at a taken name is refused and changes nothing, or takes
the place of the one that has it; at a free name it comes last. A removal takes out the variable with the name and keeps
the others in order, and a clone has the same variables. -/
theorem table_run (vs : List Variable) (ops : List ParamOp) : let t := run vs ops
    t.vars = (runList vs ops).vars ∧
      (∀ (name : Bytes) (i : Nat), t.index[name]? = some i ↔ t.names[i]? = some name) ∧ t.names.Nodup ∧
      (∀ name v, t.get? name = some v ↔ v ∈ t.vars ∧ v.name = name) ∧ (∀ name, t.has name = true ↔ name ∈ t.names) ∧
      t.names = t.vars.map (·.name) ∧ t.length = t.vars.length ∧
      (∀ v, v.name ∈ t.names →
        t.add v = (t, some (.plain ("parameter " ++ v.name.quote ++ " already defined"))) ∧
        (t.set v).vars = t.vars.map (fun w => if w.name = v.name then v else w) ∧ (t.set v).names = t.names) ∧
      (∀ v, v.name ∉ t.names →
        (t.add v).2 = none ∧ (t.add v).1.vars = t.vars ++ [v] ∧ (t.set v).vars = t.vars ++ [v]) ∧
      (∀ name, ((t.remove name).2 = true ↔ name ∈ t.names) ∧
        (t.remove name).1.vars = t.vars.filter (fun v => v.name ≠ name)) ∧
      t.clone.vars = t.vars := by
  intro t
  have h : t.Tracks (runList vs ops) := tracks_run vs ops
  have hindexed := h.indexed
  have hset (v : Variable) : (t.set v).vars = (t.toList.set v).vars := congrArg ParamList.vars (hindexed.toList_set v)
  refine ⟨congrArg ParamList.vars h.toList, hindexed, hindexed.distinct, fun name v => ?_, fun name => ?_, rfl, rfl,
    fun v hv => ⟨add_of_mem hindexed hv, ?_⟩, fun v hv => ?_, fun name => ⟨?_, ?_⟩, ?_⟩
  · rw [hindexed.get?_eq]
    constructor
    · intro hget
      unfold ParamList.get? at hget
      exact ⟨List.mem_of_find?_eq_some hget, by simpa using List.find?_some hget⟩
    · rintro ⟨hv, rfl⟩
      exact ParamList.Distinct.get?_of_mem hindexed.distinct hv
  · rw [hindexed.has_eq]
    exact ParamList.has_iff
  · have hhas : t.toList.has v.name = true := ParamList.has_iff.mpr hv
    have hvars := hset v
    rw [ParamList.set, if_pos hhas] at hvars
    exact ⟨hvars, (congrArg ParamList.names (hindexed.toList_set v)).trans (ParamList.names_set_of_has hhas)⟩
  · have hvars := hset v
    rw [ParamList.set, if_neg (mt ParamList.has_iff.mp hv)] at hvars
    rw [add_of_not_mem hindexed hv]
    exact ⟨rfl, rfl, hvars⟩
  · unfold remove
    cases hi : t.index[name]? with
    | none => exact iff_of_false Bool.false_ne_true (hindexed.index_eq_none_iff.mp hi)
    | some i => exact iff_of_true rfl (List.mem_of_getElem? ((hindexed name i).mp hi))
  · exact congrArg ParamList.vars (hindexed.toList_remove name)
  · exact congrArg ParamList.vars (h.clone.toList.trans h.toList.symm)

end ParamTable

end IrafCl
