import IrafCl.Proofs.Number.Equality
import IrafCl.Proofs.Param.Table
import IrafCl.Proofs.Text.Bytes

/-!
# Comparing parameter lists

Two variables agree (`Variable.Agrees`) just if `diff` has nothing to say about them (`Variable.diff_eq_nil_iff`). What a
comparison of two tables reports on a name depends only on the variables that the two have of that name
(`ParamTable.filter_reports`): how they differ, or one report if one of them is not there. So a comparison is empty just if
the tables have the same names and their variables agree, whichever of the two comes first.
-/

namespace IrafCl

/-! ## Values -/

namespace Value

/-- The integer of a value, 0 for the other kinds. -/
def intPart : Value → Int64
  | .int n => n
  | _ => 0

/-- The floating-point number of a value, 0 for the other kinds. -/
def floatPart : Value → Binary64
  | .float x => x
  | _ => .zero

/-- The text of a value, empty for the other kinds. -/
def stringPart : Value → Bytes
  | .string s => s
  | _ => []

/-- The truth value of a value, false for the other kinds. -/
def boolPart : Value → Bool
  | .bool b => b
  | _ => false

/-- Two values are equal part by part. Floating-point numbers are equal as numbers, and a NaN is equal to none. -/
structure Equal (v w : Value) : Prop where
  kind : v.kindName = w.kindName
  int : v.intPart = w.intPart
  float : v.floatPart.SameNumber w.floatPart
  string : v.stringPart = w.stringPart
  bool : v.boolPart = w.boolPart

theorem Equal.symm {v w : Value} (h : v.Equal w) : w.Equal v :=
  ⟨h.kind.symm, h.int.symm, h.float.symm, h.string.symm, h.bool.symm⟩

/-- A value that is no floating-point number is equal to itself alone. -/
theorem equal_iff_eq {v w : Value} (h : ∀ x, v ≠ .float x) : v.Equal w ↔ v = w := by
  have hzero : Binary64.zero.SameNumber .zero := .finite rfl rfl rfl
  constructor
  · intro heq
    obtain ⟨hkind, hint, -, hstring, hbool⟩ := heq
    cases v <;> cases w <;> simp_all [kindName, intPart, stringPart, boolPart]
  · rintro rfl
    refine ⟨rfl, rfl, ?_, rfl, rfl⟩
    cases v with
    | float x => exact absurd rfl (h x)
    | _ => exact hzero

/-- Two floating-point numbers are equal as values just if they are one number. -/
theorem equal_float_iff {x y : Binary64} : (Value.float x).Equal (.float y) ↔ x.SameNumber y :=
  ⟨Equal.float, fun h => ⟨rfl, rfl, h, rfl, rfl⟩⟩

theorem same_iff {v w : Value} : v.same w = true ↔ v.Equal w := by
  unfold same
  split
  · rw [Binary64.same_iff, equal_float_iff]
  · next hfloat =>
    rw [decide_eq_true_eq]
    cases v with
    | float x =>
      refine iff_of_false (fun heq => hfloat x x rfl heq.symm) fun heq => ?_
      have hkind := heq.kind
      cases w with
      | float y => exact hfloat x y rfl rfl
      | _ => simp [kindName] at hkind
    | _ => exact (equal_iff_eq (by simp)).symm

end Value

/-! ## Variables -/

namespace Variable

/-- Two variables agree on type, mode and shape, and on their initial values one by one. -/
structure Agrees (v w : Variable) : Prop where
  type : v.type = w.type
  mode : v.mode = w.mode
  arraySize : v.arraySize = w.arraySize
  isList : v.isList = w.isList
  values : List.Forall₂ Value.Equal v.values w.values

variable {v w : Variable}

theorem Agrees.symm (h : v.Agrees w) : w.Agrees v :=
  ⟨h.type.symm, h.mode.symm, h.arraySize.symm, h.isList.symm, (h.values.imp fun _ _ heq => heq.symm).flip⟩

theorem sameValues_iff : ∀ {vs ws : List Value}, sameValues vs ws = true ↔ List.Forall₂ Value.Equal vs ws
  | [], [] => by simp [sameValues]
  | v :: vs, w :: ws => by rw [sameValues, Bool.and_eq_true, Value.same_iff, sameValues_iff, List.forall₂_cons]
  | [], _ :: _ => iff_of_false (by simp [sameValues]) nofun
  | _ :: _, [] => iff_of_false (by simp [sameValues]) nofun

/-- There is nothing to say about two variables just if they agree. -/
theorem diff_eq_nil_iff : v.diff w = [] ↔ v.Agrees w := by
  have entry (differs : Bool) (text : Bytes) : (if differs then [text] else []) = [] ↔ differs = false := by
    cases differs <;> simp
  unfold diff
  simp only [List.append_eq_nil_iff, entry, decide_eq_false_iff_not, ne_eq, not_not, Bool.not_eq_false', sameValues_iff]
  constructor
  · rintro ⟨⟨⟨⟨htype, hmode⟩, hsize⟩, hlist⟩, hvalues⟩
    exact ⟨htype, hmode, hsize, hlist, hvalues⟩
  · rintro ⟨htype, hmode, hsize, hlist, hvalues⟩
    exact ⟨⟨⟨⟨htype, hmode⟩, hsize⟩, hlist⟩, hvalues⟩

/-- A variable with a NaN does not agree with itself. -/
example : let v : Variable := { scalar "x" "real" "h" with initial := some [.float .nan] }; v.diff v ≠ [] := by decide

end Variable

/-! ## Reports -/

namespace ParamReport

/-- What there is to report on a name, by the variables that two lists have of it. -/
def about (name : Bytes) : Option Variable → Option Variable → List ParamReport
  | some v, some w => (v.diff w).map (.differs name)
  | some _, none => [.missing name]
  | none, some _ => [.extra name]
  | none, none => []

/-- There is nothing to report on a name just if neither list has it or their variables agree. -/
theorem about_eq_nil_iff {name : Bytes} {a b : Option Variable} :
    about name a b = [] ↔ Option.Rel Variable.Agrees a b := by
  cases a with
  | none =>
    cases b with
    | none => exact iff_of_true rfl .none
    | some w => exact iff_of_false (List.cons_ne_nil _ _) nofun
  | some v =>
    cases b with
    | none => exact iff_of_false (List.cons_ne_nil _ _) nofun
    | some w => rw [about, List.map_eq_nil_iff, Variable.diff_eq_nil_iff, Option.rel_some_some]

/-- The byte that encloses a name in a line. -/
def apostrophe : UInt8 := 39

/-- What a line says behind the name. -/
def verdict : ParamReport → Bytes
  | .missing _ => " is not in the other list"
  | .differs _ how => " differs: " ++ how
  | .extra _ => " is only in the other list"

theorem text_eq (r : ParamReport) : r.text = "parameter '" ++ (r.name ++ apostrophe :: r.verdict) := by
  cases r <;> simp [text, name, verdict] <;> rfl

theorem eq_of_verdict {r s : ParamReport} (hname : r.name = s.name) (h : r.verdict = s.verdict) : r = s := by
  -- the fifth byte of a verdict tells the three kinds apart
  have hmark (r : ParamReport) : r.verdict[4]? =
      some (match r with | .missing _ => 110 | .differs _ _ => 102 | .extra _ => 111 : UInt8) := by cases r <;> rfl
  have hkind := congrArg (fun verdict : Bytes => verdict[4]?) h
  simp only [hmark] at hkind
  cases r <;> cases s <;> simp_all [name, verdict]

/-- Reports on names without an apostrophe are told apart by their lines. -/
theorem eq_of_text {r s : ParamReport} (hr : apostrophe ∉ r.name) (hs : apostrophe ∉ s.name) (h : r.text = s.text) :
    r = s := by
  rw [text_eq, text_eq, List.append_cancel_left_eq] at h
  have hpieces := congrArg (Bytes.pieces apostrophe) h
  rw [Bytes.pieces_append _ hr, Bytes.pieces_append _ hs] at hpieces
  have hname : r.name = s.name := (List.cons.inj hpieces).1
  rw [hname, List.append_cancel_left_eq] at h
  exact eq_of_verdict hname (List.cons.inj h).2

/-- So the line of a report stands as often as the report. -/
theorem count_text {rs : List ParamReport} {r : ParamReport} (hr : apostrophe ∉ r.name)
    (hrs : ∀ s ∈ rs, apostrophe ∉ s.name) : (rs.map text).count r.text = rs.count r := by
  rw [List.count, List.countP_map, List.count]
  refine List.countP_congr fun s hs => ?_
  rw [Function.comp_apply, beq_iff_eq, beq_iff_eq]
  exact ⟨eq_of_text (hrs s hs) hr, congrArg text⟩

end ParamReport

/-! ## Comparisons name by name -/

/-- In a list with distinct names at most one variable has a name. -/
theorem ParamList.Distinct.filter_vars {p : ParamList} (h : p.Distinct) (name : Bytes) :
    p.vars.filter (fun v => v.name = name) = (p.get? name).toList := by
  unfold ParamList.Distinct ParamList.names at h
  unfold ParamList.get?
  generalize p.vars = vs at h
  induction vs with
  | nil => rfl
  | cons v vs ih =>
    rw [List.map_cons, List.nodup_cons] at h
    by_cases hv : v.name = name
    · have hnone : vs.filter (fun w => w.name = name) = [] := by
        rw [List.filter_eq_nil_iff]
        intro w hw hname
        exact h.1 (List.mem_map.mpr ⟨w, hw, (of_decide_eq_true hname).trans hv.symm⟩)
      rw [List.filter_cons_of_pos (by simpa using hv), List.find?_cons_of_pos (by simpa using hv), hnone]
      rfl
    · rw [List.filter_cons_of_neg (by simpa using hv), List.find?_cons_of_neg (by simpa using hv)]
      exact ih h.2

namespace ParamTable

variable {t u : ParamTable} {p q : ParamList} {name : Bytes}

/-- By their indexes two tables compare as their parameter lists do. -/
theorem Tracks.compare (ht : t.Tracks p) (hu : u.Tracks q) : t.compare u = p.compare q := by
  obtain ⟨ht, rfl⟩ := ht
  obtain ⟨hu, rfl⟩ := hu
  have hone (v : Variable) : (u.reportsOn v).map ParamReport.text = u.toList.compareOne v := by
    rw [reportsOn, ParamList.compareOne, hu.get?_eq]
    cases u.toList.get? v.name with
    | none => rfl
    | some w => exact List.map_map
  unfold ParamTable.compare reports ParamList.compare
  rw [List.map_append, List.map_flatMap, List.map_map]
  congr 1
  · exact List.flatMap_congr fun v _ => hone v
  · simp only [ht.has_eq]
    rfl

theorem name_of_mem_reportsOn {v : Variable} {r : ParamReport} (h : r ∈ u.reportsOn v) : r.name = v.name := by
  unfold reportsOn at h
  split at h
  · rw [List.mem_singleton.mp h]
    rfl
  · obtain ⟨how, -, rfl⟩ := List.mem_map.mp h
    rfl

/-- The reports on variables that are on a name are those on the variables of the name. -/
theorem filter_flatMap_reportsOn (u : ParamTable) (name : Bytes) (vs : List Variable) :
    (vs.flatMap u.reportsOn).filter (fun r => r.name = name) = (vs.filter fun v => v.name = name).flatMap u.reportsOn := by
  induction vs with
  | nil => rfl
  | cons v vs ih =>
    rw [List.flatMap_cons, List.filter_append, ih]
    by_cases hv : v.name = name
    · have hall : (u.reportsOn v).filter (fun r => r.name = name) = u.reportsOn v :=
        List.filter_eq_self.mpr fun r hr => by simp [name_of_mem_reportsOn hr, hv]
      rw [hall, List.filter_cons_of_pos (by simpa using hv), List.flatMap_cons]
    · have hnone : (u.reportsOn v).filter (fun r => r.name = name) = [] :=
        List.filter_eq_nil_iff.mpr fun r hr => by simp [name_of_mem_reportsOn hr, hv]
      rw [hnone, List.filter_cons_of_neg (by simpa using hv), List.nil_append]

theorem Indexed.filter_vars (h : t.Indexed) (name : Bytes) :
    t.vars.filter (fun v => v.name = name) = (t.get? name).toList := by
  rw [h.get?_eq]
  exact h.distinct.filter_vars name

theorem Indexed.get?_eq_some_iff (h : t.Indexed) {v : Variable} :
    t.get? name = some v ↔ v ∈ t.vars ∧ v.name = name := by
  rw [← Option.mem_toList, ← h.filter_vars, List.mem_filter, decide_eq_true_eq]

theorem Indexed.isSome_get?_iff (h : t.Indexed) : (t.get? name).isSome = true ↔ name ∈ t.names := by
  rw [h.get?_eq]
  exact ParamList.has_iff

theorem Indexed.has_eq_isSome (h : t.Indexed) (name : Bytes) : t.has name = (t.get? name).isSome := by
  rw [h.has_eq, h.get?_eq]
  rfl

/-- What two tables report on a name depends only on the variables that they have of it. -/
theorem filter_reports (ht : t.Indexed) (hu : u.Indexed) (name : Bytes) :
    (t.reports u).filter (fun r => r.name = name) = ParamReport.about name (t.get? name) (u.get? name) := by
  have hextra :
      ((u.vars.filter fun w => !t.has w.name).map fun w => ParamReport.extra w.name).filter (fun r => r.name = name) =
        ((u.get? name).toList.filter fun w => !t.has w.name).map fun w => .extra w.name := by
    rw [List.filter_map, List.filter_comm]
    exact congrArg (fun vs => (List.filter _ vs).map _) (hu.filter_vars name)
  rw [reports, List.filter_append, filter_flatMap_reportsOn, ht.filter_vars, hextra]
  cases hv : t.get? name with
  | none =>
    cases hw : u.get? name with
    | none => rfl
    | some w =>
      have hfree : t.has w.name = false := by rw [(hu.get?_eq_some_iff.mp hw).2, ht.has_eq_isSome, hv]; rfl
      rw [Option.toList_some, List.filter_cons_of_pos (by simp [hfree])]
      simp [ParamReport.about, (hu.get?_eq_some_iff.mp hw).2]
  | some v =>
    have hname := (ht.get?_eq_some_iff.mp hv).2
    cases hw : u.get? name with
    | none => simp [ParamReport.about, reportsOn, hname, hw]
    | some w =>
      have htaken : t.has w.name = true := by rw [(hu.get?_eq_some_iff.mp hw).2, ht.has_eq_isSome, hv]; rfl
      simp [ParamReport.about, reportsOn, hname, hw, htaken]

/-- Two tables compare as equal just if the variables of each name do. -/
theorem compare_eq_nil_iff (ht : t.Indexed) (hu : u.Indexed) :
    t.compare u = [] ↔ ∀ name, Option.Rel Variable.Agrees (t.get? name) (u.get? name) := by
  have habout (name : Bytes) : (t.reports u).filter (fun r => r.name = name) = [] ↔
      Option.Rel Variable.Agrees (t.get? name) (u.get? name) := by
    rw [filter_reports ht hu, ParamReport.about_eq_nil_iff]
  rw [compare, List.map_eq_nil_iff]
  constructor
  · intro h name
    rw [← habout, h]
    rfl
  · intro h
    rw [List.eq_nil_iff_forall_not_mem]
    intro r hr
    exact List.filter_eq_nil_iff.mp ((habout r.name).mpr (h r.name)) r hr (decide_eq_true rfl)

/-- It does not matter which of two tables comes first. -/
theorem compare_eq_nil_comm (ht : t.Indexed) (hu : u.Indexed) : t.compare u = [] ↔ u.compare t = [] := by
  have hsymm {a b : Option Variable} (h : Option.Rel Variable.Agrees a b) : Option.Rel Variable.Agrees b a := by
    cases h with
    | some h => exact .some h.symm
    | none => exact .none
  rw [compare_eq_nil_iff ht hu, compare_eq_nil_iff hu ht]
  exact ⟨fun h name => hsymm (h name), fun h name => hsymm (h name)⟩

/-- The variables of each name agree just if no name is in one table only and variables of one name agree. -/
theorem forall_rel_iff (ht : t.Indexed) (hu : u.Indexed) :
    (∀ name, Option.Rel Variable.Agrees (t.get? name) (u.get? name)) ↔
      (∀ name, name ∈ t.names ↔ name ∈ u.names) ∧ ∀ v ∈ t.vars, ∀ w ∈ u.vars, v.name = w.name → v.Agrees w := by
  constructor
  · intro h
    have hisSome {a b : Option Variable} (hrel : Option.Rel Variable.Agrees a b) : a.isSome = b.isSome := by
      cases hrel <;> rfl
    refine ⟨fun name => ?_, fun v hv w hw hname => ?_⟩
    · rw [← ht.isSome_get?_iff, ← hu.isSome_get?_iff, hisSome (h name)]
    · have hrel := h w.name
      rw [ht.get?_eq_some_iff.mpr ⟨hv, hname⟩, hu.get?_eq_some_iff.mpr ⟨hw, rfl⟩] at hrel
      exact Option.rel_some_some.mp hrel
  · rintro ⟨hnames, hvars⟩ name
    have hname := hnames name
    rw [← ht.isSome_get?_iff, ← hu.isSome_get?_iff] at hname
    cases hv : t.get? name with
    | none =>
      cases hw : u.get? name with
      | none => exact .none
      | some w => simp [hv, hw] at hname
    | some v =>
      cases hw : u.get? name with
      | none => simp [hv, hw] at hname
      | some w =>
        obtain ⟨hvmem, hvname⟩ := ht.get?_eq_some_iff.mp hv
        obtain ⟨hwmem, hwname⟩ := hu.get?_eq_some_iff.mp hw
        exact .some (hvars v hvmem w hwmem (hvname.trans hwname.symm))

/-! ## Names that only one table has -/

/-- A name that only one table has is reported once, whichever of the two comes first. -/
theorem filter_reports_of_not_mem (ht : t.Indexed) (hu : u.Indexed) (hmem : name ∈ t.names) (hfree : name ∉ u.names) :
    (t.reports u).filter (fun r => r.name = name) = [.missing name] ∧
      (u.reports t).filter (fun r => r.name = name) = [.extra name] := by
  obtain ⟨v, hv⟩ := Option.isSome_iff_exists.mp (ht.isSome_get?_iff.mpr hmem)
  have hnone : u.get? name = none := Option.not_isSome_iff_eq_none.mp (mt hu.isSome_get?_iff.mp hfree)
  rw [filter_reports ht hu, filter_reports hu ht, hv, hnone]
  exact ⟨rfl, rfl⟩

theorem name_mem_of_mem_reports {r : ParamReport} (h : r ∈ t.reports u) : r.name ∈ t.names ++ u.names := by
  rw [List.mem_append]
  rcases List.mem_append.mp h with h | h
  · obtain ⟨v, hv, hr⟩ := List.mem_flatMap.mp h
    exact .inl (List.mem_map.mpr ⟨v, hv, (name_of_mem_reportsOn hr).symm⟩)
  · obtain ⟨w, hw, rfl⟩ := List.mem_map.mp h
    exact .inr (List.mem_map_of_mem (List.mem_of_mem_filter hw))

/-- A report that is the only one on its name has a line of its own, if no name has an apostrophe. -/
theorem count_text_of_filter {r : ParamReport} (hplain : ∀ name ∈ t.names ++ u.names, ParamReport.apostrophe ∉ name)
    (h : (t.reports u).filter (fun s => s.name = r.name) = [r]) : (t.compare u).count r.text = 1 := by
  have hmem : r ∈ t.reports u := List.mem_of_mem_filter (h ▸ List.mem_singleton_self r)
  have hcount := List.count_filter (l := t.reports u) (p := fun s => s.name = r.name) (a := r) (decide_eq_true rfl)
  rw [h, List.count_singleton_self] at hcount
  rw [compare, ParamReport.count_text (hplain _ (name_mem_of_mem_reports hmem)) fun s hs =>
    hplain _ (name_mem_of_mem_reports hs), ← hcount]

/-- Two tables made by any operations compare as the parameter lists that they store. The comparison is empty just if they
have the same names, in whatever order, and the variables of each name agree, so it does not matter which of the two comes
first. A name that only one of them has is reported exactly once in either direction. Its line stands there exactly once
too, if names have no apostrophes, with which one line can be worded like another. -/
theorem compare_run (vs ws : List Variable) (ops ops' : List ParamOp) :
    let t := run vs ops
    let u := run ws ops'
    t.compare u = (runList vs ops).compare (runList ws ops') ∧
      (t.compare u = [] ↔
        (∀ name, name ∈ t.names ↔ name ∈ u.names) ∧ ∀ v ∈ t.vars, ∀ w ∈ u.vars, v.name = w.name → v.Agrees w) ∧
      (t.compare u = [] ↔ u.compare t = []) ∧
      ∀ name ∈ t.names, name ∉ u.names →
        (t.reports u).filter (fun r => r.name = name) = [.missing name] ∧
        (u.reports t).filter (fun r => r.name = name) = [.extra name] ∧
        ((∀ other ∈ t.names ++ u.names, ParamReport.apostrophe ∉ other) →
          (t.compare u).count (ParamReport.missing name).text = 1 ∧ (u.compare t).count (ParamReport.extra name).text = 1) := by
  intro t u
  have ht : t.Tracks (runList vs ops) := tracks_run vs ops
  have hu : u.Tracks (runList ws ops') := tracks_run ws ops'
  have hempty := (compare_eq_nil_iff ht.indexed hu.indexed).trans (forall_rel_iff ht.indexed hu.indexed)
  refine ⟨ht.compare hu, hempty, compare_eq_nil_comm ht.indexed hu.indexed, fun name hmem hfree => ?_⟩
  obtain ⟨hmissing, hextra⟩ := filter_reports_of_not_mem ht.indexed hu.indexed hmem hfree
  refine ⟨hmissing, hextra, fun hplain => ⟨count_text_of_filter hplain hmissing, count_text_of_filter ?_ hextra⟩⟩
  intro other hother
  exact hplain other (List.mem_append.mpr (List.mem_append.mp hother).symm)

/-- Lists in different orders, one with a zero and no list of values where the other has a negative zero and an empty one,
compare as equal, until one of them gets a variable of its own. -/
theorem compare_run_reordered :
    let x : Variable := { Variable.scalar "x" "real" "h" with initial := some [.float .zero] }
    let x' : Variable := { x with initial := some [.float Binary64.zero.neg] }
    let n : Variable := .scalar "n" "int" "h"
    let extra : Variable := .scalar "extra" "bool" "h"
    let t := run [x, n] []
    let t' := run [x, n] [.add extra]
    let u := run [extra, { n with initial := some [] }] [.add x', .remove extra.name]
    t.compare u = [] ∧ u.compare t = [] ∧ extra.name ∈ t'.names ∧ extra.name ∉ u.names ∧
      (t'.reports u).filter (fun r => r.name = extra.name) = [.missing extra.name] ∧
      (u.reports t').filter (fun r => r.name = extra.name) = [.extra extra.name] ∧
      (t'.compare u).count (ParamReport.missing extra.name).text = 1 ∧
      (u.compare t').count (ParamReport.extra extra.name).text = 1 := by
  intro x x' n extra t t' u
  have hvars (vs : List Variable) (ops : List ParamOp) : (run vs ops).vars = (runList vs ops).vars :=
    congrArg ParamList.vars (tracks_run vs ops).toList
  have ht : t.vars = [x, n] := (hvars _ _).trans (by decide)
  have ht' : t'.vars = [x, n, extra] := (hvars _ _).trans (by decide)
  have hu : u.vars = [{ n with initial := some [] }, x'] := (hvars _ _).trans (by decide)
  obtain ⟨-, hempty, hsymm, -⟩ :=
    compare_run [x, n] [extra, { n with initial := some [] }] [] [.add x', .remove extra.name]
  obtain ⟨-, -, -, honce⟩ :=
    compare_run [x, n] [extra, { n with initial := some [] }] [.add extra] [.add x', .remove extra.name]
  have hagree : t.compare u = [] := by
    refine hempty.mpr ⟨?_, ?_⟩
    · show ∀ name, name ∈ t.vars.map (·.name) ↔ name ∈ u.vars.map (·.name)
      rw [ht, hu]
      simp [x, x', n, or_comm]
    · show ∀ v ∈ t.vars, ∀ w ∈ u.vars, v.name = w.name → v.Agrees w
      simp only [← Variable.diff_eq_nil_iff]
      rw [ht, hu]
      decide
  have hmem : extra.name ∈ t'.names := by rw [names, ht']; decide
  have hfree : extra.name ∉ u.names := by rw [names, hu]; decide
  obtain ⟨hmissing, hextra, hlines⟩ := honce _ hmem hfree
  obtain ⟨hline, hline'⟩ := hlines (by
    show ∀ other ∈ t'.vars.map (·.name) ++ u.vars.map (·.name), ParamReport.apostrophe ∉ other
    rw [ht', hu]
    decide)
  exact ⟨hagree, hsymm.mp hagree, hmem, hfree, hmissing, hextra, hline, hline'⟩

end ParamTable

end IrafCl
