import IrafCl.Param.List

/-!
# Parameter lists have unique names

A parameter list is made by `append` at a free name, by `set` and by `remove`, and all three keep its names distinct.
A list with distinct names is the one that its variables make again (`ofVars_vars`). Set over another list, its variables
replace those of their names in place, and the others follow in order (`vars_setAll`).
-/

namespace IrafCl.ParamList

/-- The names of the variables are all different. -/
def Distinct (p : ParamList) : Prop := p.names.Nodup

variable {p : ParamList} {v : Variable} {name : Bytes}

theorem has_iff : p.has name = true ↔ name ∈ p.names := by
  simp [has, get?, names]

theorem has_congr {q : ParamList} (h : p.names = q.names) (name : Bytes) : p.has name = q.has name := by
  rw [Bool.eq_iff_iff, has_iff, has_iff, h]

theorem has_eq_false_iff : p.has name = false ↔ name ∉ p.names := by
  rw [← has_iff, Bool.not_eq_true]

theorem get?_append_of_not_has (h : p.has v.name = false) : (p.append v).get? v.name = some v := by
  have hnone : p.vars.find? (fun w => w.name = v.name) = none := by simpa [has, get?] using h
  simp [get?, append, hnone]

theorem has_remove_self (p : ParamList) (name : Bytes) : (p.remove name).has name = false := by
  rw [Bool.eq_false_iff]
  intro h
  simp only [has_iff, names, remove, List.mem_map, List.mem_filter, decide_eq_true_eq] at h
  obtain ⟨w, hw, hname⟩ := h
  exact hw.2 hname

theorem get?_remove_of_ne {other : Bytes} (h : name ≠ other) : (p.remove other).get? name = p.get? name := by
  unfold get? remove
  rw [List.find?_filter]
  congr 1
  funext w
  by_cases hw : w.name = name
  · simp [hw, h]
  · simp [hw]

/-! ## The variables of a list -/

theorem forall_mem_set {P : Variable → Prop} (hp : ∀ w ∈ p.vars, P w) (hv : P v) : ∀ w ∈ (p.set v).vars, P w := by
  unfold set
  split
  · intro w hw
    obtain ⟨x, hx, rfl⟩ := List.mem_map.mp hw
    split
    · exact hv
    · exact hp x hx
  · exact List.forall_mem_append.mpr ⟨hp, List.forall_mem_singleton.mpr hv⟩

theorem forall_mem_setAll {P : Variable → Prop} {vs : List Variable} (hp : ∀ w ∈ p.vars, P w) (hvs : ∀ v ∈ vs, P v) :
    ∀ w ∈ (p.setAll vs).vars, P w := by
  unfold setAll
  induction vs generalizing p with
  | nil => exact hp
  | cons v vs ih =>
    rw [List.forall_mem_cons] at hvs
    exact ih (forall_mem_set hp hvs.1) hvs.2

/-! ## Distinct names -/

theorem distinct_empty : empty.Distinct := List.nodup_nil

theorem names_append (p : ParamList) (v : Variable) : (p.append v).names = p.names ++ [v.name] := by
  simp [names, append]

theorem Distinct.append (h : p.Distinct) (hv : p.has v.name = false) : (p.append v).Distinct := by
  have hfree : v.name ∉ p.names := fun hmem => by rw [has_iff.mpr hmem] at hv; cases hv
  unfold Distinct
  rw [names_append, List.nodup_append]
  refine ⟨h, by simp, fun a ha b hb hab => hfree ?_⟩
  rwa [← List.mem_singleton.mp hb, ← hab]

theorem has_append (p : ParamList) (v : Variable) (name : Bytes) :
    (p.append v).has name = (p.has name || decide (name = v.name)) := by
  rw [Bool.eq_iff_iff, has_iff, names_append]
  simp [has_iff]

/-- Replacing a variable keeps the names. -/
theorem names_set_of_has (h : p.has v.name = true) : (p.set v).names = p.names := by
  unfold set
  rw [if_pos h]
  unfold names
  rw [List.map_map]
  refine List.map_congr_left fun w _ => ?_
  rw [Function.comp_apply]
  split
  · next heq => exact heq.symm
  · rfl

theorem Distinct.set (h : p.Distinct) (v : Variable) : (p.set v).Distinct := by
  cases hv : p.has v.name with
  | true =>
    unfold Distinct
    rw [names_set_of_has hv]
    exact h
  | false =>
    rw [ParamList.set, if_neg (by rw [hv]; decide)]
    exact h.append hv

theorem has_set (p : ParamList) (v : Variable) (name : Bytes) :
    (p.set v).has name = (p.has name || decide (name = v.name)) := by
  cases hv : p.has v.name with
  | true =>
    rw [has_congr (names_set_of_has hv)]
    by_cases hname : name = v.name
    · rw [hname, hv]
      rfl
    · simp [hname]
  | false => rw [set, if_neg (by rw [hv]; decide), has_append]

theorem Distinct.setAll (h : p.Distinct) (vs : List Variable) : (p.setAll vs).Distinct := by
  unfold ParamList.setAll
  induction vs generalizing p with
  | nil => exact h
  | cons v vs ih => exact ih (h.set v)

/-- With distinct names, a variable is found under its name. -/
theorem Distinct.get?_of_mem (h : p.Distinct) (hv : v ∈ p.vars) : p.get? v.name = some v := by
  unfold Distinct names at h
  unfold get?
  generalize p.vars = vs at h hv
  induction vs with
  | nil => cases hv
  | cons w vs ih =>
    rw [List.map_cons, List.nodup_cons] at h
    rcases List.mem_cons.mp hv with rfl | hv
    · simp
    · have hne : w.name ≠ v.name := fun heq => h.1 (heq ▸ List.mem_map_of_mem hv)
      rw [List.find?_cons_of_neg (by simpa using hne)]
      exact ih h.2 hv

theorem Distinct.remove (h : p.Distinct) (name : Bytes) : (p.remove name).Distinct :=
  h.sublist ((List.filter_sublist (l := p.vars)).map _)

/-- Variables with names of their own that are set over a list replace those of their names where they stand. The others
follow in order. -/
theorem vars_setAll (p : ParamList) {vs : List Variable} (h : (vs.map (·.name)).Nodup) : (p.setAll vs).vars =
    p.vars.map (fun w => (vs.find? fun v => v.name = w.name).getD w) ++ vs.filter (fun v => !p.has v.name) := by
  unfold setAll
  induction vs generalizing p with
  | nil => simp
  | cons v vs ih =>
    rw [List.map_cons, List.nodup_cons] at h
    have hlater : ∀ w ∈ vs, w.name ≠ v.name := fun w hw heq => h.1 (heq ▸ List.mem_map_of_mem hw)
    have hnone : (vs.find? fun w => w.name = v.name) = none := by simpa using hlater
    have hfilter : vs.filter (fun w => !(p.set v).has w.name) = vs.filter (fun w => !p.has w.name) :=
      List.filter_congr fun w hw => by rw [has_set]; simp [hlater w hw]
    rw [List.foldl_cons, ih (p.set v) h.2, hfilter]
    cases hv : p.has v.name with
    | true =>
      rw [List.filter_cons_of_neg (by simp [hv]), set, if_pos hv, List.map_map]
      congr 1
      refine List.map_congr_left fun w _ => ?_
      rw [Function.comp_apply, List.find?_cons]
      by_cases hw : w.name = v.name
      · simp [hw, hnone]
      · simp [hw, Ne.symm hw]
    | false =>
      rw [List.filter_cons_of_pos (by simp [hv]), set, if_neg (by rw [hv]; decide), append, List.map_append, List.map_singleton,
        hnone, Option.getD_none, List.append_assoc, List.singleton_append]
      congr 1
      refine List.map_congr_left fun w hw => ?_
      have hne : v.name ≠ w.name := fun heq => has_eq_false_iff.mp hv (heq ▸ List.mem_map_of_mem hw)
      rw [List.find?_cons_of_neg (by simpa using hne)]

/-- The variables of a list with distinct names make the list again. -/
theorem ofVars_vars (h : p.Distinct) : ofVars p.vars = p := by
  have hfree : p.vars.filter (fun v => !empty.has v.name) = p.vars := List.filter_eq_self.mpr fun _ _ => rfl
  have hvars : (ofVars p.vars).vars = p.vars := (vars_setAll empty h).trans hfree
  cases p
  exact congrArg ParamList.mk hvars

end IrafCl.ParamList
