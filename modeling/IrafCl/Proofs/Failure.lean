import IrafCl.Failure

/-!
# Which kinds a failure is of

A failure is a tree: reports have causes, plain failures are put into context, and several failures are joined. A report
is carried by a failure wherever it stands in the tree (`Carries`). The search for a kind follows causes and contexts, but
of a collection it enters only the first member that carries any report: it finds the reports that are reached in this way
(`Reaches`) and no others. What stands in a later member is hidden (`Hidden`), so a kind is missed if all its reports are.
-/

namespace IrafCl.Failure

/-- The report stands somewhere in the failure: at its head, behind a cause, in a context or in a member of a collection. -/
inductive Carries : Failure → Report → Prop where
  | report {r : Report} : Carries (.report r) r
  | head {r : Report} {cause : Failure} : Carries (.caused r cause) r
  | cause {what r : Report} {cause : Failure} (h : Carries cause r) : Carries (.caused what cause) r
  | context {text : Bytes} {inner : Failure} {r : Report} (h : Carries inner r) : Carries (.context text inner) r
  | member {parts : List Failure} {f : Failure} {r : Report} (hmem : f ∈ parts) (h : Carries f r) :
      Carries (.joined parts) r

/-- The failure carries no report at all. -/
def Bare (f : Failure) : Prop := ∀ r, ¬ f.Carries r

/-- The report is carried, and in every collection on the way to it the members before are bare. -/
inductive Reaches : Failure → Report → Prop where
  | report {r : Report} : Reaches (.report r) r
  | head {r : Report} {cause : Failure} : Reaches (.caused r cause) r
  | cause {what r : Report} {cause : Failure} (h : Reaches cause r) : Reaches (.caused what cause) r
  | context {text : Bytes} {inner : Failure} {r : Report} (h : Reaches inner r) : Reaches (.context text inner) r
  | member {before after : List Failure} {f : Failure} {r : Report} (hbare : ∀ g ∈ before, g.Bare) (h : Reaches f r) :
      Reaches (.joined (before ++ f :: after)) r

/-- The report is carried, and in some collection on the way to it a member before carries a report too. -/
inductive Hidden : Failure → Report → Prop where
  | cause {what r : Report} {cause : Failure} (h : Hidden cause r) : Hidden (.caused what cause) r
  | context {text : Bytes} {inner : Failure} {r : Report} (h : Hidden inner r) : Hidden (.context text inner) r
  | member {parts : List Failure} {f : Failure} {r : Report} (hmem : f ∈ parts) (h : Hidden f r) : Hidden (.joined parts) r
  | behind {before after : List Failure} {f g : Failure} {r : Report} (hmem : g ∈ before) (hg : ¬ g.Bare)
      (h : Carries f r) : Hidden (.joined (before ++ f :: after)) r

section
variable {f g : Failure} {parts before after : List Failure} {r : Report} {k : Kind}

theorem bare_plain (text : Bytes) : (plain text).Bare := nofun

theorem bare_context_iff {text : Bytes} : (context text f).Bare ↔ f.Bare := by
  constructor
  · intro h r hr
    exact h r (.context hr)
  · intro h r hr
    cases hr with
    | context hr => exact h r hr

theorem bare_joined_iff : (joined parts).Bare ↔ ∀ g ∈ parts, g.Bare := by
  constructor
  · intro h g hg r hr
    exact h r (.member hg hr)
  · intro h r hr
    cases hr with
    | member hmem hr => exact h _ hmem r hr

theorem Reaches.carries (h : f.Reaches r) : f.Carries r := by
  induction h with
  | report => exact .report
  | head => exact .head
  | cause _ ih => exact .cause ih
  | context _ ih => exact .context ih
  | member _ _ ih => exact .member (by simp) ih

theorem Reaches.not_bare (h : f.Reaches r) : ¬ f.Bare := fun hbare => hbare r h.carries

theorem Hidden.carries (h : f.Hidden r) : f.Carries r := by
  induction h with
  | cause _ ih => exact .cause ih
  | context _ ih => exact .context ih
  | member hmem _ ih => exact .member hmem ih
  | behind _ _ h => exact .member (by simp) h

/-- What is carried is reached, unless it is hidden. -/
theorem Carries.reaches_or_hidden (h : f.Carries r) : f.Reaches r ∨ f.Hidden r := by
  induction h with
  | report => exact .inl .report
  | head => exact .inl .head
  | cause _ ih => exact ih.imp .cause .cause
  | context _ ih => exact ih.imp .context .context
  | @member parts f r hmem h ih =>
    obtain ⟨before, after, rfl⟩ := List.append_of_mem hmem
    by_cases hbare : ∀ g ∈ before, g.Bare
    · exact ih.imp (.member hbare) (.member hmem)
    · obtain ⟨g, hg⟩ := Classical.not_forall.mp hbare
      obtain ⟨hmem, hg⟩ := Classical.not_imp.mp hg
      exact .inr (.behind hmem hg h)

theorem carries_iff : f.Carries r ↔ f.Reaches r ∨ f.Hidden r :=
  ⟨Carries.reaches_or_hidden, fun h => h.elim Reaches.carries Hidden.carries⟩

/-! ## The search -/

mutual

/-- A first report is found wherever there is one. -/
theorem find?_eq_none_iff : ∀ f : Failure, f.find? = none ↔ f.Bare
  | .plain text => by simp [find?, bare_plain]
  | .report r => by simpa [find?, Bare] using ⟨r, Carries.report⟩
  | .caused r cause => by simpa [find?, Bare] using ⟨r, Carries.head⟩
  | .context text inner => by rw [find?, find?_eq_none_iff inner, bare_context_iff]
  | .joined parts => by rw [find?, findFirst?_eq_none_iff parts, bare_joined_iff]

theorem findFirst?_eq_none_iff : ∀ parts : List Failure, findFirst? parts = none ↔ ∀ g ∈ parts, g.Bare
  | [] => by simp [findFirst?]
  | f :: parts => by
    have hf := find?_eq_none_iff f
    have hparts := findFirst?_eq_none_iff parts
    rw [findFirst?, List.forall_mem_cons, ← hf, ← hparts]
    cases f.find? <;> simp

end

/-- The first member of a collection that carries a report decides. -/
theorem isKindFirst_iff : isKindFirst k parts = true ↔
    ∃ before f after, parts = before ++ f :: after ∧ (∀ g ∈ before, g.Bare) ∧ ¬ f.Bare ∧ f.isKind k = true := by
  induction parts with
  | nil => simp [isKindFirst]
  | cons f parts ih =>
    have hf : f.find?.isSome = true ↔ ¬ f.Bare := by
      rw [← find?_eq_none_iff f, Option.isSome_iff_ne_none]
    rw [isKindFirst]
    by_cases hbare : f.Bare
    · rw [if_neg (by rw [hf]; exact not_not_intro hbare), ih]
      constructor
      · rintro ⟨before, g, after, rfl, hbefore, hg, hkind⟩
        exact ⟨f :: before, g, after, rfl, List.forall_mem_cons.mpr ⟨hbare, hbefore⟩, hg, hkind⟩
      · rintro ⟨before, g, after, heq, hbefore, hg, hkind⟩
        cases before with
        | nil =>
          cases heq
          exact absurd hbare hg
        | cons f' before =>
          cases heq
          exact ⟨before, g, after, rfl, (List.forall_mem_cons.mp hbefore).2, hg, hkind⟩
    · rw [if_pos (hf.mpr hbare)]
      constructor
      · intro hkind
        exact ⟨[], f, parts, rfl, nofun, hbare, hkind⟩
      · rintro ⟨before, g, after, heq, hbefore, hg, hkind⟩
        cases before with
        | nil =>
          cases heq
          exact hkind
        | cons f' before =>
          cases heq
          exact absurd (hbefore f List.mem_cons_self) hbare

end

mutual

/-- A failure is of the kinds of the reports that are reached. -/
theorem isKind_iff (k : Kind) : ∀ f : Failure, f.isKind k = true ↔ ∃ r, f.Reaches r ∧ r.kind = k
  | .plain text => by
    constructor
    · nofun
    · rintro ⟨r, h, -⟩
      cases h
  | .report r => by
    rw [isKind, beq_iff_eq]
    constructor
    · exact fun h => ⟨r, .report, h⟩
    · rintro ⟨r, h, hkind⟩
      cases h
      exact hkind
  | .caused r cause => by
    rw [isKind, Bool.or_eq_true, beq_iff_eq, isKind_iff k cause]
    constructor
    · rintro (h | ⟨r', h, hkind⟩)
      · exact ⟨r, .head, h⟩
      · exact ⟨r', .cause h, hkind⟩
    · rintro ⟨r', h, hkind⟩
      cases h with
      | head => exact .inl hkind
      | cause h => exact .inr ⟨r', h, hkind⟩
  | .context text inner => by
    rw [isKind, isKind_iff k inner]
    constructor
    · rintro ⟨r, h, hkind⟩
      exact ⟨r, .context h, hkind⟩
    · rintro ⟨r, h, hkind⟩
      cases h with
      | context h => exact ⟨r, h, hkind⟩
  | .joined parts => by
    have hparts := isKind_iff_of_mem k parts
    rw [isKind, isKindFirst_iff]
    constructor
    · rintro ⟨before, f, after, rfl, hbare, -, hkind⟩
      obtain ⟨r, h, hkind⟩ := (hparts f (by simp)).mp hkind
      exact ⟨r, .member hbare h, hkind⟩
    · rintro ⟨r, h, hkind⟩
      cases h with
      | @member before after f _ hbare h =>
        exact ⟨before, f, after, rfl, hbare, h.not_bare, (hparts f (by simp)).mpr ⟨r, h, hkind⟩⟩

theorem isKind_iff_of_mem (k : Kind) : ∀ parts : List Failure, ∀ f ∈ parts,
    (f.isKind k = true ↔ ∃ r, f.Reaches r ∧ r.kind = k)
  | [] => nofun
  | f :: parts => List.forall_mem_cons.mpr ⟨isKind_iff k f, isKind_iff_of_mem k parts⟩

end

/-- A joined report is of its own kind and of those of the first member that carries a report. -/
theorem isKind_join_iff {kind k : Kind} {fs : List Failure} : (join kind fs).isKind k = true ↔ kind = k ∨
    ∃ before f after, fs = before ++ f :: after ∧ (∀ g ∈ before, g.Bare) ∧ ¬ f.Bare ∧ f.isKind k = true := by
  rw [join, isKind, isKind, Bool.or_eq_true, beq_iff_eq, isKindFirst_iff]

/-- A failure is of a kind if a report of the kind is reached. Of the reports that a failure carries only the hidden ones are not
reached, so a kind is found wherever it is carried exactly if it is found where it is hidden. One report for one failure or more
is of its own kind and of the kinds of the first of them that carries a report. -/
theorem isKind_reached (f : Failure) (fs : List Failure) (kind k : Kind) :
    (f.isKind k = true ↔ ∃ r, f.Reaches r ∧ r.kind = k) ∧
    (∀ r, f.Carries r ↔ f.Reaches r ∨ f.Hidden r) ∧
    ((f.isKind k = true ↔ ∃ r, f.Carries r ∧ r.kind = k) ↔ ∀ r, f.Hidden r → r.kind = k → f.isKind k = true) ∧
    ((join kind (f :: fs)).isKind k = true ↔ kind = k ∨
      ∃ before g after, f :: fs = before ++ g :: after ∧ (∀ g ∈ before, g.Bare) ∧ ¬ g.Bare ∧ g.isKind k = true) := by
  refine ⟨isKind_iff k f, fun r => carries_iff, ⟨fun h r hr hkind => ?_, fun h => ⟨fun hkind => ?_, ?_⟩⟩, isKind_join_iff⟩
  · exact h.mpr ⟨r, hr.carries, hkind⟩
  · obtain ⟨r, hr, hkind⟩ := (isKind_iff k f).mp hkind
    exact ⟨r, hr.carries, hkind⟩
  · rintro ⟨r, hr, hkind⟩
    rcases hr.reaches_or_hidden with hr | hr
    · exact (isKind_iff k f).mpr ⟨r, hr, hkind⟩
    · exact h r hr hkind

/-- The second of two joined reports is not found, though it is a member and is found where it comes first. -/
theorem conversion_hidden :
    let syntactic := atLine .syntactic 1 "a"
    let conversion := atLine .conversion 2 "b"
    (join .generation [syntactic, conversion]).Carries ⟨.conversion, "b", 2⟩ ∧
      conversion.isKind .conversion = true ∧
      (join .generation [syntactic, conversion]).isKind .conversion = false ∧
      (join .generation [conversion, syntactic]).isKind .conversion = true :=
  ⟨.cause (.member (by simp [atLine]) .report), rfl, rfl, rfl⟩

end IrafCl.Failure
