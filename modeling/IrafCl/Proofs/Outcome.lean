import IrafCl.Contract

/-!
# Outcomes

Stages run one after the other, and the first that stops short decides. So a chain of stages ends well
exactly if all of them do (`bind_eq_ok`), and ends badly where one of them does (`bind_eq_error`). A stage
that stops has a report to give, or broke a contract; `FailsWith` says which reports a stage may give.
-/

namespace IrafCl

/-- The report that a failure is, when it is no plain text, context or collection. -/
def Failure.report? : Failure → Option Failure.Report
  | .report r => some r
  | .caused r _ => some r
  | _ => none

/-- The kind of the report that a run stops with. A violation has none. -/
def Halt.kind? : Halt → Option Failure.Kind
  | .failure f => f.report?.map (·.kind)
  | .violation _ => none

section
variable {ε α β : Type}

theorem bind_eq_ok {x : Except ε α} {f : α → Except ε β} {b : β} :
    (x >>= f) = .ok b ↔ ∃ a, x = .ok a ∧ f a = .ok b := by
  cases x with
  | error e => simp [bind, Except.bind]
  | ok a => simp [bind, Except.bind]

theorem exists_of_mapM_eq_ok {f : α → Except ε β} {as : List α} : ∀ {bs : List β}, as.mapM f = .ok bs →
    ∀ b ∈ bs, ∃ a ∈ as, f a = .ok b := by
  induction as with
  | nil =>
    intro bs h b hb
    cases h
    cases hb
  | cons a as ih =>
    intro bs h b hb
    rw [List.mapM_cons] at h
    obtain ⟨b₀, hb₀, h⟩ := bind_eq_ok.mp h
    obtain ⟨bs₀, hbs₀, h⟩ := bind_eq_ok.mp h
    cases h
    rcases List.mem_cons.mp hb with rfl | hb
    · exact ⟨a, by simp, hb₀⟩
    · obtain ⟨a', ha', hfa⟩ := ih hbs₀ b hb
      exact ⟨a', by simp [ha'], hfa⟩

theorem bind_eq_error {x : Except ε α} {f : α → Except ε β} {e : ε} :
    (x >>= f) = .error e ↔ x = .error e ∨ ∃ a, x = .ok a ∧ f a = .error e := by
  cases x with
  | error e => simp [bind, Except.bind]
  | ok a => simp [bind, Except.bind]

end

/-! ## Reports of a stage -/

section
variable {α β : Type} {kinds : List Failure.Kind} {x : Except Failure α}

/-- A failure is a report of one of the kinds. -/
def Failure.IsOneOf (kinds : List Failure.Kind) (f : Failure) : Prop :=
  ∃ r, f.report? = some r ∧ r.kind ∈ kinds

/-- If a stage fails, it does so with a report of one of the kinds. -/
def FailsWith (kinds : List Failure.Kind) (x : Except Failure α) : Prop :=
  ∀ f, x = .error f → f.IsOneOf kinds

theorem failsWith_ok (a : α) : FailsWith kinds (.ok a : Except Failure α) := by
  intro f h
  cases h

theorem failsWith_error {f : Failure} (h : f.IsOneOf kinds) : FailsWith kinds (.error f : Except Failure α) := by
  intro f' h'
  cases h'
  exact h

theorem isOneOf_atLine {kind : Failure.Kind} (h : kind ∈ kinds) (line : Int) (message : Bytes) :
    (Failure.atLine kind line message).IsOneOf kinds := ⟨_, rfl, h⟩

theorem failsWith_atLine {kind : Failure.Kind} (h : kind ∈ kinds) (line : Int) (message : Bytes) :
    FailsWith kinds (.error (.atLine kind line message) : Except Failure α) :=
  failsWith_error (isOneOf_atLine h line message)

theorem failsWith_bind {f : α → Except Failure β} (hx : FailsWith kinds x) (hf : ∀ a, FailsWith kinds (f a)) :
    FailsWith kinds (x >>= f) := by
  intro e he
  rcases bind_eq_error.mp he with he | ⟨a, _, he⟩
  · exact hx e he
  · exact hf a e he

theorem failsWith_mapM {f : α → Except Failure β} (hf : ∀ a, FailsWith kinds (f a)) (as : List α) :
    FailsWith kinds (as.mapM f) := by
  induction as with
  | nil => exact failsWith_ok _
  | cons a as ih =>
    rw [List.mapM_cons]
    exact failsWith_bind (hf a) fun b => failsWith_bind ih fun bs => failsWith_ok _

/-- Giving a report a line keeps its kind. -/
theorem Failure.IsOneOf.withLine {f : Failure} (h : f.IsOneOf kinds) (line : Int) :
    (f.withLine line).IsOneOf kinds := by
  obtain ⟨r, hr, hkind⟩ := h
  cases f with
  | report r' =>
    cases hr
    unfold Failure.withLine
    simp only [Failure.find?]
    split
    · exact ⟨r, rfl, hkind⟩
    · exact ⟨{ r with line }, rfl, hkind⟩
  | caused r' cause =>
    cases hr
    unfold Failure.withLine
    simp only [Failure.find?]
    split
    · exact ⟨r, rfl, hkind⟩
    · exact ⟨{ r with line }, rfl, hkind⟩
  | plain _ => cases hr
  | context _ _ => cases hr
  | joined _ => cases hr

end

end IrafCl
