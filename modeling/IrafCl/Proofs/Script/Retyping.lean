import IrafCl.Proofs.Script.Layout

/-!
# Typing a tree again

The type pass computes the types of an expression from the kinds and the tokens below it alone: whatever types its nodes
carry before, they carry the same ones afterwards (`annotate_of_untyped`). So the pass may run any number of times, over a
tree that has its types or over one whose types were overwritten, and the code that is generated is the same
(`checkTimes_untyped`).
-/

namespace IrafCl.Script

namespace Typing

/-! ## Trees up to types -/

mutual

/-- A tree without the types of its expressions. -/
def untyped : Tree → Tree
  | .absent => .absent
  | .leaf t => .leaf t
  | .branch k types cs => .branch k (if k.isExpr then .unset else types) (untypedAll cs)

def untypedAll : List Tree → List Tree
  | [] => []
  | c :: cs => untyped c :: untypedAll cs

end

variable {scope : Scope} {n n' : Tree} {k : Symbol} {types : Types} {cs cs' : List Tree} {rhs : List Symbol}

theorem untypedAll_eq_map (cs : List Tree) : untypedAll cs = cs.map untyped := by
  induction cs with
  | nil => rfl
  | cons c cs ih => rw [untypedAll, ih, List.map_cons]

theorem kind?_untyped (n : Tree) : (untyped n).kind? = n.kind? := by
  cases n <;> simp [untyped, Node.kind?]

/-- What is asked of an expression is one of its types. -/
theorem untyped_require? (asked : Option Ty) (hk : n.kind? = some k) (hexpr : k.isExpr = true) :
    untyped (require? asked n) = untyped n := by
  cases asked with
  | none => rfl
  | some t =>
    cases n with
    | branch k' types cs =>
      cases hk
      simp [require?, require, untyped, hexpr]
    | _ => rfl

/-- A tree that differs from a node in types alone is a node of the same kind, with such children. -/
theorem exists_of_untyped_branch (h : untyped n' = untyped (.branch k types cs)) :
    ∃ types' cs', n' = .branch k types' cs' ∧ (k.isExpr = false → types' = types) ∧ cs'.map untyped = cs.map untyped := by
  cases n' with
  | branch k' types' cs' =>
    simp only [untyped, Node.branch.injEq, untypedAll_eq_map] at h
    obtain ⟨rfl, htypes, hcs⟩ := h
    refine ⟨types', cs', rfl, fun hexpr => ?_, hcs⟩
    rwa [if_neg (by simp [hexpr]), if_neg (by simp [hexpr])] at htypes
  | _ => cases h

/-- The children of two such nodes correspond. -/
theorem forall₂_of_untyped {R : Tree → Tree → Prop} (h : cs'.map untyped = cs.map untyped)
    (ih : ∀ c ∈ cs, ∀ c', untyped c' = untyped c → R c c') : List.Forall₂ R cs cs' := by
  induction cs generalizing cs' with
  | nil =>
    rw [List.map_eq_nil_iff.mp h]
    exact .nil
  | cons c cs hrec =>
    obtain ⟨c', rest, rfl, hc, hrest⟩ := List.map_eq_cons_iff.mp h
    exact .cons (ih c (by simp) c' hc) (hrec hrest fun d hd => ih d (by simp [hd]))

/-- A tree of the grammar is one whatever the types in it. -/
theorem grown_of_untyped (h : Grown n) : ∀ n', untyped n' = untyped n → Grown n' := by
  refine Grown.induction (P := fun n => ∀ n', untyped n' = untyped n → Grown n') (fun n hn ih n' heq => ?_) h
  cases n with
  | absent => cases n' <;> first | exact hn | cases heq
  | leaf token => cases n' <;> first | (cases heq; exact hn) | cases heq
  | branch k types cs =>
    obtain ⟨types', cs', rfl, -, hcs⟩ := exists_of_untyped_branch heq
    refine hn.replace (forall₂_of_untyped hcs fun c hc c' heq => ⟨?_, fun _ => ih c hc c' heq⟩)
    rw [← kind?_untyped, heq, kind?_untyped]

/-! ## The types of a node -/

/-- The types that an expression had do not matter for those that it gets, and only of expressions types are asked. -/
theorem typed_of_node (scope : Scope) (hnode : ExprNode k cs) :
    (∀ types, typed scope k types cs = typed scope k .unset cs) ∧
      (typed scope k .unset cs).2.map untyped = cs.map untyped := by
  cases hnode with
  | pass hk => simp only [typed_pass hk, implies_true, and_self]
  | @unary t _ x _ hx =>
    obtain ⟨ty, asked, htyped, -⟩ := @typed_unary scope .unset (.leaf t) x
    refine ⟨fun _ => rfl, ?_⟩
    simp only [htyped, List.map_cons, untyped_require? asked hx rfl]
  | @binary _ _ _ t x y hop hx hy =>
    obtain ⟨ty, tl, tr, htyped, -⟩ := @typed_op scope .unset _ _ _ _ hop x y t rfl
    refine ⟨fun _ => ?_, ?_⟩
    · generalize t.kind = op at hop
      cases hop <;> rfl
    · simp only [htyped, List.map_cons, untyped_require? tl hx hop.isExpr.1, untyped_require? tr hy hop.isExpr.2]
  -- no other node asks for a type, and the type that it gets is read off its children
  | _ => exact ⟨fun _ => rfl, rfl⟩

/-- Only expressions get types, and only an assignment asks for any besides them. -/
theorem typed_of_not_isExpr (scope : Scope) (h : k.isExpr = false) (types : Types) (cs : List Tree) :
    (typed scope k types cs).1 = types ∧ (k ≠ .assignment → (typed scope k types cs).2 = cs) := by
  cases k <;> first | (cases h; done) | exact ⟨rfl, fun _ => rfl⟩ | skip
  case assignment =>
    refine ⟨?_, fun hne => absurd rfl hne⟩
    unfold typed
    dsimp only
    repeat' split
    all_goals rfl

/-- An assignment asks for the type of its value. -/
theorem untyped_typed_assignment (hrhs : rhs ∈ productions .assignment) (hkids : Kids rhs cs) :
    (typed scope .assignment types cs).2.map untyped = cs.map untyped := by
  have hrhs : rhs ∈ [[.lvalue, .equals, .expr], [.lvalue, .assignOp, .expr]] := hrhs
  obtain ⟨target, op, value, rfl, hvalue⟩ : ∃ target op value, cs = [target, op, value] ∧ value.kind? = some .expr := by
    simp only [List.mem_cons, List.not_mem_nil, or_false] at hrhs
    rcases hrhs with rfl | rfl
    all_goals
      obtain ⟨target, op, value, rfl, -, -, hvalue⟩ := hkids.triple
      exact ⟨target, op, value, rfl, hvalue.1⟩
  have hrequire (t : Ty) : untyped (require t value) = untyped value := untyped_require? (some t) hvalue rfl
  simp only [typed]
  split
  · rfl
  · simp only [List.map_cons, hrequire]

/-- The pass keeps everything but the types of expressions. -/
theorem untyped_annotate (scope : Scope) (h : Grown n) : untyped (annotate scope n) = untyped n := by
  refine Grown.induction (P := fun n => untyped (annotate scope n) = untyped n) (fun n hn ih => ?_) h
  cases n with
  | absent => rfl
  | leaf token => rfl
  | branch k types cs =>
    have hcs : (cs.map (annotate scope)).map untyped = cs.map untyped := by
      rw [List.map_map]
      exact List.map_congr_left ih
    have inner (hk : k.isInner = true) : ∃ rhs ∈ productions k, Kids rhs (cs.map (annotate scope)) := by
      obtain ⟨_, _, rhs, heq, hrhs, hkids⟩ := hn.children rfl hk
      cases heq
      exact ⟨rhs, hrhs, hkids.annotate scope⟩
    rw [annotate_branch, untyped, untyped, untypedAll_eq_map, untypedAll_eq_map, ← hcs]
    cases hexpr : k.isExpr with
    | true =>
      obtain ⟨rhs, hrhs, hkids⟩ := inner (isInner_of_isExpr hexpr)
      obtain ⟨htypes, hchildren⟩ := typed_of_node scope (.of_kids hexpr hrhs hkids)
      rw [htypes, hchildren, if_pos rfl, if_pos rfl]
    | false =>
      obtain ⟨htypes, hchildren⟩ := typed_of_not_isExpr scope hexpr types (cs.map (annotate scope))
      rw [htypes]
      by_cases hk : k = .assignment
      · subst hk
        obtain ⟨rhs, hrhs, hkids⟩ := inner rfl
        rw [untyped_typed_assignment hrhs hkids]
      · rw [hchildren hk]

/-- What the pass gives depends on nothing that it overwrites. -/
theorem annotate_of_untyped (h : Grown n) : ∀ n', untyped n' = untyped n → annotate scope n' = annotate scope n := by
  refine Grown.induction (P := fun n => ∀ n', untyped n' = untyped n → annotate scope n' = annotate scope n)
    (fun n hn ih n' heq => ?_) h
  cases n with
  | absent => cases n' <;> first | rfl | cases heq
  | leaf token => cases n' <;> first | (cases heq; rfl) | cases heq
  | branch k types cs =>
    obtain ⟨types', cs', rfl, htypes, hcs⟩ := exists_of_untyped_branch heq
    have hall : cs.map (annotate scope) = cs'.map (annotate scope) := by
      rw [← List.forall₂_eq_eq_eq, List.forall₂_map_left_iff, List.forall₂_map_right_iff]
      exact forall₂_of_untyped hcs fun c hc c' heq => (ih c hc c' heq).symm
    rw [annotate_branch, annotate_branch, ← hall]
    cases hexpr : k.isExpr with
    | true =>
      obtain ⟨_, _, rhs, heq, hrhs, hkids⟩ := hn.children rfl (isInner_of_isExpr hexpr)
      cases heq
      have htypes := (typed_of_node scope (.of_kids hexpr hrhs (hkids.annotate scope))).1
      rw [htypes types', htypes types]
    | false => rw [htypes hexpr]

/-! ## Any number of times -/

/-- The type pass, some number of times. -/
def checkTimes (scope : Scope) : Nat → Tree → Except Violation Tree
  | 0, t => .ok t
  | runs + 1, t => checkTypes scope t >>= checkTimes scope runs

end Typing

/-- What is generated after the type pass has run some number of times. -/
def generatedAfter (st : Settings) (scope : Scope) (runs : Nat) (t : Tree) : Except Halt Generated :=
  (Typing.checkTimes scope runs t).mapError .violation >>= generateTree st scope

namespace Typing

variable {scope : Scope} {t : Tree}

/-- A tree of the grammar gets its types, whatever the variables, and nothing else in it changes. With these types or with
any others in place of them, any number of further runs gives the same tree, and so the same code as a single one. -/
theorem checkTimes_untyped (st : Settings) (scope : Scope) (ht : Grown t) : ∃ typed, checkTypes scope t = .ok typed ∧
    untyped typed = untyped t ∧ ∀ t', untyped t' = untyped typed → ∀ runs, 1 ≤ runs →
      checkTimes scope runs t' = .ok typed ∧ generatedAfter st scope runs t' = generatedAfter st scope 1 t := by
  refine ⟨annotate scope t, checkTypes_eq scope ht, untyped_annotate scope ht, fun t' ht' runs hruns => ?_⟩
  have hcheck (t' : Tree) (ht' : untyped t' = untyped t) : checkTypes scope t' = .ok (annotate scope t) := by
    rw [checkTypes_eq scope (grown_of_untyped ht t' ht'), annotate_of_untyped ht t' ht']
  have hruns' (runs : Nat) : ∀ t', untyped t' = untyped t → checkTimes scope (runs + 1) t' = .ok (annotate scope t) := by
    induction runs with
    | zero => exact fun t' ht' => by rw [checkTimes, hcheck t' ht']; rfl
    | succ runs ih => exact fun t' ht' => by rw [checkTimes, hcheck t' ht']; exact ih _ (untyped_annotate scope ht)
  obtain ⟨runs, rfl⟩ := Nat.exists_eq_add_of_le' hruns
  have htyped := hruns' runs t' (ht'.trans (untyped_annotate scope ht))
  refine ⟨htyped, ?_⟩
  rw [generatedAfter, generatedAfter, htyped, hruns' 0 t rfl]

/-- The script of an assignment whose value carries types of another pass. -/
def staleScript : Tree :=
  let stale (k : Symbol) (c : Tree) : Tree := .branch k ⟨.bool, .float⟩ [c]
  .branch .program .unset [.branch .localDecls .unset [], .branch .stmtList .unset [.branch .stmtList .unset [],
    .branch .statement .unset [.branch .simpleStmt .unset [.branch .assignment .unset
      [.branch .lvalue .unset [.leaf ⟨.ident, "mode", none, 1⟩], .leaf ⟨.equals, "=", none, 1⟩,
        stale .expr (stale .orExpr (stale .andExpr (stale .cmpExpr (stale .concatExpr (stale .addExpr (stale .mulExpr
          (stale .unary (stale .powExpr (stale .primary (stale .constant (.leaf ⟨.integer, "2", none, 1⟩)))))))))))]],
      .branch .term .unset [.leaf ⟨.newline, "", none, 1⟩]]]]

/-- Those types are overwritten, by the types of the program without them. -/
theorem checkTimes_untyped_stale : ∃ typed, checkTypes .empty modeScript = .ok typed ∧ staleScript ≠ typed ∧
    checkTimes .empty 2 staleScript = .ok typed ∧
    generatedAfter {} .empty 2 staleScript = generatedAfter {} .empty 1 modeScript := by
  obtain ⟨typed, htyped, -, hagain⟩ := checkTimes_untyped {} .empty grown_modeScript
  have heq : typed = annotate .empty modeScript := by
    rw [checkTypes_eq .empty grown_modeScript] at htyped
    cases htyped
    rfl
  subst heq
  have hstale : untyped staleScript = untyped (annotate .empty modeScript) := rfl
  obtain ⟨hcheck, hgenerated⟩ := hagain staleScript hstale 2 (by decide)
  exact ⟨_, htyped, nofun, hcheck, hgenerated⟩

end Typing

end IrafCl.Script
