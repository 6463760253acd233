import IrafCl.Proofs.Script.Shape
import IrafCl.Script.Typing

/-!
# The type pass on grown trees

The type pass changes nothing but types, so a tree of the grammar stays one (`Grown.annotate`). It finds
every child it looks at, since the rules have them (`checkTypes_eq`).
-/

namespace IrafCl.Script

/-! ## Trees with other types -/

/-- Children that stand for the same symbols. -/
abbrev SameKinds (cs cs' : List Tree) : Prop := List.Forall₂ (fun c c' => c'.kind? = c.kind? ∧ (Grown c → Grown c')) cs cs'

theorem sameKinds_refl (cs : List Tree) : SameKinds cs cs := by
  rw [SameKinds, List.forall₂_same]
  exact fun c _ => ⟨rfl, id⟩

theorem Grown.replace {k : Symbol} {types types' : Types} {cs cs' : List Tree} (h : Grown (.branch k types cs))
    (hcs : SameKinds cs cs') : Grown (.branch k types' cs') := by
  have hgrown : ∀ c' ∈ cs', Grown c' := by
    have hold := fun c => h.of_mem_children (c := c)
    simp only [Node.children] at hold
    clear h
    induction hcs with
    | nil => simp
    | cons hc _ ih =>
      simp only [List.forall_mem_cons] at hold ⊢
      exact ⟨hc.2 hold.1, ih hold.2⟩
  have hkinds : cs'.map Node.kind? = cs.map Node.kind? := by
    clear h hgrown
    induction hcs with
    | nil => rfl
    | cons hc _ ih => rw [List.map_cons, List.map_cons, hc.1, ih]
  cases h.conforms with
  | branch r _ _ hrhs _ =>
    refine ⟨.branch r types' cs' (hkinds.trans hrhs) fun c hc => (hgrown c hc).conforms, fun t ht => ?_⟩
    rw [Node.leaves, Node.leavesOf_eq_flatMap, List.mem_flatMap] at ht
    obtain ⟨c, hc, ht⟩ := ht
    exact (hgrown c hc).lexed t ht

namespace Typing

theorem kind?_require (t : Ty) (n : Tree) : (require t n).kind? = n.kind? := by
  cases n <;> rfl

theorem grown_require {n : Tree} (t : Ty) (h : Grown n) : Grown (require t n) := by
  cases n with
  | branch k types cs => exact h.replace (sameKinds_refl cs)
  | leaf _ => exact h
  | absent => exact h

/-- Children of which a type is asked or not. -/
abbrev Asked (cs cs' : List Tree) : Prop := List.Forall₂ (fun c c' => ∃ t, c' = require? t c) cs cs'

theorem asked_refl (cs : List Tree) : Asked cs cs := by
  rw [Asked, List.forall₂_same]
  exact fun c _ => ⟨none, rfl⟩

/-- Typing a node replaces its children at most by themselves with another type required. -/
theorem asked_typed (scope : Scope) (k : Symbol) (types : Types) (cs : List Tree) : Asked cs (typed scope k types cs).2 := by
  have refl := asked_refl
  have operation (tl tr : Option Ty) (l op r : Tree) : Asked [l, op, r] [require? tl l, op, require? tr r] :=
    .cons ⟨tl, rfl⟩ (.cons ⟨none, rfl⟩ (.cons ⟨tr, rfl⟩ .nil))
  have uniform (t : Ty) (l op r : Tree) : Asked [l, op, r] (uniform t l op r).2 := operation (some t) (some t) l op r
  have arithmetic (l op r : Tree) : Asked [l, op, r] (arithmetic l op r).2 := operation _ _ l op r
  have unary (t : Ty) (op e : Tree) : Asked [op, e] [op, require t e] := .cons ⟨none, rfl⟩ (.cons ⟨some t, rfl⟩ .nil)
  have value (t : Ty) (target op e : Tree) : Asked [target, op, e] [target, op, require t e] :=
    operation none (some t) target op e
  unfold typed
  dsimp only
  -- a node keeps its children, or is an operation, a negation or an assignment that asks for a type
  repeat' split
  all_goals first
    | exact refl _
    | exact uniform _ _ _ _
    | exact arithmetic _ _ _
    | exact unary _ _ _
    | exact value _ _ _ _

theorem Asked.of_mem {cs cs' : List Tree} (h : Asked cs cs') {x : Tree} (hx : x ∈ cs') :
    ∃ y ∈ cs, ∃ t, x = require? t y := by
  induction h with
  | nil => cases hx
  | cons hc _ ih =>
    rcases List.mem_cons.mp hx with rfl | hx
    · exact ⟨_, by simp, hc⟩
    · obtain ⟨y, hy, ht⟩ := ih hx
      exact ⟨y, by simp [hy], ht⟩

theorem Asked.sameKinds {cs cs' : List Tree} (h : Asked cs cs') : SameKinds cs cs' := by
  refine List.Forall₂.imp ?_ h
  rintro c _ ⟨t, rfl⟩
  cases t with
  | none => exact ⟨rfl, id⟩
  | some t => exact ⟨kind?_require t c, grown_require t⟩

theorem Asked.leavesOf {cs cs' : List Tree} (h : Asked cs cs') : Node.leavesOf cs' = Node.leavesOf cs := by
  induction h with
  | nil => rfl
  | @cons c _ _ _ hc _ ih =>
    obtain ⟨t, rfl⟩ := hc
    have hleaves : (require? t c).leaves = c.leaves := by
      cases t with
      | none => rfl
      | some t => cases c <;> rfl
    rw [Node.leavesOf, Node.leavesOf, hleaves, ih]

mutual

/-- The type pass keeps the tokens. -/
theorem leaves_annotate (scope : Scope) : ∀ n : Tree, (annotate scope n).leaves = n.leaves
  | .absent => rfl
  | .leaf _ => rfl
  | .branch k types cs => by
    rw [annotate, Node.leaves, (asked_typed scope k types _).leavesOf]
    exact leavesOf_annotateAll scope cs

theorem leavesOf_annotateAll (scope : Scope) : ∀ cs : List Tree, Node.leavesOf (annotateAll scope cs) = Node.leavesOf cs
  | [] => rfl
  | c :: cs => by
    rw [annotateAll, Node.leavesOf, Node.leavesOf, leaves_annotate scope c, leavesOf_annotateAll scope cs]

end

theorem annotateAll_eq_map (scope : Scope) (cs : List Tree) : annotateAll scope cs = cs.map (annotate scope) := by
  induction cs with
  | nil => rfl
  | cons c cs ih => rw [annotateAll, ih, List.map_cons]

theorem kind?_annotate (scope : Scope) (n : Tree) : (annotate scope n).kind? = n.kind? := by
  cases n <;> simp [annotate, Node.kind?]

theorem grown_annotate (scope : Scope) {n : Tree} (h : Grown n) : Grown (annotate scope n) := by
  refine Grown.induction (P := fun n => Grown (annotate scope n)) (fun n hn ih => ?_) h
  cases n with
  | absent => exact hn
  | leaf t => exact hn
  | branch k types cs =>
    rw [annotate, annotateAll_eq_map]
    have hall : SameKinds cs (cs.map (annotate scope)) := by
      rw [SameKinds, List.forall₂_map_right_iff, List.forall₂_same]
      exact fun c hc => ⟨kind?_annotate scope c, fun _ => ih c hc⟩
    have hmap : Grown (.branch k types (cs.map (annotate scope))) := hn.replace hall
    exact hmap.replace (asked_typed scope k types _).sameKinds

/-! ## Children that are looked at -/

theorem child?_eq {n c : Tree} (h : Grown n) {i : Nat} (hc : n.children[i]? = some c) : n.child? i = some c := by
  rw [Node.child?, if_neg (by omega), Int.toNat_natCast, hc]
  cases h.of_mem_children (List.mem_of_getElem? hc) with
  | mk hconforms _ => cases hconforms <;> rfl

/-- A node has the children that its types depend on. -/
theorem operands_lt {k : Symbol} {types : Types} {cs : List Tree} (h : Grown (.branch k types cs)) :
    ∀ i ∈ operands k cs.length, 0 ≤ i ∧ i < cs.length := by
  have hrules : ∀ r ∈ rules, ∀ i ∈ operands r.lhs r.rhs.length, 0 ≤ i ∧ i < r.rhs.length := by decide +kernel
  cases h.conforms with
  | branch r _ _ hkinds _ =>
    have hlength : cs.length = (grammar.rule r).rhs.length := by simpa using congrArg List.length hkinds
    rw [hlength]
    by_cases hstart : (grammar.rule r).lhs = .start
    · rw [hstart]
      exact fun i hi => absurd hi (by simp [operands])
    · exact hrules _ (rule_mem_rules hstart)

theorem hasTarget_of_grown (scope : Scope) {n : Tree} (h : Grown n) (hk : n.kind? = some .assignment) :
    hasTarget scope n = true := by
  obtain ⟨types, cs, rhs, rfl, hrhs, hkids⟩ := h.children hk rfl
  have hrhs : rhs ∈ [[.lvalue, .equals, .expr], [.lvalue, .assignOp, .expr]] := hrhs
  obtain ⟨a, b, c, rfl, ha⟩ : ∃ a b c, cs = [a, b, c] ∧ (a.kind? = some .lvalue ∧ Grown a) := by
    simp only [List.mem_cons, List.not_mem_nil, or_false] at hrhs
    rcases hrhs with rfl | rfl
    · obtain ⟨a, b, c, rfl, ha, -⟩ := hkids.triple
      exact ⟨a, b, c, rfl, ha⟩
    · obtain ⟨a, b, c, rfl, ha, -⟩ := hkids.triple
      exact ⟨a, b, c, rfl, ha⟩
  obtain ⟨targetTypes, ds, targetRhs, rfl, htarget, hds⟩ := ha.2.children ha.1 rfl
  have htarget : targetRhs ∈ [[.ident], [.ident, .lbracket, .exprList, .rbracket]] := htarget
  obtain ⟨name, rest, rfl⟩ : ∃ name rest, ds = name :: rest := by
    simp only [List.mem_cons, List.not_mem_nil, or_false] at htarget
    rcases htarget with rfl | rfl
    · obtain ⟨name, rest, rfl, -⟩ := hds.uncons
      exact ⟨name, rest, rfl⟩
    · obtain ⟨name, rest, rfl, -⟩ := hds.uncons
      exact ⟨name, rest, rfl⟩
  have hfirst := child?_eq (i := 0) h rfl
  have hname := child?_eq (i := 0) ha.2 rfl
  have hvalue := child?_eq (i := 2) h rfl
  simp only [Nat.cast_zero, Nat.cast_ofNat] at hfirst hname hvalue
  simp [hasTarget, hfirst, hname, hvalue]

theorem areComplete_iff (scope : Scope) (cs : List Tree) :
    areComplete scope cs = true ↔ ∀ c ∈ cs, isComplete scope c = true := by
  induction cs with
  | nil => simp [areComplete]
  | cons c cs ih => simp [areComplete, ih]

theorem isComplete_of_grown (scope : Scope) {n : Tree} (h : Grown n) : isComplete scope n = true := by
  refine Grown.induction (P := fun n => isComplete scope n = true) (fun n hn ih => ?_) h
  cases n with
  | absent => rfl
  | leaf t => rfl
  | branch k types cs =>
    rw [isComplete]
    simp only [Bool.and_eq_true, Bool.or_eq_true, decide_eq_true_eq, List.all_eq_true]
    refine ⟨⟨(areComplete_iff scope cs).mpr ih, fun i hi => ?_⟩, ?_⟩
    · obtain ⟨hpos, hlt⟩ := operands_lt hn i hi
      have hchild := child?_eq hn (List.getElem?_eq_getElem (i := i.toNat) (by simp [Node.children]; omega))
      rw [Int.toNat_of_nonneg hpos] at hchild
      rw [hchild]
      rfl
    · by_cases hk : k = .assignment
      · exact .inr (hasTarget_of_grown scope hn (by rw [Node.kind?, hk]))
      · exact .inl hk

/-- The type pass gives a tree of the grammar its types. -/
theorem checkTypes_eq (scope : Scope) {t : Tree} (h : Grown t) : checkTypes scope t = .ok (annotate scope t) := by
  rw [checkTypes, if_pos (isComplete_of_grown scope h)]

end Typing

end IrafCl.Script
