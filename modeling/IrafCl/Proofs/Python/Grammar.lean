import IrafCl.Proofs.Python.Reader
import Mathlib.Data.List.Basic

/-!
# The grammar that the reader follows

`Derives` is the grammar of expressions: each rule says which operands an operator takes, level by level.
Whatever the grammar derives is read (`read_of_derives`). The reader is a function, so no two
expressions are derived from the same tokens (`Derives.unique`).
-/

namespace IrafCl.Python

open Code (BinaryOp)

/-- One of the expressions between brackets, with its keyword and its tokens. -/
structure Piece where
  key : Option (List Bytes)
  tokens : List Tok
  value : Tree

namespace Piece

/-- The tokens of a keyword. -/
def keyTokens : Option (List Bytes) → List Tok
  | none => []
  | some ids => [.path ids, .equals]

def all (p : Piece) : List Tok := keyTokens p.key ++ p.tokens

/-- The tokens of expressions with commas between them. -/
def separated : List Piece → List Tok
  | [] => []
  | [p] => p.all
  | p :: q :: ps => p.all ++ .comma :: separated (q :: ps)

def arg (p : Piece) : Option (List Bytes) × Tree := (p.key, p.value)

end Piece

/-- The tokens of an expression of at least the given level. -/
inductive Derives : Nat → List Tok → Tree → Prop where
  | weaken {n m : Nat} {ts : List Tok} {e : Tree} (h : n ≤ m) (he : Derives m ts e) : Derives n ts e
  | number (digits : Bytes) : Derives operandLevel [.number digits] (.number digits)
  | string (body : Bytes) : Derives operandLevel [.string body] (.string body)
  | path (ids : List Bytes) (h : ids.all isIdentifier = true) : Derives operandLevel [.path ids] (.path ids)
  | paren {ts : List Tok} {e : Tree} (he : Derives 0 ts e) :
      Derives operandLevel (.openParen :: ts ++ [.closeParen]) e
  | field {ts : List Tok} {e : Tree} (he : Derives operandLevel ts e) (name : Bytes) :
      Derives operandLevel (ts ++ [.dot, .path [name]]) (.field e name)
  | call {ts : List Tok} {f : Tree} (hf : Derives operandLevel ts f) (ps : List Piece)
      (hps : ∀ p ∈ ps, Derives 0 p.tokens p.value) :
      Derives operandLevel (ts ++ .openParen :: Piece.separated ps ++ [.closeParen]) (.call f (ps.map Piece.arg))
  | index {ts : List Tok} {e : Tree} (he : Derives operandLevel ts e) (ps : List Piece) (hne : ps ≠ [])
      (hkeys : ∀ p ∈ ps, p.key = none) (hps : ∀ p ∈ ps, Derives 0 p.tokens p.value) :
      Derives operandLevel (ts ++ .openBracket :: Piece.separated ps ++ [.closeBracket])
        (.index e (ps.map Piece.value))
  | not {ts : List Tok} {e : Tree} (he : Derives notLevel ts e) : Derives notLevel (.not :: ts) (.not e)
  | minus {ts : List Tok} {e : Tree} (he : Derives signLevel ts e) : Derives signLevel (.op .sub :: ts) (.minus e)
  | plus {ts : List Tok} {e : Tree} (he : Derives signLevel ts e) : Derives signLevel (.op .add :: ts) (.plus e)
  | binary (o : BinaryOp) {a b : List Tok} {x y : Tree} (hx : Derives (left o) a x) (hy : Derives (right o) b y) :
      Derives (level o) (a ++ .op o :: b) (.binary o x y)

/-! ## Where an expression ends -/

/-- The level that an expression needs for a token to go on with it. -/
def needs : Tok → Option Nat
  | .op o => some (left o)
  | .openParen | .openBracket | .dot => some operandLevel
  | _ => none

/-- If the next token goes on with an expression, it does so with one of the given level. -/
def Follows (n : Nat) (rest : List Tok) : Prop := ∀ t ∈ rest.head?, ∀ m ∈ needs t, m ≤ n

theorem Follows.mono {n m : Nat} {rest : List Tok} (h : Follows n rest) (hle : n ≤ m) : Follows m rest :=
  fun t ht k hk => Nat.le_trans (h t ht k hk) hle

theorem follows_of_needs {n : Nat} {t : Tok} {rest : List Tok} (h : needs t = none) : Follows n (t :: rest) := by
  intro t' ht' k hk
  cases ht'
  rw [h] at hk
  cases hk

theorem follows_operand {t : Tok} {rest : List Tok} (h : needs t = some operandLevel) :
    Follows operandLevel (t :: rest) := by
  intro t' ht' k hk
  cases ht'
  rw [h] at hk
  cases hk
  exact Nat.le_refl _

/-- Only operators of lower levels follow. -/
theorem climb_stops {fuel least own : Nat} {e : Tree} {rest : List Tok}
    (h : ∀ t ∈ rest.head?, ∀ m ∈ needs t, ∃ o, t = .op o ∧ level o < least) :
    climb (fuel + 1) least e own rest = some (e, rest) := by
  cases rest with
  | nil => rfl
  | cons t rest =>
    have h := h t rfl
    cases t with
    | op o =>
      obtain ⟨o', heq, hlt⟩ := h (left o) rfl
      cases heq
      rw [climb, if_neg]
      simp only [Bool.and_eq_true, decide_eq_true_eq]
      omega
    | openParen => obtain ⟨o, heq, _⟩ := h operandLevel rfl; cases heq
    | openBracket => obtain ⟨o, heq, _⟩ := h operandLevel rfl; cases heq
    | dot => obtain ⟨o, heq, _⟩ := h operandLevel rfl; cases heq
    | _ => rfl

/-- An operator that takes an expression of some level below operands is of a lower level than what the
level allows on the right. -/
theorem level_lt_right (o o' : BinaryOp) (h : left o ≤ level o') : level o < right o' := by
  cases o <;> cases o' <;> simp_all [level, left, right]

theorem level_lt_of_left_le {o : BinaryOp} {n : Nat} (hn : n = notLevel ∨ n = signLevel) (h : left o ≤ n) :
    level o < n := by
  rcases hn with rfl | rfl <;> cases o <;> simp_all [level, left, notLevel, signLevel]

theorem level_le_left (o : BinaryOp) : level o ≤ left o := by
  cases o <;> decide

theorem left_le_right_of_le {o o' : BinaryOp} (h : left o ≤ level o') : left o ≤ right o' := by
  cases o <;> cases o' <;> simp_all [level, left, right]

theorem needs_lt {t : Tok} {m n : Nat} (hm : m ∈ needs t) (hle : m ≤ n) (hn : n < operandLevel) :
    ∃ o, t = .op o ∧ left o ≤ n := by
  cases t <;> simp only [needs, Option.mem_def, Option.some.injEq, reduceCtorEq] at hm
  case op o => exact ⟨o, rfl, by omega⟩
  all_goals omega

/-! ## Reading what is derived -/

/-- The reader gets past the tokens of an expression, with fuel left for the rest. -/
def Passes (n : Nat) (ts : List Tok) (e : Tree) : Prop :=
  ∀ (least : Nat) (rest : List Tok) (fuel : Nat), least ≤ n → Follows n rest →
    4 * (ts.length + rest.length) + 2 ≤ fuel →
    ∃ fuel' own, 4 * rest.length + 1 ≤ fuel' ∧ n ≤ own ∧ expr fuel least (ts ++ rest) = climb fuel' least e own rest

section
variable {n : Nat} {ts : List Tok} {e : Tree}

/-- An expression is read to its end if only operators of lower levels follow. -/
theorem Passes.expr_eq (h : Passes n ts e) {least fuel : Nat} {rest : List Tok} (hle : least ≤ n)
    (hrest : Follows n rest) (hstop : ∀ t ∈ rest.head?, ∀ m ∈ needs t, ∃ o, t = .op o ∧ level o < least)
    (hfuel : 4 * (ts.length + rest.length) + 2 ≤ fuel) : expr fuel least (ts ++ rest) = some (e, rest) := by
  obtain ⟨fuel', own, hfuel', _, heq⟩ := h least rest fuel hle hrest hfuel
  obtain ⟨k, rfl⟩ : ∃ k, fuel' = k + 1 := ⟨fuel' - 1, by omega⟩
  rw [heq, climb_stops hstop]

/-- An expression is read to its end before a token that does not go on with it. -/
theorem Passes.expr_before (h : Passes n ts e) {t : Tok} (ht : needs t = none) {fuel : Nat} {rest : List Tok}
    (hfuel : 4 * (ts.length + rest.length) + 6 ≤ fuel) : expr fuel 0 (ts ++ t :: rest) = some (e, t :: rest) := by
  refine h.expr_eq (Nat.zero_le n) (follows_of_needs ht) ?_ (by simp only [List.length_cons]; omega)
  intro t' ht' m hm
  cases ht'
  rw [ht] at hm
  cases hm

theorem passes_operand {t : Tok} (h : ∀ fuel least rest, operand (fuel + 1) least (t :: rest) = some (e, operandLevel, rest)) :
    Passes operandLevel [t] e := by
  intro least rest fuel _ _ hfuel
  obtain ⟨k, rfl⟩ : ∃ k, fuel = k + 2 := ⟨fuel - 2, by omega⟩
  refine ⟨k + 1, operandLevel, by simp only [List.length_singleton] at hfuel; omega, Nat.le_refl _, ?_⟩
  rw [List.singleton_append, expr, h]
  rfl

/-- A sign or `not` before an expression. -/
theorem passes_unary {t : Tok} {own : Nat} {f : Tree → Tree} (hown : own = notLevel ∨ own = signLevel)
    (h : ∀ fuel least rest, least ≤ own →
      operand (fuel + 1) least (t :: rest) = (expr fuel own rest).map fun (e, rest) => (f e, own, rest))
    (he : Passes own ts e) : Passes own (t :: ts) (f e) := by
  intro least rest fuel hle hrest hfuel
  simp only [List.length_cons] at hfuel
  obtain ⟨k, rfl⟩ : ∃ k, fuel = k + 2 := ⟨fuel - 2, by omega⟩
  refine ⟨k + 1, own, by omega, Nat.le_refl _, ?_⟩
  have hlt : own < operandLevel := by rcases hown with rfl | rfl <;> decide
  have hstop : ∀ t ∈ rest.head?, ∀ m ∈ needs t, ∃ o, t = .op o ∧ level o < own := by
    intro t ht m hm
    obtain ⟨o, rfl, ho⟩ := needs_lt hm (hrest t ht m hm) hlt
    exact ⟨o, rfl, level_lt_of_left_le hown ho⟩
  rw [List.cons_append, expr, h k least _ hle, he.expr_eq (Nat.le_refl _) hrest hstop (by omega)]
  rfl

theorem passes_paren (he : Passes 0 ts e) : Passes operandLevel (Tok.openParen :: ts ++ [Tok.closeParen]) e := by
  intro least rest fuel _ _ hfuel
  simp only [List.length_append, List.length_cons, List.length_nil] at hfuel
  obtain ⟨k, rfl⟩ : ∃ k, fuel = k + 2 := ⟨fuel - 2, by omega⟩
  refine ⟨k + 1, operandLevel, by omega, Nat.le_refl _, ?_⟩
  have hread : expr k 0 (ts ++ .closeParen :: rest) = some (e, .closeParen :: rest) :=
    he.expr_before rfl (by omega)
  have htokens : .openParen :: ts ++ [.closeParen] ++ rest = .openParen :: (ts ++ .closeParen :: rest) := by simp
  rw [htokens, expr, operand, hread]
  rfl

theorem passes_binary (o : BinaryOp) {a b : List Tok} {x y : Tree} (hx : Passes (left o) a x)
    (hy : Passes (right o) b y) : Passes (level o) (a ++ .op o :: b) (.binary o x y) := by
  intro least rest fuel hle hrest hfuel
  simp only [List.length_append, List.length_cons] at hfuel
  have hleft : Follows (left o) (.op o :: (b ++ rest)) := by
    intro t ht m hm
    cases ht
    cases hm
    exact Nat.le_refl _
  obtain ⟨k, own, hk, hown, heq⟩ := hx least (.op o :: (b ++ rest)) fuel (Nat.le_trans hle (level_le_left o)) hleft
    (by simp only [List.length_append, List.length_cons]; omega)
  simp only [List.length_append, List.length_cons] at hk
  obtain ⟨k, rfl⟩ : ∃ j, k = j + 1 := ⟨k - 1, by omega⟩
  have hlow : ∀ t ∈ rest.head?, ∀ m ∈ needs t, ∃ o', t = .op o' ∧ left o' ≤ level o := by
    intro t ht m hm
    exact needs_lt hm (hrest t ht m hm) (by cases o <;> decide)
  have hright : Follows (right o) rest := by
    intro t ht m hm
    obtain ⟨o', rfl, hle⟩ := hlow t ht m hm
    cases hm
    exact left_le_right_of_le hle
  have hstop : ∀ t ∈ rest.head?, ∀ m ∈ needs t, ∃ o', t = .op o' ∧ level o' < right o := by
    intro t ht m hm
    obtain ⟨o', rfl, hle⟩ := hlow t ht m hm
    exact ⟨o', rfl, level_lt_right o' o hle⟩
  have hread : expr k (right o) (b ++ rest) = some (y, rest) :=
    hy.expr_eq (Nat.le_refl _) hright hstop (by omega)
  refine ⟨k, level o, by omega, Nat.le_refl _, ?_⟩
  rw [List.append_assoc, List.cons_append, heq, climb, if_pos (by simp [hle, hown]), hread]
  rfl

/-! ## Lists -/

/-- Tokens that begin like an expression, without a keyword. -/
structure Begins (ts : List Tok) : Prop where
  head : ∃ t, ts.head? = some t ∧ t ≠ .closeParen ∧ t ≠ .equals ∧ t ≠ .op .eq
  key : ∀ rest : List Tok, rest.head? ≠ some .equals → keyOf (ts ++ rest) = (none, ts ++ rest)

theorem begins_cons {t : Tok} (ts : List Tok) (ht : t ≠ .closeParen ∧ t ≠ .equals ∧ t ≠ .op .eq)
    (hpath : ∀ ids, t ≠ .path ids) : Begins (t :: ts) := by
  refine ⟨⟨t, rfl, ht⟩, fun rest _ => ?_⟩
  cases t with
  | path ids => exact absurd rfl (hpath ids)
  | _ => rfl

theorem Begins.append {a : List Tok} (ha : Begins a) (b : List Tok) (hb : b.head? ≠ some .equals) : Begins (a ++ b) := by
  obtain ⟨t, ht, hne⟩ := ha.head
  cases a with
  | nil => cases ht
  | cons t' a =>
    refine ⟨⟨t', rfl, by cases ht; exact hne⟩, fun rest hrest => ?_⟩
    rw [List.append_assoc]
    refine ha.key _ ?_
    cases b with
    | nil => exact hrest
    | cons t b => exact hb

theorem Derives.begins (h : Derives n ts e) : Begins ts := by
  induction h with
  | weaken _ _ ih => exact ih
  | number digits => exact begins_cons [] (by simp) nofun
  | string body => exact begins_cons [] (by simp) nofun
  | path ids _ =>
    refine ⟨⟨_, rfl, by simp⟩, fun rest hrest => ?_⟩
    cases rest with
    | nil => rfl
    | cons t rest =>
      cases t with
      | equals => exact absurd rfl hrest
      | _ => rfl
  | paren _ _ => exact begins_cons _ (by simp) nofun
  | field _ _ ih => exact ih.append _ nofun
  | call _ _ _ ih _ => rw [List.append_assoc]; exact ih.append _ nofun
  | index _ _ _ _ _ ih _ => rw [List.append_assoc]; exact ih.append _ nofun
  | not _ _ => exact begins_cons _ (by simp) nofun
  | minus _ _ => exact begins_cons _ (by simp) nofun
  | plus _ _ => exact begins_cons _ (by simp) nofun
  | binary _ _ _ ih _ => exact ih.append _ nofun

theorem keyOf_all {p : Piece} (h : Begins p.tokens) {rest : List Tok} (hrest : rest.head? ≠ some .equals) :
    keyOf (p.all ++ rest) = (p.key, p.tokens ++ rest) := by
  unfold Piece.all
  cases p.key with
  | none => exact h.key rest hrest
  | some ids => rfl

theorem items_eq (close : Tok) (hclose : needs close = none ∧ close ≠ .comma ∧ close ≠ .equals) (ps : List Piece)
    (hne : ps ≠ []) (hps : ∀ p ∈ ps, Passes 0 p.tokens p.value ∧ Begins p.tokens) (rest : List Tok) :
    ∀ fuel, 4 * ((Piece.separated ps).length + rest.length) + 7 ≤ fuel →
      items fuel close (Piece.separated ps ++ close :: rest) = some (ps.map Piece.arg, rest) := by
  induction ps with
  | nil => exact absurd rfl hne
  | cons p ps ih =>
    intro fuel hfuel
    obtain ⟨hpass, hbegins⟩ := hps p (by simp)
    cases ps with
    | nil =>
      simp only [Piece.separated, Piece.all, List.length_append] at hfuel
      obtain ⟨k, rfl⟩ : ∃ k, fuel = k + 1 := ⟨fuel - 1, by omega⟩
      have hread : expr k 0 (p.tokens ++ close :: rest) = some (p.value, close :: rest) :=
        hpass.expr_before hclose.1 (by omega)
      rw [items, Piece.separated, keyOf_all hbegins (by simpa using hclose.2.2)]
      dsimp only
      rw [hread]
      cases close with
      | comma => exact absurd rfl hclose.2.1
      | _ => simp [Piece.arg]
    | cons q ps =>
      simp only [Piece.separated, Piece.all, List.length_append, List.length_cons] at hfuel
      obtain ⟨k, rfl⟩ : ∃ k, fuel = k + 1 := ⟨fuel - 1, by omega⟩
      have hread : expr k 0 (p.tokens ++ .comma :: (Piece.separated (q :: ps) ++ close :: rest)) =
          some (p.value, .comma :: (Piece.separated (q :: ps) ++ close :: rest)) :=
        hpass.expr_before rfl (by simp only [List.length_append, List.length_cons]; omega)
      have hmore := ih (by simp) (fun p hp => hps p (List.mem_cons_of_mem _ hp)) k (by omega)
      rw [items, Piece.separated, List.append_assoc, List.cons_append, keyOf_all hbegins (by simp)]
      dsimp only
      rw [hread]
      simp only [Option.bind_eq_bind, Option.bind_some, hmore]
      rfl

theorem head?_all {p : Piece} (h : Begins p.tokens) (rest : List Tok) : (p.all ++ rest).head? ≠ some .closeParen := by
  obtain ⟨t, ht, hne⟩ := h.head
  unfold Piece.all
  cases p.key with
  | none =>
    cases htokens : p.tokens with
    | nil => rw [htokens] at ht; cases ht
    | cons t' ts =>
      rw [htokens] at ht
      cases ht
      simpa [Piece.keyTokens] using hne.1
  | some ids => simp [Piece.keyTokens]

theorem args_of_head {fuel : Nat} (h : ts.head? ≠ some .closeParen) : args (fuel + 1) ts = items fuel .closeParen ts := by
  cases ts with
  | nil => rfl
  | cons t ts =>
    cases t with
    | closeParen => exact absurd rfl h
    | _ => rfl

theorem args_eq (ps : List Piece) (hps : ∀ p ∈ ps, Passes 0 p.tokens p.value ∧ Begins p.tokens) (rest : List Tok)
    {fuel : Nat} (hfuel : 4 * ((Piece.separated ps).length + rest.length) + 8 ≤ fuel) :
    args fuel (Piece.separated ps ++ .closeParen :: rest) = some (ps.map Piece.arg, rest) := by
  obtain ⟨k, rfl⟩ : ∃ k, fuel = k + 1 := ⟨fuel - 1, by omega⟩
  cases ps with
  | nil => rfl
  | cons p ps =>
    have hitems := items_eq .closeParen ⟨rfl, nofun, nofun⟩ (p :: ps) (by simp) hps rest k (by omega)
    rw [← hitems]
    refine args_of_head ?_
    have hhead := head?_all (hps p (by simp)).2
    cases ps with
    | nil => exact hhead _
    | cons q ps =>
      rw [Piece.separated, List.append_assoc]
      exact hhead _

/-! ## Operands -/

/-- What goes on with an operand. -/
theorem passes_trailer {tail : List Tok} {f : Tree → Tree} (htail : Follows operandLevel tail)
    (h : ∀ fuel least own e rest, operandLevel ≤ own → 4 * (tail.length + rest.length) + 1 ≤ fuel →
      climb fuel least e own (tail ++ rest) = climb (fuel - 1) least (f e) operandLevel rest)
    (hne : tail ≠ []) (he : Passes operandLevel ts e) : Passes operandLevel (ts ++ tail) (f e) := by
  intro least rest fuel hle hrest hfuel
  simp only [List.length_append] at hfuel
  have hfollows : Follows operandLevel (tail ++ rest) := by
    cases tail with
    | nil => exact absurd rfl hne
    | cons t tail => exact htail
  obtain ⟨k, own, hk, hown, heq⟩ := he least (tail ++ rest) fuel hle hfollows
    (by simp only [List.length_append]; omega)
  simp only [List.length_append] at hk
  have hlength : 0 < tail.length := List.length_pos_iff.mpr hne
  refine ⟨k - 1, operandLevel, by omega, Nat.le_refl _, ?_⟩
  rw [List.append_assoc, heq, h k least own e rest hown hk]

theorem passes_field (he : Passes operandLevel ts e) (name : Bytes) :
    Passes operandLevel (ts ++ [Tok.dot, Tok.path [name]]) (.field e name) := by
  refine passes_trailer (f := fun e => .field e name) ?_ ?_ (by simp) he
  · exact follows_operand rfl
  · intro fuel least own e rest hown hfuel
    obtain ⟨k, rfl⟩ : ∃ k, fuel = k + 1 := ⟨fuel - 1, by omega⟩
    rw [List.cons_append, List.singleton_append, climb, if_pos hown]
    rfl

theorem passes_call (he : Passes operandLevel ts e) (ps : List Piece)
    (hps : ∀ p ∈ ps, Passes 0 p.tokens p.value ∧ Begins p.tokens) :
    Passes operandLevel (ts ++ (.openParen :: Piece.separated ps ++ [.closeParen])) (.call e (ps.map Piece.arg)) := by
  refine passes_trailer (f := fun e => .call e (ps.map Piece.arg)) ?_ ?_ (by simp) he
  · exact follows_operand rfl
  · intro fuel least own e rest hown hfuel
    simp only [List.length_append, List.length_cons, List.length_nil] at hfuel
    obtain ⟨k, rfl⟩ : ∃ k, fuel = k + 1 := ⟨fuel - 1, by omega⟩
    have htokens : .openParen :: Piece.separated ps ++ [.closeParen] ++ rest =
        .openParen :: (Piece.separated ps ++ .closeParen :: rest) := by simp
    rw [htokens, climb, if_pos hown, args_eq ps hps rest (by omega)]
    rfl

theorem passes_index (he : Passes operandLevel ts e) (ps : List Piece) (hne : ps ≠ [])
    (hkeys : ∀ p ∈ ps, p.key = none) (hps : ∀ p ∈ ps, Passes 0 p.tokens p.value ∧ Begins p.tokens) :
    Passes operandLevel (ts ++ (.openBracket :: Piece.separated ps ++ [.closeBracket])) (.index e (ps.map Piece.value)) := by
  refine passes_trailer (f := fun e => .index e (ps.map Piece.value)) ?_ ?_ (by simp) he
  · exact follows_operand rfl
  · intro fuel least own e rest hown hfuel
    simp only [List.length_append, List.length_cons, List.length_nil] at hfuel
    obtain ⟨k, rfl⟩ : ∃ k, fuel = k + 1 := ⟨fuel - 1, by omega⟩
    have htokens : .openBracket :: Piece.separated ps ++ [.closeBracket] ++ rest =
        .openBracket :: (Piece.separated ps ++ .closeBracket :: rest) := by simp
    have hitems := items_eq .closeBracket ⟨rfl, nofun, nofun⟩ ps hne hps rest k (by omega)
    have hnone : (ps.map Piece.arg).all (·.1.isNone) = true := by
      simpa [Piece.arg] using hkeys
    have hvalues : (ps.map Piece.arg).map (·.2) = ps.map Piece.value := by simp [Piece.arg]
    rw [htokens, climb, if_pos hown, hitems]
    simp only [Option.bind_eq_bind, Option.bind_some, hnone, if_true, hvalues]
    rfl

/-- What the grammar derives, the reader gets past. -/
theorem Derives.passes (h : Derives n ts e) : Passes n ts e := by
  induction h with
  | weaken hle _ ih =>
    intro least rest fuel hleast hrest hfuel
    obtain ⟨k, own, hk, hown, heq⟩ := ih least rest fuel (Nat.le_trans hleast hle) (hrest.mono hle) hfuel
    exact ⟨k, own, hk, Nat.le_trans hle hown, heq⟩
  | number digits => exact passes_operand fun fuel least rest => rfl
  | string body => exact passes_operand fun fuel least rest => rfl
  | path ids hids =>
    refine passes_operand fun fuel least rest => ?_
    rw [operand, if_pos hids]
  | paren _ ih => exact passes_paren ih
  | field _ name ih => exact passes_field ih name
  | call _ ps hps ih ihps =>
    rw [List.append_assoc]
    exact passes_call ih ps fun p hp => ⟨ihps p hp, (hps p hp).begins⟩
  | index _ ps hne hkeys hps ih ihps =>
    rw [List.append_assoc]
    exact passes_index ih ps hne hkeys fun p hp => ⟨ihps p hp, (hps p hp).begins⟩
  | not _ ih => exact passes_unary (.inl rfl) (fun fuel least rest hle => by rw [operand, if_pos hle]) ih
  | minus _ ih => exact passes_unary (.inr rfl) (fun fuel least rest hle => by rw [operand, if_pos hle]) ih
  | plus _ ih => exact passes_unary (.inr rfl) (fun fuel least rest hle => by rw [operand, if_pos hle]) ih
  | binary o _ _ ihx ihy => exact passes_binary o ihx ihy

theorem Derives.expr_eq (h : Derives n ts e) : expr (4 * ts.length + 4) 0 ts = some (e, []) := by
  have hread : expr (4 * ts.length + 4) 0 (ts ++ []) = some (e, []) :=
    h.passes.expr_eq (Nat.zero_le n) (by simp [Follows]) (by simp) (by simp)
  rwa [List.append_nil] at hread

/-- No two expressions are derived from the same tokens. -/
theorem Derives.unique {m : Nat} {e' : Tree} (h : Derives n ts e) (h' : Derives m ts e') : e = e' := by
  have hread := h.expr_eq
  rw [h'.expr_eq] at hread
  cases hread
  rfl

/-- A text whose tokens the grammar derives is read. -/
theorem read_of_derives {s : Bytes} (hlex : lex s = some ts) (h : Derives n ts e) : read s = some e := by
  simp [read, hlex, h.expr_eq]

end

end IrafCl.Python
