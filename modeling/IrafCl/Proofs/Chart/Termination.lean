import IrafCl.Proofs.Chart.Preference
import IrafCl.Proofs.Grammar.Cycles

/-!
# Parsing ends

The loops of the parser stop by themselves, and no contract of theirs is broken. `Recognised` tells how tokens
are read when nothing bounds the work on a set and every contract is checked: a set has room for so many items
only, and each is worked off once, so the bound under which sets are closed is never felt
(`recognised_iff`). A derivation nests no deeper than the chart has items, and any greater depth gives the same
reading (`derive_of_lt`), in which every item leads back to where it began.

A sentence can be refused only where a symbol derives itself alone, or by the resolver (`parse_terminates`).
-/

namespace IrafCl

variable {κ : Type} {g : Grammar κ} [DecidableEq κ] [Alphabet κ]

/-! ## Closing a set without a bound -/

namespace Closing

/-- Brings in the rules of a symbol that may be tried before the symbol ahead. -/
def predict (table : Lookaheads κ) (i : Nat) (ahead s : κ) (c : Closing g) : Except Violation (Closing g) := do
  Contract.invariant.check (g.isNonterminal s)
    ("predicted symbol " ++ Bytes.quote (Alphabet.name s) ++ " must be a nonterminal")
  return (g.candidates table s ahead).foldl (fun c r => c.add i ⟨r, 0, i⟩) c

/-- Works off an item, with its contract checked. -/
def work (table : Lookaheads κ) (earlier : Array (StateSet g)) (i : Nat) (ahead : κ) (it : Item g)
    (before : List (Item g)) (c : Closing g) : Except Violation (Closing g) :=
  match it.next? with
  | none => .ok ((parents earlier c it).foldl (advanceOver i it) c)
  | some s =>
    if g.isNonterminal s && !before.any (fun d => d.next? = some s) then predict table i ahead s c else .ok c

/-- The items of a set are worked off for as long as there are any, unless a contract is broken. -/
inductive Closes (table : Lookaheads κ) (earlier : Array (StateSet g)) (i : Nat) (ahead : κ) :
    Closing g → Except Violation (Closing g) → Prop where
  | done {c : Closing g} (htodo : c.todo = []) : Closes table earlier i ahead c (.ok c)
  | broken {c : Closing g} {it : Item g} {todo : List (Item g)} {v : Violation} (htodo : c.todo = it :: todo)
      (hwork : work table earlier i ahead it c.done (c.take it todo) = .error v) :
      Closes table earlier i ahead c (.error v)
  | next {c c' : Closing g} {it : Item g} {todo : List (Item g)} {answer : Except Violation (Closing g)}
      (htodo : c.todo = it :: todo) (hwork : work table earlier i ahead it c.done (c.take it todo) = .ok c')
      (hrest : Closes table earlier i ahead c' answer) : Closes table earlier i ahead c answer

variable {table : Lookaheads κ} {earlier : Array (StateSet g)} {i : Nat} {ahead : κ}

/-- Only nonterminals are predicted. -/
theorem work_eq (it : Item g) (before : List (Item g)) (c : Closing g) :
    work table earlier i ahead it before c = .ok (process table earlier i ahead it before c) := by
  unfold work
  cases hnext : it.next? with
  | none => rw [process_complete hnext]
  | some s =>
    unfold process
    rw [hnext]
    dsimp only
    by_cases h : (g.isNonterminal s && !before.any fun d => d.next? = some s) = true
    · have hs := (Bool.and_eq_true_iff.mp h).1
      rw [if_pos h, if_pos h, predict, (Contract.check_eq_ok_iff _ _ _).mpr hs]
      rfl
    · rw [if_neg h, if_neg h]

theorem Closes.unique {c : Closing g} {a b : Except Violation (Closing g)} (ha : Closes table earlier i ahead c a)
    (hb : Closes table earlier i ahead c b) : a = b := by
  induction ha with
  | done htodo =>
    cases hb with
    | done => rfl
    | broken htodo' | next htodo' =>
      rw [htodo] at htodo'
      cases htodo'
  | broken htodo hwork =>
    rw [work_eq] at hwork
    cases hwork
  | next htodo hwork _ ih =>
    cases hb with
    | done htodo' =>
      rw [htodo] at htodo'
      cases htodo'
    | broken _ hwork' =>
      rw [work_eq] at hwork'
      cases hwork'
    | next htodo' hwork' hrest =>
      rw [htodo] at htodo'
      cases htodo'
      rw [hwork] at hwork'
      cases hwork'
      exact ih hrest

/-- There are only so many items that a set can have, so the loop ends. -/
theorem closes_close {ts : List (Token κ)} {kernel : List (Item g)} (hi : earlier.size = i)
    (hearlier : ∀ k set, earlier[k]? = some set → ∀ it ∈ set.items, Item.Sits ts k it) :
    ∀ (fuel : Nat) (c : Closing g), Running ts table earlier i ahead kernel c →
      Chart.itemBound g i ≤ c.done.length + fuel →
      Closes table earlier i ahead c (.ok (close table earlier i ahead fuel c)) := by
  intro fuel
  induction fuel with
  | zero =>
    intro c hr hfuel
    exact .done (running_close hi hearlier 0 c hr hfuel).2
  | succ fuel ih =>
    intro c hr hfuel
    unfold close
    split
    · next htodo => exact .done htodo
    · next it todo htodo =>
      have hreach : Reaches earlier i (c.take it todo)
          (process table earlier i ahead it c.done (c.take it todo)) :=
        reaches_process (Nat.le_of_eq hi) (by simp [take])
      refine .next htodo (work_eq it c.done _) (ih _ (running_process hi hearlier htodo hr) ?_)
      rw [hreach.done_eq, take, List.length_cons]
      omega

/-- The set when nothing is left to do. -/
def closed (c : Closing g) : StateSet g := ⟨c.items, c.links.reverse⟩

end Closing

namespace Chart

/-! ## Reading without a bound -/

/-- Tokens are read with every set closed for as long as it takes, unless a contract is broken. `last` is the token
before. -/
inductive Recognised (table : Lookaheads κ) : Array (StateSet g) → List (Item g) → Option (Token κ) →
    List (Token κ) → Except Halt (Chart g) → Prop where
  | broken {earlier : Array (StateSet g)} {kernel : List (Item g)} {last : Option (Token κ)} {rest : List (Token κ)}
      {v : Violation}
      (hclose : Closing.Closes table earlier earlier.size (aheadAt rest 0) ⟨[], kernel, []⟩ (.error v)) :
      Recognised table earlier kernel last rest (.error (.violation v))
  | accepted {earlier : Array (StateSet g)} {kernel : List (Item g)} {last : Option (Token κ)} {c : Closing g}
      (hclose : Closing.Closes table earlier earlier.size Alphabet.eof ⟨[], kernel, []⟩ (.ok c))
      (haccept : accepting g ∈ c.items) : Recognised table earlier kernel last [] (.ok ⟨earlier.push c.closed⟩)
  | ended {earlier : Array (StateSet g)} {kernel : List (Item g)} {last : Token κ} {c : Closing g}
      (hclose : Closing.Closes table earlier earlier.size Alphabet.eof ⟨[], kernel, []⟩ (.ok c))
      (haccept : accepting g ∉ c.items) :
      Recognised table earlier kernel (some last) [] (.error (.failure (syntaxFailure last)))
  | refused {earlier : Array (StateSet g)} {kernel : List (Item g)} {last : Option (Token κ)} {t : Token κ}
      {rest : List (Token κ)} {c : Closing g}
      (hclose : Closing.Closes table earlier earlier.size t.kind ⟨[], kernel, []⟩ (.ok c))
      (hnone : scanned c.closed t.kind = []) :
      Recognised table earlier kernel last (t :: rest) (.error (.failure (syntaxFailure t)))
  | next {earlier : Array (StateSet g)} {kernel : List (Item g)} {last : Option (Token κ)} {t : Token κ}
      {rest : List (Token κ)} {c : Closing g} {answer : Except Halt (Chart g)}
      (hclose : Closing.Closes table earlier earlier.size t.kind ⟨[], kernel, []⟩ (.ok c))
      (hsome : scanned c.closed t.kind ≠ [])
      (hrest : Recognised table (earlier.push c.closed) (scanned c.closed t.kind) (some t) rest answer) :
      Recognised table earlier kernel last (t :: rest) answer

variable {table : Lookaheads κ} {ts : List (Token κ)} {earlier : Array (StateSet g)} {kernel : List (Item g)}

theorem Recognised.unique {last : Option (Token κ)} {rest : List (Token κ)} {a b : Except Halt (Chart g)}
    (ha : Recognised table earlier kernel last rest a) (hb : Recognised table earlier kernel last rest b) : a = b := by
  induction ha with
  | broken hclose =>
    cases hb with
    | broken hclose' =>
      cases hclose.unique hclose'
      rfl
    | accepted hclose' | ended hclose' | refused hclose' | next hclose' => cases hclose.unique hclose'
  | accepted hclose haccept =>
    cases hb with
    | broken hclose' => cases hclose.unique hclose'
    | accepted hclose' =>
      cases hclose.unique hclose'
      rfl
    | ended hclose' haccept' =>
      cases hclose.unique hclose'
      exact absurd haccept haccept'
  | ended hclose haccept =>
    cases hb with
    | broken hclose' => cases hclose.unique hclose'
    | accepted hclose' haccept' =>
      cases hclose.unique hclose'
      exact absurd haccept' haccept
    | ended => rfl
  | refused hclose hnone =>
    cases hb with
    | broken hclose' => cases hclose.unique hclose'
    | refused => rfl
    | next hclose' hsome =>
      cases hclose.unique hclose'
      exact absurd hnone hsome
  | next hclose hsome _ ih =>
    cases hb with
    | broken hclose' => cases hclose.unique hclose'
    | refused hclose' hnone =>
      cases hclose.unique hclose'
      exact absurd hnone hsome
    | next hclose' _ hrest =>
      cases hclose.unique hclose'
      exact ih hrest

/-- The next set is the one that closing without a bound ends with. -/
theorem closes_stateSet (ahead : κ) (hl : Lawful ts table earlier) (hk : Kernel ts earlier kernel) :
    ∃ c, Closing.Closes table earlier earlier.size ahead ⟨[], kernel, []⟩ (.ok c) ∧
      stateSet table earlier earlier.size ahead kernel = c.closed := by
  have hearlier : ∀ k set, earlier[k]? = some set → ∀ it ∈ set.items, Item.Sits ts k it :=
    fun k set hset it hit => hl.sits k it ⟨set, hset, hit⟩
  exact ⟨_, Closing.closes_close rfl hearlier (itemBound g earlier.size) _ (running_kernel hk) (by simp), rfl⟩

/-- A run takes the steps that are taken without a bound. -/
theorem Run.recognised (hne : ts ≠ []) {last : Option (Token κ)} {rest : List (Token κ)}
    {answer : Except Failure (Chart g)} (h : Run ts table earlier kernel last rest answer) :
    Recognised table earlier kernel last rest (answer.mapError .failure) := by
  induction h with
  | @accepted earlier kernel last hstage haccept =>
    obtain ⟨c, hclose, hset⟩ := closes_stateSet Alphabet.eof hstage.lawful hstage.kernel
    have hmem : accepting g ∈ c.closed.items := by
      rw [← hset]
      rcases haccept with rfl | hmem
      · exact absurd (List.getLast?_eq_none_iff.mp hstage.last_eq.symm) hne
      · exact hmem
    change Recognised table earlier kernel last []
      (.ok ⟨earlier.push (stateSet table earlier earlier.size Alphabet.eof kernel)⟩)
    rw [hset]
    exact .accepted hclose hmem
  | @ended earlier kernel last hstage haccept =>
    obtain ⟨c, hclose, hset⟩ := closes_stateSet Alphabet.eof hstage.lawful hstage.kernel
    refine .ended hclose fun hmem => haccept ?_
    change accepting g ∈ (stateSet table earlier earlier.size Alphabet.eof kernel).items
    rw [hset]
    exact hmem
  | @refused earlier kernel last t rest hstage hnone =>
    obtain ⟨c, hclose, hset⟩ := closes_stateSet t.kind hstage.lawful hstage.kernel
    refine .refused hclose ?_
    rw [← hset]
    exact hnone
  | @next earlier kernel last t rest answer hstage hsome _ ih =>
    obtain ⟨c, hclose, hset⟩ := closes_stateSet t.kind hstage.lawful hstage.kernel
    refine .next hclose ?_ ?_
    · rw [← hset]
      exact hsome
    · rw [← hset]
      exact ih

/-- Reading tokens without a bound ends, breaks no contract, and answers as reading with the bound does. -/
theorem recognised_iff (hne : ts ≠ []) {answer : Except Halt (Chart g)} :
    Recognised table #[] [⟨g.first, 0, 0⟩] none ts answer ↔ answer = (recognise g table ts).2.mapError .failure := by
  have h := (run_recognise (g := g) table ts).recognised hne
  constructor
  · exact fun h' => h'.unique h
  · rintro rfl
    exact h

/-! ## Deriving without a bound -/

/-- A step of reading gives what another one gives, unless it breaks a contract. -/
def Agrees {α : Type} (x y : Reading κ α) : Prop :=
  ∀ choices, (∃ v, (x.run choices).1 = .error (.violation v)) ∨ y.run choices = x.run choices

section
variable {α β : Type} {x y : Reading κ α}

omit [DecidableEq κ] [Alphabet κ] in
theorem Agrees.refl (x : Reading κ α) : Agrees x x := fun _ => .inr rfl

omit [DecidableEq κ] [Alphabet κ] in
theorem agrees_broken (contract : Contract) (text : Bytes) : Agrees (broken contract text : Reading κ α) y :=
  fun _ => .inl ⟨_, rfl⟩

omit [DecidableEq κ] [Alphabet κ] in
theorem Agrees.bind {f f' : α → Reading κ β} (h : Agrees x y) (hf : ∀ a, Agrees (f a) (f' a)) :
    Agrees (x >>= f) (y >>= f') := by
  intro choices
  rw [run_bind, run_bind]
  rcases h choices with ⟨v, hv⟩ | heq
  · left
    cases hrun : x.run choices with
    | mk outcome choices' =>
      rw [hrun] at hv
      cases hv
      exact ⟨v, rfl⟩
  · rw [heq]
    cases x.run choices with
    | mk outcome choices' =>
      cases outcome with
      | error halt => exact .inr rfl
      | ok a => exact hf a choices'

end

variable {chart : Chart g} {tokens : Array (Token κ)} {resolver : Resolver κ}

theorem agrees_walk {active : List (Item g × Nat)} {derive derive' : Item g → Nat → Reading κ (Derivation g)}
    (h : ∀ it state, Agrees (derive it state) (derive' it state)) :
    ∀ (before : List κ) (it : Item g) (state : Nat) (tail : List (Derivation g)),
      Agrees (walk chart tokens resolver active derive before it state tail)
        (walk chart tokens resolver active derive' before it state tail) := by
  intro before
  induction before with
  | nil => exact fun it state tail => .refl _
  | cons s before ih =>
    intro it state tail
    unfold walk
    dsimp only
    split
    · exact (Agrees.refl _).bind fun child => (h child state).bind fun d => ih _ _ _
    · split
      · exact .refl _
      · split
        · exact ih _ _ _
        · exact .refl _

/-- One level more changes nothing that did not need it. -/
theorem agrees_derive_succ : ∀ (fuel : Nat) (active : List (Item g × Nat)) (it : Item g) (state : Nat),
    Agrees (derive chart tokens resolver fuel active it state)
      (derive chart tokens resolver (fuel + 1) active it state) := by
  intro fuel
  induction fuel with
  | zero => exact fun active it state => agrees_broken _ _
  | succ fuel ih =>
    intro active it state
    rw [derive, derive]
    exact (agrees_walk (fun child state => ih _ child state) _ _ _ _).bind fun _ => .refl _

/-- A reading that stops does not stop at a broken contract. -/
theorem not_stuck_violation (hl : Lawful ts g.lookaheads chart.sets) (v : Violation) :
    ¬ Stuck ts chart resolver (.violation v) := by
  intro h
  obtain ⟨⟨cs, cause, hhalt⟩, -⟩ := h.stops hl
  cases hhalt

/-- A derivation nests no deeper than the chart has items: any greater depth gives the same reading. -/
theorem derive_of_lt (hl : Lawful ts g.lookaheads chart.sets) (hat : At chart.sets ts.length (accepting g))
    (choices : List (Choice κ)) {depth : Nat} (hdepth : chart.size < depth) :
    (derive chart ts.toArray resolver depth [] (accepting g) ts.length).run choices =
      (derive chart ts.toArray resolver (chart.size + 1) [] (accepting g) ts.length).run choices := by
  induction depth, hdepth using Nat.le_induction with
  | base => rfl
  | succ depth hdepth ih =>
    rw [← ih]
    rcases agrees_derive_succ depth [] (accepting g) ts.length choices with ⟨v, hv⟩ | heq
    · have hread := derive_keeps (fun _ => True) resolver hl (fun _ => trivial) (fun _ _ _ _ _ _ _ _ => trivial)
        depth [] (accepting g) ts.length (.start hat) (Item.isComplete_iff.mpr (Nat.le_refl _))
        (by rw [List.length_nil, Nat.zero_add]; exact hdepth) choices
      rw [hv] at hread
      exact absurd hread (not_stuck_violation hl v)
    · exact heq

end Chart

/-! ## What a parse may end with -/

namespace Grammar

/-- No contract is broken in a parse. -/
theorem outcome_ne_violation (resolver : Resolver κ) (tokens : List (Token κ)) (v : Violation) :
    (g.parse resolver tokens).outcome ≠ .error (.violation v) := by
  intro h
  rcases parse_cases g resolver tokens with ⟨t, hout, -⟩ | ⟨-, ⟨halt, hout, ⟨cs, cause, rfl⟩, -⟩ | ⟨ds, hout, -⟩⟩
  all_goals
    rw [hout] at h
    cases h

/-- Every parse ends, and without a broken contract: reading the tokens with no bound on the work has one answer, which
is the one that is given, and deriving to any depth beyond the size of the chart gives the same. Where no symbol
derives itself and the resolver always takes one of the candidates, every sentence has a derivation. -/
theorem parse_terminates {start : String} {specs : List RuleSpec} {g : Grammar String}
    (hg : ofSpecs start specs = .ok g) (resolver : Resolver String) (tokens : List (Token String)) :
    (∀ answer, Chart.Recognised g.lookaheads #[] [⟨g.first, 0, 0⟩] none (Chart.withEnd tokens) answer ↔
      answer = (Chart.recognise g g.lookaheads (Chart.withEnd tokens)).2.mapError .failure) ∧
    (∀ steps chart, Chart.recognise g g.lookaheads (Chart.withEnd tokens) = (steps, .ok chart) →
      ∀ depth choices, chart.size < depth →
        (chart.derive (Chart.withEnd tokens).toArray resolver depth [] (Chart.accepting g)
          (Chart.withEnd tokens).length).run choices =
        (chart.derive (Chart.withEnd tokens).toArray resolver (chart.size + 1) [] (Chart.accepting g)
          (Chart.withEnd tokens).length).run choices) ∧
    (∀ v, (g.parse resolver tokens).outcome ≠ .error (.violation v)) ∧
    ((∀ a, ¬ Relation.TransGen g.contextFree.Produces [.nonterminal a] [.nonterminal a]) → resolver.Decisive →
      (Chart.withEnd tokens).map (·.kind) ∈ g.contextFree.language →
        ∃ d, (g.parse resolver tokens).outcome = .ok d) := by
  refine ⟨fun answer => Chart.recognised_iff (Chart.withEnd_ne_nil tokens), ?_, outcome_ne_violation resolver tokens,
    ?_⟩
  · intro steps chart hrec depth choices hdepth
    have hends := Chart.recognise_spec (g := g) (Chart.closed_withEnd tokens)
    rw [hrec] at hends
    obtain ⟨hl, -, hat⟩ := hends
    exact Chart.derive_of_lt hl hat choices hdepth
  · intro hcycles hresolver hlanguage
    have hcovers := (covers_iff (rooted_ofSpecs hg) (Chart.withEnd tokens)).mpr hlanguage
    obtain ⟨ds, hout, -, -⟩ := parse_of_covers (acyclic_iff.mpr hcycles) hresolver hcovers
    exact ⟨_, hout⟩

/-- An ambiguous grammar without cycles: three tokens have two derivations, and one of them is found. -/
theorem parse_terminates_ambiguous :
    ∃ g, ofSpecs "S" [⟨"S ::= S S\nS ::= a", "s", true⟩] = .ok g ∧
      (∀ a, ¬ Relation.TransGen g.contextFree.Produces [.nonterminal a] [.nonterminal a]) ∧
      (∃ answer, Chart.Recognised g.lookaheads #[] [⟨g.first, 0, 0⟩] none
        (Chart.withEnd (List.replicate 3 ⟨"a", [], none, 1⟩)) answer) ∧
      ∃ d, (g.parse .longestRule (List.replicate 3 ⟨"a", [], none, 1⟩)).outcome = .ok d := by
  have hg : ofSpecs "S" [⟨"S ::= S S\nS ::= a", "s", true⟩] = .ok
      (ofRules "S" [⟨"S", ["S", "S"], "s", true⟩, ⟨"S", ["a"], "s", true⟩]) := by cbv
  refine ⟨_, hg, ?_⟩
  generalize hrules : ofRules "S" [⟨"S", ["S", "S"], "s", true⟩, ⟨"S", ["a"], "s", true⟩] = g at hg ⊢
  have hacyclic : g.Acyclic := by
    subst hrules
    refine acyclic_of_height [] (fun s => if s = "S" then 1 else 0) ?_ ?_
    · decide
    · decide
  have hcovers : g.Covers (Chart.withEnd (List.replicate 3 ⟨"a", [], none, 1⟩)) := by
    subst hrules
    have hone : ∀ i, i < 3 → Spans (ofRules "S" [⟨"S", ["S", "S"], "s", true⟩, ⟨"S", ["a"], "s", true⟩])
        (Chart.withEnd (List.replicate 3 ⟨"a", [], none, 1⟩)) ["S"] i (i + 1) := by
      intro i hi
      have ht : (Chart.withEnd (List.replicate 3 (⟨"a", [], none, 1⟩ : Token String)))[i]? =
          some ⟨"a", [], none, 1⟩ := by
        interval_cases i <;> rfl
      exact .single (r := ⟨2, by decide⟩) (.single_terminal ht (by cbv))
    have htwo := Spans.single (r := ⟨1, by decide⟩) ((hone 1 (by decide)).append (hone 2 (by decide)))
    have hall := Spans.single (r := ⟨1, by decide⟩) ((hone 0 (by decide)).append htwo)
    exact hall.append (.single_terminal (t := ⟨"EOF", [], none, 1⟩) rfl (by cbv))
  have hcycles := acyclic_iff.mp hacyclic
  obtain ⟨hread, -, -, hsentence⟩ := parse_terminates hg .longestRule (List.replicate 3 ⟨"a", [], none, 1⟩)
  exact ⟨hcycles, ⟨_, (hread _).mpr rfl⟩,
    hsentence hcycles Resolver.decisive_longestRule ((covers_iff (rooted_ofSpecs hg) _).mp hcovers)⟩

end Grammar

end IrafCl
