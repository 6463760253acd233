import IrafCl.Proofs.Chart.Links
import IrafCl.Proofs.Parser

/-!
# The shortest rules are chosen

In a grammar without cycles the resolver for the shortest rule has its way everywhere: below the start
rule, no node of a parse could have been derived by a rule with fewer symbols (`frugal_parse`). For a rule
that derives the tokens of a chosen item was predicted where that item began, because something waits for
its symbol there. So it is completed at the same position, stands among the links, and is compared.
-/

namespace IrafCl

variable {κ : Type} {g : Grammar κ}

namespace Resolver

theorem bestFrom_lt (better : Candidate κ → Candidate κ → Bool) :
    ∀ (cs : List (Candidate κ)) (b : Candidate κ) (position next : Nat), position < next →
      bestFrom better b position next cs < next + cs.length
  | [], _, position, next, h => by simpa [bestFrom] using h
  | c :: cs, b, position, next, h => by
    rw [bestFrom, List.length_cons]
    split
    · have := bestFrom_lt better cs c next (next + 1) (by omega)
      omega
    · have := bestFrom_lt better cs b position (next + 1) (by omega)
      omega

/-- The best candidate can always be taken. -/
theorem decisive_best (better : Candidate κ → Candidate κ → Bool) :
    Resolver.Decisive fun cs => .ok (best better cs) := by
  intro cs hcs
  cases cs with
  | nil => exact absurd rfl hcs
  | cons c cs =>
    refine ⟨_, rfl, ?_⟩
    rw [best, List.length_cons]
    have := bestFrom_lt better cs c 0 1 (by omega)
    omega

theorem decisive_shortestRule : (shortestRule : Resolver κ).Decisive := decisive_best _

theorem decisive_longestRule : (longestRule : Resolver κ).Decisive := decisive_best _

/-- The position that is found is that of a candidate with the least measure. -/
theorem getElem?_bestFrom (measure : Candidate κ → Nat) : ∀ (cs before : List (Candidate κ)) (b : Candidate κ)
    (position : Nat), before[position]? = some b → (∀ c ∈ before, measure b ≤ measure c) →
      ∃ b', (before ++ cs)[bestFrom (fun c b => measure c < measure b) b position before.length cs]? = some b' ∧
        ∀ c ∈ before ++ cs, measure b' ≤ measure c := by
  intro cs
  induction cs with
  | nil =>
    intro before b position hb hleast
    rw [List.append_nil]
    exact ⟨b, hb, hleast⟩
  | cons c cs ih =>
    intro before b position hb hleast
    have hlength : before.length + 1 = (before ++ [c]).length := by simp
    have happend : before ++ c :: cs = before ++ [c] ++ cs := by simp
    rw [bestFrom, happend, hlength]
    split
    · next hbetter =>
      refine ih (before ++ [c]) c before.length (by simp) fun c' hc' => ?_
      rcases List.mem_append.mp hc' with hc' | hc'
      · exact Nat.le_trans (Nat.le_of_lt (by simpa using hbetter)) (hleast c' hc')
      · rw [List.mem_singleton.mp hc']
    · next hworse =>
      have hlt : position < before.length := (List.getElem?_eq_some_iff.mp hb).1
      refine ih (before ++ [c]) b position (by rw [List.getElem?_append_left hlt]; exact hb) fun c' hc' => ?_
      rcases List.mem_append.mp hc' with hc' | hc'
      · exact hleast c' hc'
      · rw [List.mem_singleton.mp hc']
        simpa using hworse

/-- The rule of the candidate that is preferred has the fewest symbols. -/
theorem shortestRule_le {cs : List (Candidate κ)} {n : Nat} {b : Candidate κ}
    (h : shortestRule cs = .ok n) (hb : cs[n]? = some b) :
    ∀ c ∈ cs, b.rule.rhs.length ≤ c.rule.rhs.length := by
  cases cs with
  | nil => simp at hb
  | cons c cs =>
    obtain ⟨b', hget, hleast⟩ := getElem?_bestFrom (fun c : Candidate κ => c.rule.rhs.length) cs [c] c 0
      rfl (by simp)
    have hn : bestFrom (fun c b : Candidate κ => decide (c.rule.rhs.length < b.rule.rhs.length)) c 0 1 cs = n :=
      Int.ofNat.inj (Except.ok.inj h)
    have hget : (c :: cs)[n]? = some b' := by
      rw [← hn]
      exact hget
    obtain rfl : b' = b := Option.some.inj (hget.symm.trans hb)
    exact hleast

end Resolver

variable [DecidableEq κ]

namespace Derivation

/-- A derivation in which no rule has more symbols than another one of the same symbol that derives the
same tokens. -/
inductive Frugal : Derivation g → Prop where
  | token (t : Token κ) : Frugal (.token t)
  | node (r : g.Index) (ds : List (Derivation g)) (hds : ∀ d ∈ ds, Frugal d)
      (hleast : ∀ r' ds', (Derivation.node r' ds' : Derivation g).Valid → (g.rule r').lhs = (g.rule r).lhs →
        yieldAll ds' = yieldAll ds → (g.rule r).rhs.length ≤ (g.rule r').rhs.length) : Frugal (.node r ds)

/-- Derivations that each span their part of the tokens span them together. -/
theorem spans_of_forall {ts : List (Token κ)} {ds : List (Derivation g)}
    (h : ∀ d ∈ ds, ∀ {i : Nat}, d.yield <+: ts.drop i → g.Spans ts [d.symbol] i (i + d.yield.length)) :
    ∀ {i : Nat}, yieldAll ds <+: ts.drop i → g.Spans ts (ds.map symbol) i (i + (yieldAll ds).length) := by
  induction ds with
  | nil => exact fun {i} _ => .nil i
  | cons d ds ih =>
    intro i hprefix
    rw [yieldAll] at hprefix
    have hfront : d.yield <+: ts.drop i := (List.prefix_append _ _).trans hprefix
    have hback : yieldAll ds <+: ts.drop (i + d.yield.length) := by
      obtain ⟨rest, hrest⟩ := hprefix
      rw [← List.drop_drop, ← hrest, List.append_assoc, List.drop_left]
      exact List.prefix_append _ _
    have hspan := (h d (by simp) hfront).append (ih (fun e he => h e (by simp [he])) hback)
    rw [yieldAll, List.length_append, ← Nat.add_assoc]
    exact hspan

/-- What derives a part of the tokens spans it. -/
theorem Valid.spans {ts : List (Token κ)} {d : Derivation g} (hd : d.Valid) :
    ∀ {i : Nat}, d.yield <+: ts.drop i → g.Spans ts [d.symbol] i (i + d.yield.length) := by
  induction hd with
  | token t hn =>
    intro i hprefix
    have ht : ts[i]? = some t := by
      obtain ⟨rest, hrest⟩ := hprefix
      rw [← List.head?_drop, ← hrest]
      rfl
    exact .single_terminal ht hn
  | node r ds hrhs hds ih =>
    intro i hprefix
    have hspan := spans_of_forall ih hprefix
    rw [hrhs] at hspan
    exact hspan.single

/-- A rule whose derivations are over the tokens between two positions spans them. -/
theorem Valid.spans_rhs {ts : List (Token κ)} {r : g.Index} {ds : List (Derivation g)} {i j : Nat}
    (hd : (Derivation.node r ds).Valid) (hyield : yieldAll ds = Grammar.between ts i j) (hij : i ≤ j)
    (hj : i < j → j ≤ ts.length) : g.Spans ts (g.rule r).rhs i j := by
  cases hd with
  | node _ _ hrhs hds =>
    have hlength : i + (yieldAll ds).length = j := by
      rw [hyield, Grammar.between, List.length_take, List.length_drop]
      omega
    have hprefix : yieldAll ds <+: ts.drop i := by
      rw [hyield]
      exact List.take_prefix _ _
    have hspan := spans_of_forall (fun d hd => (hds d hd).spans) hprefix
    rwa [hrhs, hlength] at hspan

end Derivation

namespace Chart

variable [Alphabet κ] {ts : List (Token κ)} {chart : Chart g} {it child : Item g} {state : Nat} {α : List κ}

/-- A chart that was built: it obeys the laws, its links are complete, and what lies ahead are terminals of the
grammar. -/
structure Built (ts : List (Token κ)) (chart : Chart g) : Prop where
  lawful : Lawful ts g.lookaheads chart.sets
  linked : FullyLinked chart.sets
  ahead : ∀ k < chart.sets.size, aheadAt ts k ∈ g.terminals
  size_eq : chart.sets.size = ts.length + 1

theorem Built.le_length (hb : Built ts chart) (hat : At chart.sets state it) : state ≤ ts.length := by
  have hlt := hat.lt
  rw [hb.size_eq] at hlt
  exact Nat.le_of_lt_succ hlt

theorem built_of_recognise {tokens : List (Token κ)} {steps : List (ChartStep κ)}
    (h : recognise g g.lookaheads (withEnd tokens) = (steps, .ok chart)) : Built (withEnd tokens) chart := by
  have hends := recognise_spec (g := g) (closed_withEnd tokens)
  rw [h] at hends
  obtain ⟨hl, hsize, -⟩ := hends
  have hcovers := Grammar.covers_of_recognise (congrArg (·.2) h)
  exact ⟨hl, (recognise_keeps h).2, fun k _ => aheadAt_mem_terminals (closed_withEnd tokens) hcovers k, hsize⟩

/-- What a link of an item leads to stands in its rule, between the symbols that were read before and those after
the dot. -/
structure Split (ts : List (Token κ)) (it child : Item g) (state : Nat) (α : List κ) : Prop where
  rhs : (g.rule it.rule).rhs = α ++ child.lhs :: it.rest
  dot : α.length + 1 = it.dot
  before : g.Spans ts α it.origin child.origin
  inside : g.Spans ts (g.rule child.rule).rhs child.origin state

theorem Lawful.exists_split (hl : Lawful ts g.lookaheads chart.sets) (hmem : child ∈ chart.linksOf it state) :
    ∃ α, Split ts it child state α := by
  obtain ⟨hc, hcomplete, p, hp, hnext, rfl⟩ := hl.linked state it child (mem_linksOf.mp hmem)
  refine ⟨(g.rule p.rule).rhs.take p.dot, ?_, ?_, (hl.sits _ p hp).spans, ?_⟩
  · rw [← Item.rest_of_next? hnext]
    exact (List.take_append_drop _ _).symm
  · have hlt := Item.dot_lt_of_next? hnext
    rw [List.length_take, Nat.min_eq_left (Nat.le_of_lt hlt)]
    rfl
  · have hspan := (hl.sits state child hc).spans
    rwa [List.take_of_length_le (Item.isComplete_iff.mp hcomplete)] at hspan

/-- Every other way to read the symbol that a link leads to, and those before it, is linked as well. -/
theorem Split.mem_linksOf {r : g.Index} {k : Nat} (hb : Built ts chart) (h : Split ts it child state α)
    (hat : At chart.sets state it) (hα : g.Spans ts α it.origin k) (hlhs : (g.rule r).lhs = child.lhs)
    (hr : g.Spans ts (g.rule r).rhs k state) : ⟨r, (g.rule r).rhs.length, k⟩ ∈ chart.linksOf it state := by
  have hlt := hat.lt
  have hle := hr.le
  have hrest : Item.rest { it with dot := α.length } = child.lhs :: it.rest := by
    rw [Item.rest, h.rhs, List.drop_left]
  have hwait := hb.lawful.at_of_spans hb.ahead hα (hb.lawful.at_begin hat) (β := child.lhs :: it.rest) h.rhs (by omega)
  rw [Nat.zero_add] at hwait
  have hnext : Item.next? { it with dot := α.length } = some (g.rule r).lhs := by
    rw [Item.next?_of_rest hrest, hlhs]
  have hbegun := hb.lawful.predicted_of_spans hb.ahead hr hwait hnext
  have hdone := hb.lawful.at_of_spans hb.ahead hr (β := []) hbegun (by simp [Item.rest]) hlt
  rw [Nat.zero_add] at hdone
  have hlink := hb.linked.complete state _ _ hdone (Item.isComplete_iff.mpr (Nat.le_refl _)) hwait hnext
  rw [Item.advance, h.dot] at hlink
  exact Chart.mem_linksOf.mpr hlink

omit [Alphabet κ] in
/-- Where the shortest rule is preferred, no link that could be chosen instead has a rule with fewer symbols. -/
theorem Chosen.length_le {active : List (Item g × Nat)} {other : Item g} {links : List (Item g)}
    (h : Chosen .shortestRule active state links child) (hmem : other ∈ links) (hfree : (other, state) ∉ active) :
    (g.rule child.rule).rhs.length ≤ (g.rule other.rule).rhs.length := by
  generalize husable : links.filter (fun it => !active.contains (it, state)) = usable
  have hfilter : ∀ c ∈ links, (c, state) ∉ active → c ∈ usable := by
    intro c hc hcfree
    rw [← husable, List.mem_filter]
    exact ⟨hc, by simpa using hcfree⟩
  have hchild := hfilter child h.mem h.free
  have hrival := hfilter other hmem hfree
  by_cases hlength : 1 < usable.length
  · obtain ⟨n, hn, hget⟩ := h.answer usable husable.symm hlength
    have hcandidate : (usable.map (candidate state))[n]? = some (candidate state child) := by
      rw [List.getElem?_map, hget, Option.map_some]
    exact Resolver.shortestRule_le hn hcandidate _ (List.mem_map_of_mem hrival)
  · obtain ⟨c, rfl⟩ : ∃ c, usable = [c] :=
      List.length_eq_one_iff.mp (by have := List.length_pos_of_mem hchild; omega)
    rw [List.mem_singleton] at hchild hrival
    rw [hchild, ← hrival]

/-- Where the shortest rule is preferred, no rule with fewer symbols derives what an item that is followed
derives: it would be completed beside it, and linked. -/
theorem Followed.length_le {active : List (Item g × Nat)} (hg : g.Acyclic) (hb : Built ts chart)
    (hf : Followed chart .shortestRule active it child state) {r : g.Index} (hlhs : (g.rule r).lhs = child.lhs)
    (hspan : g.Spans ts (g.rule r).rhs child.origin state) :
    (g.rule child.rule).rhs.length ≤ (g.rule r).rhs.length := by
  obtain ⟨α, hsplit⟩ := hb.lawful.exists_split hf.chosen.mem
  have hother := hsplit.mem_linksOf hb hf.at_set hsplit.before hlhs hspan
  -- no item is met inside itself, so all that is linked can be followed
  exact hf.chosen.length_le hother ((hf.nested _ hother).not_mem hg)

end Chart

/-- Below the start rule, a parse that prefers the shortest rule has no rule with more symbols than another
one of its symbol that derives the same tokens. -/
theorem Grammar.frugal_parse [Alphabet κ] (hg : g.Acyclic) {tokens : List (Token κ)} {d : Derivation g}
    (h : (g.parse .shortestRule tokens).outcome = .ok d) :
    ∃ ds, d = .node g.first ds ∧ d.Valid ∧ d.yield = Chart.withEnd tokens ∧ ∀ e ∈ ds, e.Frugal := by
  cases hrec : Chart.recognise g g.lookaheads (Chart.withEnd tokens) with
  | mk steps outcome =>
    cases outcome with
    | error f =>
      rw [outcome_of_refused hrec] at h
      cases h
    | ok chart =>
      have hb := Chart.built_of_recognise hrec
      have hnode : ∀ active it child state ds, Chart.Followed chart .shortestRule active it child state →
          Chart.Derives (Chart.withEnd tokens) (.node child.rule ds) child.lhs child.origin state →
            (∀ d ∈ ds, d.Frugal) → (Derivation.node child.rule ds).Frugal := by
        intro active it child state ds hf hd hds
        refine .node child.rule ds hds fun r' ds' hvalid hlhs hyield => ?_
        obtain ⟨α, hsplit⟩ := hb.lawful.exists_split hf.chosen.mem
        refine hf.length_le hg hb hlhs (hvalid.spans_rhs ?_ hsplit.inside.le hsplit.inside.le_length)
        rw [hyield]
        exact hd.yield
      rcases outcome_keeps hrec .shortestRule Derivation.Frugal .token hnode with
        ⟨halt, hout, -⟩ | ⟨ds, hout, hd, hfrugal⟩
      · rw [hout] at h
        cases h
      · rw [hout] at h
        cases h
        exact ⟨ds, rfl, hd.valid, hd.yield.trans between_length, hfrugal⟩

end IrafCl
