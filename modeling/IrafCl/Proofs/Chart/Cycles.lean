import IrafCl.Proofs.Chart.Preference
import IrafCl.Proofs.Grammar.Cycles

/-!
# Where the shortest rules run in a circle

In a grammar with cycles the parser may come to a symbol whose rules for the tokens at hand are all being derived
already. It does not go back then, but reports an ambiguity, also for sentences. The items that are being derived
over the same tokens turn into one another (`Path.turns`), so every rule that the symbol has for these tokens turns
into itself. And the shortest rules do (`Path.shortTurns`): as long as the shortest link is none that is being
derived, it is chosen, and where it is, the circle is closed.

So the resolver for the shortest rule leads out of every cycle in which some rule has a shorter rival
(`parse_shortestRule`).
-/

namespace IrafCl

variable {κ : Type} {g : Grammar κ} [DecidableEq κ] [Alphabet κ]

namespace Chart

variable {ts : List (Token κ)} {chart : Chart g} {resolver : Resolver κ} {active : List (Item g × Nat)}
  {it top child : Item g} {state stop : Nat} {α : List κ}

/-- The word between two positions. -/
abbrev word (ts : List (Token κ)) (i j : Nat) : List κ := Grammar.between (ts.map (·.kind)) i j

/-! ## Turning over the same tokens -/

omit [Alphabet κ] in
/-- What lies inside the innermost item and has the span of one around it has the span of the innermost item. -/
theorem Nested.same_span {outer : Item g × Nat} (h : Nested active top stop)
    (hchild : Nested ((top, stop) :: active) child state) (houter : outer ∈ (top, stop) :: active)
    (horigin : outer.1.origin = child.origin) (hstate : outer.2 = state) : top.origin = child.origin ∧ stop = state := by
  obtain ⟨hle, hend, -⟩ := hchild (top, stop) (by simp)
  rcases List.mem_cons.mp houter with rfl | houter
  · exact ⟨horigin, hstate⟩
  · obtain ⟨hole, hoend, -⟩ := h outer houter
    dsimp only at hle hend
    omega

omit [Alphabet κ] in
theorem Split.turnsAfter (h : Split ts it child stop α) (hpassing : Passing ts chart top stop it stop)
    (hsame : top.origin = child.origin) : g.TurnsAfter (word ts top.origin stop) α top.rule child.rule := by
  have hbefore := h.before
  rw [hpassing.origin, hsame] at hbefore
  refine ⟨it.rest, ?_, hbefore.vanishes, hpassing.rest.vanishes, ?_⟩
  · rw [← hpassing.rule]
    exact h.rhs
  · rw [hsame]
    exact h.inside.derivesWord

/-- Where no link has a shorter rule, no other way to read the symbol has. -/
theorem Split.shortTurns (hb : Built ts chart) (h : Split ts it child stop α)
    (hpassing : Passing ts chart top stop it stop) (hsame : top.origin = child.origin)
    (hleast : ∀ c ∈ chart.linksOf it stop, (g.rule child.rule).rhs.length ≤ (g.rule c.rule).rhs.length) :
    g.ShortTurns (word ts top.origin stop) top.rule child.rule := by
  refine ⟨α, h.turnsAfter hpassing hsame, fun u v r hw hu hlhs hv => ?_⟩
  have hstop : stop ≤ ts.length := hb.le_length hpassing.at_set
  obtain ⟨hle, hfront, hback⟩ := Grammar.between_eq_append (hsame ▸ h.inside.le) (by simpa using hstop) hw
  have hα : g.Spans ts α it.origin (top.origin + u.length) := by
    rw [hpassing.origin]
    refine (Grammar.spans_iff_derives (Nat.le_add_right _ _) (by omega)).mpr ?_
    rw [hfront]
    exact hu
  have hr : g.Spans ts (g.rule r).rhs (top.origin + u.length) stop := by
    refine (Grammar.spans_iff_derives hle hstop).mpr ?_
    rw [hback]
    exact hv
  exact hleast _ (h.mem_linksOf hb hpassing.at_set hα hlhs hr)

/-! ## Paths that turn -/

/-- The items that are being derived over the same tokens turn into the innermost one. -/
theorem Path.turns (hl : Lawful ts g.lookaheads chart.sets) {path : List (Item g × Nat)}
    (h : Path ts chart resolver path) : ∀ {top stop active}, path = (top, stop) :: active →
      ∀ outer ∈ active, outer.1.origin = top.origin → outer.2 = stop →
        Relation.TransGen (g.Turns (word ts top.origin stop)) outer.1.rule top.rule := by
  induction h with
  | start hat =>
    intro top stop active heq
    cases heq
    simp
  | @follow active top it child stop state hpath hpassing hchosen ih =>
    intro _ _ _ heq outer houter horigin hstate
    cases heq
    have hnested := hpath.nested hl rfl
    obtain ⟨hsame, rfl⟩ := hnested.same_span (hpassing.linked hl hnested hchosen.mem).2.2 houter horigin hstate
    obtain ⟨α, hsplit⟩ := hl.exists_split hchosen.mem
    have hturn : g.Turns (word ts top.origin stop) top.rule child.rule := ⟨α, hsplit.turnsAfter hpassing hsame⟩
    rw [← hsame]
    rcases List.mem_cons.mp houter with rfl | houter
    · exact .single hturn
    · exact (ih rfl outer houter (horigin.trans hsame.symm) hstate).tail hturn

/-- Over the same tokens there is a cycle of shortest rules already, or those that are being derived turn into the
innermost one by shortest rules. -/
def ShortSoFar (ts : List (Token κ)) (active : List (Item g × Nat)) (top : Item g) (stop : Nat) : Prop :=
  (∃ r, Relation.TransGen (g.ShortTurns (word ts top.origin stop)) r r) ∨
    ∀ outer ∈ active, outer.1.origin = top.origin → outer.2 = stop →
      Relation.TransGen (g.ShortTurns (word ts top.origin stop)) outer.1.rule top.rule

/-- If a link to what is being derived has no shorter rival, there is a cycle of shortest rules. -/
theorem ShortSoFar.cycle (hb : Built ts chart) (h : ShortSoFar ts active top stop)
    (hpassing : Passing ts chart top stop it stop) (hmem : child ∈ chart.linksOf it stop)
    (hactive : (child, stop) ∈ (top, stop) :: active) (hsame : top.origin = child.origin)
    (hleast : ∀ c ∈ chart.linksOf it stop, (g.rule child.rule).rhs.length ≤ (g.rule c.rule).rhs.length) :
    ∃ r, Relation.TransGen (g.ShortTurns (word ts top.origin stop)) r r := by
  obtain ⟨α, hsplit⟩ := hb.lawful.exists_split hmem
  have hturn := hsplit.shortTurns hb hpassing hsame hleast
  rcases h with hcycle | hshort
  · exact hcycle
  · rcases List.mem_cons.mp hactive with heq | hactive
    · cases heq
      exact ⟨_, .single hturn⟩
    · exact ⟨_, (hshort _ hactive hsame.symm rfl).tail hturn⟩

omit [Alphabet κ] in
theorem exists_shortest {links : List (Item g)} (hne : links ≠ []) :
    ∃ m ∈ links, ∀ c ∈ links, (g.rule m.rule).rhs.length ≤ (g.rule c.rule).rhs.length := by
  have hne' : links.toFinset.Nonempty := (List.toFinset_nonempty_iff links).mpr hne
  obtain ⟨m, hm, hleast⟩ := links.toFinset.exists_min_image (fun c => (g.rule c.rule).rhs.length) hne'
  exact ⟨m, List.mem_toFinset.mp hm, fun c hc => hleast c (List.mem_toFinset.mpr hc)⟩

/-- As long as a shortest link can be chosen it is, and where it cannot, the cycle is closed. -/
theorem Path.shortTurns (hb : Built ts chart) {path : List (Item g × Nat)} (h : Path ts chart .shortestRule path) :
    ∀ {top stop active}, path = (top, stop) :: active → ShortSoFar ts active top stop := by
  induction h with
  | start hat =>
    intro top stop active heq
    cases heq
    exact .inr (by simp)
  | @follow active top it child stop state hpath hpassing hchosen ih =>
    intro _ _ _ heq
    cases heq
    have hnested := hpath.nested hb.lawful rfl
    have hinside := fun c (hc : c ∈ chart.linksOf it state) => (hpassing.linked hb.lawful hnested hc).2.2
    have hchild := hinside child hchosen.mem
    by_cases hspan : top.origin = child.origin ∧ stop = state
    · obtain ⟨hsame, rfl⟩ := hspan
      obtain ⟨m, hm, hleast⟩ := exists_shortest (List.ne_nil_of_mem hchosen.mem)
      by_cases hactive : (m, stop) ∈ (top, stop) :: active
      · have hsame' := (hnested.same_span (hinside m hm) hactive rfl rfl).1
        have hcycle := (ih rfl).cycle hb hpassing hm hactive hsame' hleast
        rw [hsame] at hcycle
        exact .inl hcycle
      · -- the link that was chosen is as short as the shortest
        have hle := hchosen.length_le hm hactive
        obtain ⟨α, hsplit⟩ := hb.lawful.exists_split hchosen.mem
        have hturn := hsplit.shortTurns hb hpassing hsame
          fun c hc => Nat.le_trans hle (hleast c hc)
        rw [ShortSoFar, ← hsame]
        rcases ih rfl with hcycle | hshort
        · exact .inl hcycle
        · refine .inr fun outer houter horigin hstate => ?_
          rcases List.mem_cons.mp houter with rfl | houter
          · exact .single hturn
          · exact (hshort outer houter horigin hstate).tail hturn
    · -- nothing that is being derived has the span of the child
      refine .inr fun outer houter horigin hstate => ?_
      exact absurd (hnested.same_span hchild houter horigin hstate) hspan

/-- Where a reading that prefers the shortest rules is stuck, there is a cycle of them over some tokens, and a symbol
that derives these tokens by rules only which turn into themselves. -/
theorem Stuck.cycles (hb : Built ts chart) {halt : Halt} (h : Stuck ts chart .shortestRule halt) :
    (∃ cs : List (Candidate κ), halt = ambiguity cs "cyclic derivation") ∧ ∃ i j,
      (∃ r, Relation.TransGen (g.ShortTurns (word ts i j)) r r) ∧
      ∃ s, g.isNonterminal s = true ∧ g.DerivesWord [s] (word ts i j) ∧
        ∀ r, (g.rule r).lhs = s → g.DerivesWord (g.rule r).rhs (word ts i j) →
          Relation.TransGen (g.Turns (word ts i j)) r r := by
  obtain ⟨active, top, stop, it, state, h⟩ := h
  rcases h.refuses with ⟨hall, rfl⟩ | ⟨hd, -⟩
  · obtain ⟨m, hm, hleast⟩ := exists_shortest h.links
    have hnested := h.path.nested hb.lawful rfl
    obtain ⟨hsame, rfl⟩ := hnested.same_span (h.passing.linked hb.lawful hnested hm).2.2 (hall m hm) rfl rfl
    obtain ⟨α, hsplit⟩ := hb.lawful.exists_split hm
    have hbefore := hsplit.before
    rw [← hsame] at hbefore
    have hderives : g.DerivesWord (g.rule m.rule).rhs (word ts top.origin stop) := by
      rw [hsame]
      exact hsplit.inside.derivesWord
    refine ⟨⟨_, rfl⟩, top.origin, stop, ?_, m.lhs, Grammar.isNonterminal_lhs m.rule, hderives.of_rule,
      fun r hlhs hr => ?_⟩
    · exact (h.path.shortTurns hb rfl).cycle hb h.passing hm (hall m hm) hsame hleast
    · -- the rule is completed over the same tokens, so it is linked, and like all links being derived
      have hspan : g.Spans ts (g.rule r).rhs top.origin stop := by
        refine (Grammar.spans_iff_derives ?_ (hb.le_length h.passing.at_set)).mpr hr
        rw [hsame]
        exact hsplit.inside.le
      have hlink := hsplit.mem_linksOf hb h.passing.at_set hbefore hlhs hspan
      obtain ⟨β, hsplit'⟩ := hb.lawful.exists_split hlink
      have hturn : g.Turns (word ts top.origin stop) top.rule r := ⟨β, hsplit'.turnsAfter h.passing rfl⟩
      rcases List.mem_cons.mp (hall _ hlink) with heq | hactive
      · have hrule : r = top.rule := congrArg (·.1.rule) heq
        rw [← hrule] at hturn
        exact .single hturn
      · exact (h.path.turns hb.lawful rfl _ hactive rfl rfl).tail hturn
  · exact absurd Resolver.decisive_shortestRule hd

end Chart

namespace Grammar

/-- A parse that prefers the shortest rules derives every sentence, unless it reports a cyclic derivation: then, over
a part of the sentence, there is a cycle of rules none of which has a shorter rival in its place, and a symbol all
of whose rules for that part lie on cycles. -/
theorem parse_shortestRule {start : String} {specs : List RuleSpec} {g : Grammar String}
    (hg : ofSpecs start specs = .ok g) (tokens : List (Token String))
    (hlanguage : (Chart.withEnd tokens).map (·.kind) ∈ g.contextFree.language) :
    (∃ d, (g.parse .shortestRule tokens).outcome = .ok d) ∨
    ((∃ cs : List (Candidate String),
        (g.parse .shortestRule tokens).outcome = .error (ambiguity cs "cyclic derivation")) ∧
      ∃ w, w <:+: (Chart.withEnd tokens).map (·.kind) ∧
        (∃ r, Relation.TransGen (g.ShortTurns w) r r ∧
          Relation.TransGen g.contextFree.Produces [.nonterminal (g.rule r).lhs] [.nonterminal (g.rule r).lhs]) ∧
        ∃ s, g.isNonterminal s = true ∧ g.DerivesWord [s] w ∧
          ∀ r, (g.rule r).lhs = s → g.DerivesWord (g.rule r).rhs w → Relation.TransGen (g.Turns w) r r) := by
  have hcovers := (covers_iff (rooted_ofSpecs hg) (Chart.withEnd tokens)).mpr hlanguage
  cases hrec : Chart.recognise g g.lookaheads (Chart.withEnd tokens) with
  | mk steps outcome =>
    cases outcome with
    | error f => exact absurd hcovers (not_covers_of_refused hrec)
    | ok chart =>
      have hb := Chart.built_of_recognise hrec
      rcases outcome_keeps hrec .shortestRule (fun _ => True) (fun _ => trivial)
        (fun _ _ _ _ _ _ _ _ => trivial) with ⟨halt, hout, hstuck⟩ | ⟨ds, hout, -⟩
      · obtain ⟨⟨cs, rfl⟩, i, j, ⟨r, hcycle⟩, hsymbol⟩ := hstuck.cycles hb
        have hturns := hcycle.lift id fun _ _ => ShortTurns.turns
        exact .inr ⟨⟨cs, hout⟩, _, between_isInfix _ i j, ⟨r, hcycle, produces_of_turns hturns⟩, hsymbol⟩
      · exact .inl ⟨_, hout⟩

/-! ## A sentence that is not derived -/

/-- The rule from `B` back to `A` is the shorter one, and `A` has no other rule than that to `B`. -/
def detour : Grammar String :=
  ofRules "A" [⟨"A", ["B"], "A", false⟩, ⟨"B", ["A"], "B", false⟩, ⟨"B", ["a", "a"], "B", false⟩]

theorem ofSpecs_detour : ofSpecs "A" [⟨"A ::= B", "", false⟩, ⟨"B ::= A\nB ::= a a", "", false⟩] = .ok detour := by
  cbv

theorem mem_language_detour : (Chart.withEnd (List.replicate 2 ⟨"a", [], none, 1⟩)).map (·.kind) ∈
    detour.contextFree.language := by
  have haa : detour.Spans (Chart.withEnd (List.replicate 2 ⟨"a", [], none, 1⟩)) ["a", "a"] 0 2 :=
    .terminal (t := ⟨"a", [], none, 1⟩) rfl (by cbv) (.terminal (t := ⟨"a", [], none, 1⟩) rfl (by cbv) (.nil 2))
  have hB : detour.Spans (Chart.withEnd (List.replicate 2 ⟨"a", [], none, 1⟩)) ["B"] 0 2 :=
    .single (r := ⟨3, by decide⟩) haa
  have hA : detour.Spans (Chart.withEnd (List.replicate 2 ⟨"a", [], none, 1⟩)) ["A"] 0 2 :=
    .single (r := ⟨1, by decide⟩) hB
  have hcovers : detour.Covers (Chart.withEnd (List.replicate 2 ⟨"a", [], none, 1⟩)) :=
    hA.append (.single_terminal (t := ⟨"EOF", [], none, 1⟩) rfl (by cbv))
  exact (covers_iff (rooted_ofSpecs ofSpecs_detour) _).mp hcovers

theorem outcome_detour : (detour.parse .shortestRule (List.replicate 2 ⟨"a", [], none, 1⟩)).outcome =
    .error (ambiguity [⟨⟨"A", ["B"], "A", false⟩, 0, 2⟩] "cyclic derivation") := by
  cbv

/-- The resolver for the shortest rule can make a sentence fail. -/
theorem not_derives_all : ¬ ∀ (start : String) (specs : List RuleSpec) (g : Grammar String),
    ofSpecs start specs = .ok g → ∀ tokens : List (Token String),
      (Chart.withEnd tokens).map (·.kind) ∈ g.contextFree.language →
        ∃ d, (g.parse .shortestRule tokens).outcome = .ok d := by
  intro h
  obtain ⟨d, hd⟩ := h _ _ _ ofSpecs_detour _ mem_language_detour
  rw [outcome_detour] at hd
  cases hd

/-- Where that happens there are rules that turn into themselves, none of which has a shorter rival. -/
theorem parse_shortestRule_detour : ∃ w, w <:+: ["a", "a", "EOF"] ∧
    ∃ r, Relation.TransGen (detour.ShortTurns w) r r := by
  rcases parse_shortestRule ofSpecs_detour _ mem_language_detour with ⟨d, hd⟩ | ⟨-, w, hw, hcycle, -⟩
  · rw [outcome_detour] at hd
    cases hd
  · obtain ⟨r, hturns, -⟩ := hcycle
    exact ⟨w, hw, r, hturns⟩

end Grammar

end IrafCl
