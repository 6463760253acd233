import IrafCl.Derivation
import IrafCl.Proofs.Chart.Recognition

/-!
# Reading a chart backwards

What is read off a chart is a derivation (`Derivation.Valid`) of the tokens it stands over: links and
scanned tokens lead from every advanced item to the one before it, so a walk from right to left never
loses its way and ends where the item began (`walk_spec`). The items that are being derived nest, and
differ, so there are never more of them than the chart has (`derive_accepting`).

Nothing but the resolver and cycles can stop the reading (`Stops`). Nested items over the same tokens
come from rules whose other symbols vanish, so in a grammar without cycles of such rules no item is met
inside itself.
-/

namespace IrafCl

variable {κ : Type} {g : Grammar κ}

/-! ## Derivations -/

namespace Derivation

/-- The symbol that a derivation derives. -/
def symbol : Derivation g → κ
  | .token t => t.kind
  | .node r _ => (g.rule r).lhs

mutual

/-- The tokens of a derivation, from left to right. -/
def yield : Derivation g → List (Token κ)
  | .token t => [t]
  | .node _ ds => yieldAll ds

def yieldAll : List (Derivation g) → List (Token κ)
  | [] => []
  | d :: ds => d.yield ++ yieldAll ds

end

theorem yieldAll_append (ds es : List (Derivation g)) :
    yieldAll (ds ++ es) = yieldAll ds ++ yieldAll es := by
  induction ds with
  | nil => rfl
  | cons d ds ih => simp only [List.cons_append, yieldAll, ih, List.append_assoc]

/-- A derivation in which tokens are terminals, and the symbols under a rule are its right-hand side. -/
inductive Valid [DecidableEq κ] : Derivation g → Prop where
  | token (t : Token κ) (hn : g.isNonterminal t.kind = false) : Valid (.token t)
  | node (r : g.Index) (ds : List (Derivation g)) (hrhs : ds.map symbol = (g.rule r).rhs)
      (hds : ∀ d ∈ ds, Valid d) : Valid (.node r ds)

end Derivation

/-- A rule derives one of its symbols alone when all others vanish. -/
def Grammar.UnitStep [DecidableEq κ] (g : Grammar κ) (a b : κ) : Prop :=
  ∃ r α β, (g.rule r).lhs = a ∧ (g.rule r).rhs = α ++ b :: β ∧ (∀ x ∈ α, x ∈ g.nullable) ∧
    ∀ x ∈ β, x ∈ g.nullable

/-- No symbol derives itself alone. -/
def Grammar.Acyclic [DecidableEq κ] (g : Grammar κ) : Prop :=
  ∀ a, ¬ Relation.TransGen g.UnitStep a a

/-- A resolver that always answers with one of the candidates. -/
def Resolver.Decisive (resolver : Resolver κ) : Prop :=
  ∀ cs, cs ≠ [] → ∃ n : Nat, resolver cs = .ok n ∧ n < cs.length

namespace Chart

/-! ## Steps of reading -/

/-- Whatever choices were made before, a step answers as told or stops as told. -/
def Reads {α : Type} (stops : Halt → Prop) (x : Reading κ α) (answers : α → Prop) : Prop :=
  ∀ choices, match (x.run choices).1 with
    | .ok a => answers a
    | .error h => stops h

section
variable {α β : Type} {stops : Halt → Prop} {x : Reading κ α} {answers : α → Prop}

theorem reads_pure {a : α} (h : answers a) : Reads stops (pure a : Reading κ α) answers := fun _ => h

theorem reads_throw {halt : Halt} (h : stops halt) : Reads stops (throw halt : Reading κ α) answers :=
  fun _ => h

theorem run_bind (x : Reading κ α) (f : α → Reading κ β) (choices : List (Choice κ)) :
    (x >>= f).run choices = match x.run choices with
      | (.ok a, choices') => (f a).run choices'
      | (.error h, choices') => (.error h, choices') := by
  change ExceptT.bindCont f (x.run choices).1 (x.run choices).2 = _
  cases x.run choices with
  | mk outcome choices' => cases outcome <;> rfl

theorem reads_bind {f : α → Reading κ β} {answers' : β → Prop} (hx : Reads stops x answers)
    (hf : ∀ a, answers a → Reads stops (f a) answers') : Reads stops (x >>= f) answers' := by
  intro choices
  have h := hx choices
  rw [run_bind]
  cases hrun : x.run choices with
  | mk outcome choices' =>
    rw [hrun] at h
    cases outcome with
    | error halt => exact h
    | ok a => exact hf a h choices'

theorem reads_modify {f : List (Choice κ) → List (Choice κ)} :
    Reads stops (modify f : Reading κ Unit) (fun _ => True) := fun _ => trivial

theorem Reads.mono {stops' : Halt → Prop} {answers' : α → Prop} (h : Reads stops x answers)
    (hs : ∀ halt, stops halt → stops' halt) (ha : ∀ a, answers a → answers' a) : Reads stops' x answers' := by
  intro choices
  have h := h choices
  cases hrun : x.run choices with
  | mk outcome choices' =>
    rw [hrun] at h
    cases outcome with
    | error halt => exact hs halt h
    | ok a => exact ha a h

end

/-! ## Choosing a link -/

variable [DecidableEq κ]

theorem mem_linksOf {chart : Chart g} {it child : Item g} {state : Nat} :
    child ∈ chart.linksOf it state ↔ LinkAt chart.sets state it child := by
  unfold linksOf LinkAt
  cases chart.sets[state]? with
  | none => simp
  | some set =>
    simp only [List.mem_map, List.mem_filter, decide_eq_true_eq, Option.some.injEq, exists_eq_left']
    constructor
    · rintro ⟨⟨a, b⟩, ⟨hmem, rfl⟩, rfl⟩
      exact hmem
    · intro hmem
      exact ⟨(it, child), ⟨hmem, rfl⟩, rfl⟩

variable [Alphabet κ]

/-- A reading stops only at an ambiguity, and not if there is always something to follow and the
resolver is decisive. -/
def Stops (resolver : Resolver κ) (followed : Prop) (halt : Halt) : Prop :=
  (∃ (cs : List (Candidate κ)) (cause : Bytes), halt = ambiguity cs cause) ∧ ¬ (followed ∧ resolver.Decisive)

/-- A link is chosen: it is none that is being derived, and where others could be followed too, the
resolver takes it. -/
structure Chosen (resolver : Resolver κ) (active : List (Item g × Nat)) (state : Nat) (links : List (Item g))
    (it : Item g) : Prop where
  mem : it ∈ links
  free : (it, state) ∉ active
  answer : ∀ usable, usable = links.filter (fun it => !active.contains (it, state)) → 1 < usable.length →
    ∃ n : Nat, resolver (usable.map (candidate state)) = .ok n ∧ usable[n]? = some it

/-- Why no link is chosen: all lead to items that are being derived already, or the resolver takes none. -/
def Refuses (resolver : Resolver κ) (active : List (Item g × Nat)) (state : Nat) (links : List (Item g))
    (halt : Halt) : Prop :=
  ((∀ it ∈ links, (it, state) ∈ active) ∧ halt = ambiguity (links.map (candidate state)) "cyclic derivation") ∨
    (¬ resolver.Decisive ∧ ∃ (cs : List (Candidate κ)) (cause : Bytes), halt = ambiguity cs cause)

/-- One of the links is chosen, unless all are being derived or the resolver takes none. -/
theorem choose_spec {resolver : Resolver κ} {active : List (Item g × Nat)} {state : Nat}
    {links : List (Item g)} (hne : links ≠ []) :
    Reads (Refuses resolver active state links) (choose resolver active state links)
      (Chosen resolver active state links) := by
  have husable : ∀ it, it ∈ links.filter (fun it => !active.contains (it, state)) ↔
      it ∈ links ∧ (it, state) ∉ active := by simp
  unfold choose
  dsimp only
  generalize hdef : links.filter (fun it => !active.contains (it, state)) = usable at husable
  split
  · exact absurd rfl hne
  · refine reads_throw (.inl ⟨fun it hit => ?_, rfl⟩)
    by_contra hfree
    have := (husable it).mpr ⟨hit, hfree⟩
    cases this
  · next it _ =>
    obtain ⟨hmem, hfree⟩ := (husable it).mp (by simp)
    refine reads_pure ⟨hmem, hfree, fun usable' h hlen => ?_⟩
    rw [h, hdef] at hlen
    exact absurd hlen (by simp)
  · next hsome _ =>
    refine reads_bind reads_modify fun _ _ => ?_
    have hcs : usable.map (candidate state) ≠ [] := by
      intro h
      exact hsome (List.map_eq_nil_iff.mp h)
    split
    · next cause hcause =>
      refine reads_throw (.inr ⟨fun hd => ?_, _, _, rfl⟩)
      obtain ⟨n, hn, _⟩ := hd _ hcs
      rw [hn] at hcause
      cases hcause
    · next n hn =>
      split
      · next it hit =>
        split at hit
        · cases hit
        · next hneg =>
          obtain ⟨hmem, hfree⟩ := (husable it).mp (List.mem_of_getElem? hit)
          refine reads_pure ⟨hmem, hfree, fun usable' h _ => ⟨n.toNat, ?_, by rw [h, hdef]; exact hit⟩⟩
          rw [h, hdef, hn, Int.toNat_of_nonneg (by omega)]
      · next hnone =>
        refine reads_throw (.inr ⟨fun hd => ?_, _, _, rfl⟩)
        obtain ⟨m, hm, hlt⟩ := hd _ hcs
        rw [hm] at hn
        cases hn
        rw [List.length_map] at hlt
        rw [if_neg (by omega), Int.toNat_natCast, List.getElem?_eq_getElem hlt] at hnone
        cases hnone

/-! ## Items inside items -/

omit [Alphabet κ] in
theorem unitStep_of_spans {ts : List (Token κ)} {p : Item g} {s : κ} {i j : Nat} (hnext : p.next? = some s)
    (hbefore : g.Spans ts ((g.rule p.rule).rhs.take p.dot) i i) (hafter : g.Spans ts p.advance.rest j j) :
    g.UnitStep p.lhs s := by
  refine ⟨p.rule, _, _, rfl, ?_, Grammar.mem_nullable_of_spans hbefore rfl,
    Grammar.mem_nullable_of_spans hafter rfl⟩
  rw [Item.next?_eq] at hnext
  obtain ⟨hlt, hs⟩ := List.getElem?_eq_some_iff.mp hnext
  rw [Item.rest, Item.advance, ← hs, ← List.drop_eq_getElem_cons hlt, List.take_append_drop]

/-- An item lies inside those that are being derived; one over the same tokens derives it alone. -/
def Nested (active : List (Item g × Nat)) (it : Item g) (state : Nat) : Prop :=
  ∀ outer ∈ active, outer.1.origin ≤ it.origin ∧ state ≤ outer.2 ∧
    (outer.1.origin = it.origin → outer.2 = state → Relation.TransGen g.UnitStep outer.1.lhs it.lhs)

section
omit [Alphabet κ]
variable {ts : List (Token κ)} {active : List (Item g × Nat)} {it top p child : Item g} {state stop : Nat}

theorem Nested.not_mem (h : Nested active it state) (hg : g.Acyclic) : (it, state) ∉ active := by
  intro hmem
  exact hg _ ((h _ hmem).2.2 rfl rfl)

/-- What an item inside the innermost one was advanced over lies inside all of them. -/
theorem Nested.inner (h : Nested active top stop) (hrule : p.rule = top.rule) (horigin : p.origin = top.origin)
    (hp : p.Sits ts child.origin) (hnext : p.next? = some child.lhs) (hchild : child.Sits ts state)
    (hrest : g.Spans ts p.advance.rest state stop) : Nested ((top, stop) :: active) child state := by
  have hle := hp.spans.le
  have hend := hrest.le
  rw [horigin] at hle
  have hunit : top.origin = child.origin → stop = state → g.UnitStep top.lhs child.lhs := by
    rintro ho rfl
    have hbefore := hp.spans
    rw [horigin, ho] at hbefore
    have := unitStep_of_spans hnext hbefore hrest
    rwa [Item.lhs, hrule] at this
  intro outer hmem
  rcases List.mem_cons.mp hmem with rfl | hmem
  · exact ⟨hle, hend, fun ho hs => .single (hunit ho hs)⟩
  · obtain ⟨hole, hoend, hsame⟩ := h outer hmem
    refine ⟨by omega, by omega, fun ho hs => ?_⟩
    exact (hsame (by omega) (by omega)).tail (hunit (by omega) (by omega))

end

/-! ## Paths -/

/-- What a walk over the rule of an item that is being derived has come to: an item of that rule, with the
symbols after its dot read already. -/
structure Passing (ts : List (Token κ)) (chart : Chart g) (top : Item g) (stop : Nat) (it : Item g)
    (state : Nat) : Prop where
  at_set : At chart.sets state it
  rule : it.rule = top.rule
  origin : it.origin = top.origin
  rest : g.Spans ts it.rest state stop

/-- The items that are being derived, the innermost first: each was chosen on a walk over the next one. -/
inductive Path (ts : List (Token κ)) (chart : Chart g) (resolver : Resolver κ) : List (Item g × Nat) → Prop where
  | start {it : Item g} {state : Nat} (hat : At chart.sets state it) : Path ts chart resolver [(it, state)]
  | follow {active : List (Item g × Nat)} {top it child : Item g} {stop state : Nat}
      (hpath : Path ts chart resolver ((top, stop) :: active)) (hpassing : Passing ts chart top stop it state)
      (hchosen : Chosen resolver ((top, stop) :: active) state (chart.linksOf it state) child) :
      Path ts chart resolver ((child, state) :: (top, stop) :: active)

/-- A completed item is followed: it is chosen among the links of an item, which all lie inside what is
being derived. -/
structure Followed (chart : Chart g) (resolver : Resolver κ) (active : List (Item g × Nat)) (it child : Item g)
    (state : Nat) : Prop where
  at_set : At chart.sets state it
  nested : ∀ c ∈ chart.linksOf it state, Nested active c state
  chosen : Chosen resolver active state (chart.linksOf it state) child

/-- A reading is stuck where no link is chosen on a walk. -/
structure StuckAt (ts : List (Token κ)) (chart : Chart g) (resolver : Resolver κ) (active : List (Item g × Nat))
    (top : Item g) (stop : Nat) (it : Item g) (state : Nat) (halt : Halt) : Prop where
  path : Path ts chart resolver ((top, stop) :: active)
  passing : Passing ts chart top stop it state
  links : chart.linksOf it state ≠ []
  refuses : Refuses resolver ((top, stop) :: active) state (chart.linksOf it state) halt

/-- A reading stops only where it is stuck. -/
def Stuck (ts : List (Token κ)) (chart : Chart g) (resolver : Resolver κ) (halt : Halt) : Prop :=
  ∃ active top stop it state, StuckAt ts chart resolver active top stop it state halt

section
variable {ts : List (Token κ)} {chart : Chart g} {resolver : Resolver κ} {active : List (Item g × Nat)}
  {it top child : Item g} {state stop : Nat}

/-- The links of an item that a walk has come to are completed items inside those that are being derived. -/
theorem Passing.linked (hl : Lawful ts g.lookaheads chart.sets) (h : Passing ts chart top stop it state)
    (hnested : Nested active top stop) (hmem : child ∈ chart.linksOf it state) :
    At chart.sets state child ∧ child.isComplete = true ∧ Nested ((top, stop) :: active) child state := by
  obtain ⟨hc, hcomplete, p, hp, hnext, rfl⟩ := hl.linked state it child (mem_linksOf.mp hmem)
  exact ⟨hc, hcomplete, hnested.inner (p := p) h.rule h.origin (hl.sits _ p hp) hnext (hl.sits _ child hc) h.rest⟩

theorem Path.nested (hl : Lawful ts g.lookaheads chart.sets) {path : List (Item g × Nat)}
    (h : Path ts chart resolver path) : ∀ {it state active}, path = (it, state) :: active → Nested active it state := by
  induction h with
  | start hat =>
    intro it state active heq
    cases heq
    simp [Nested]
  | follow _ hpassing hchosen ih =>
    intro it state active heq
    cases heq
    exact (hpassing.linked hl (ih rfl) hchosen.mem).2.2

theorem Path.at_set (hl : Lawful ts g.lookaheads chart.sets) {path : List (Item g × Nat)}
    (h : Path ts chart resolver path) : ∀ p ∈ path, At chart.sets p.2 p.1 := by
  induction h with
  | start hat =>
    intro p hp
    rw [List.mem_singleton.mp hp]
    exact hat
  | follow hpath hpassing hchosen ih =>
    intro p hp
    rcases List.mem_cons.mp hp with rfl | hp
    · exact (hpassing.linked hl (hpath.nested hl rfl) hchosen.mem).1
    · exact ih p hp

omit [Alphabet κ] in
theorem Path.nodup {path : List (Item g × Nat)} (h : Path ts chart resolver path) : path.Nodup := by
  induction h with
  | start _ => exact List.nodup_singleton _
  | follow _ _ hchosen ih => exact List.nodup_cons.mpr ⟨hchosen.free, ih⟩

theorem Path.followed (hl : Lawful ts g.lookaheads chart.sets) (h : Path ts chart resolver ((top, stop) :: active))
    (hpassing : Passing ts chart top stop it state)
    (hchosen : Chosen resolver ((top, stop) :: active) state (chart.linksOf it state) child) :
    Followed chart resolver ((top, stop) :: active) it child state :=
  ⟨hpassing.at_set, fun _ hc => (hpassing.linked hl (h.nested hl rfl) hc).2.2, hchosen⟩

/-- In a grammar without cycles a decisive resolver never gets stuck. -/
theorem Stuck.stops (hl : Lawful ts g.lookaheads chart.sets) {halt : Halt} (h : Stuck ts chart resolver halt) :
    Stops resolver g.Acyclic halt := by
  obtain ⟨active, top, stop, it, state, h⟩ := h
  rcases h.refuses with ⟨hall, rfl⟩ | ⟨hd, hhalt⟩
  · refine ⟨⟨_, _, rfl⟩, fun ⟨hg, _⟩ => ?_⟩
    obtain ⟨child, hmem⟩ := List.exists_mem_of_ne_nil _ h.links
    exact (h.passing.linked hl (h.path.nested hl rfl) hmem).2.2.not_mem hg (hall child hmem)
  · exact ⟨hhalt, fun hf => hd hf.2⟩

end

/-! ## Walking over a rule -/

/-- A derivation of a symbol over the tokens between two positions. -/
structure Derives (ts : List (Token κ)) (d : Derivation g) (s : κ) (i j : Nat) : Prop where
  valid : d.Valid
  symbol : d.symbol = s
  yield : d.yield = Grammar.between ts i j

/-- Derivations, one for each of some symbols, that together are over the tokens between two positions. -/
structure DerivesAll (ts : List (Token κ)) (ds : List (Derivation g)) (α : List κ) (i j : Nat) : Prop where
  valid : ∀ d ∈ ds, d.Valid
  symbols : ds.map Derivation.symbol = α
  yield : Derivation.yieldAll ds = Grammar.between ts i j

omit [Alphabet κ] in
theorem DerivesAll.concat {ts : List (Token κ)} {ds : List (Derivation g)} {d : Derivation g} {α : List κ}
    {s : κ} {i k j : Nat} (h : DerivesAll ts ds α i k) (hd : Derives ts d s k j) (hik : i ≤ k) (hkj : k ≤ j) :
    DerivesAll ts (ds ++ [d]) (α ++ [s]) i j := by
  refine ⟨?_, ?_, ?_⟩
  · intro e he
    rcases List.mem_append.mp he with he | he
    · exact h.valid e he
    · rw [List.mem_singleton.mp he]; exact hd.valid
  · rw [List.map_append, h.symbols, List.map_singleton, hd.symbol]
  · rw [Derivation.yieldAll_append, h.yield, ← Grammar.between_append hik hkj]
    simp only [Derivation.yieldAll, hd.yield, List.append_nil]

section
variable {ts : List (Token κ)} {chart : Chart g} {resolver : Resolver κ} {active : List (Item g × Nat)}
  {it top : Item g} {state stop : Nat}

/-- What a walk back from an item gives: where the item began, and derivations of the symbols before its dot in front of
those that were found before. -/
structure Walked (ts : List (Token κ)) (kept : Derivation g → Prop) (it : Item g) (state : Nat) (tail : List (Derivation g))
    (answer : Nat × List (Derivation g)) : Prop where
  start : answer.1 = it.origin
  derived : ∃ front, answer.2 = front ++ tail ∧ (∀ d ∈ front, kept d) ∧
    DerivesAll ts front ((g.rule it.rule).rhs.take it.dot) it.origin state

omit [Alphabet κ] in
/-- A walk from an item whose next symbol is derived is one from the item after that symbol. -/
theorem Walked.advance {kept : Derivation g → Prop} {p : Item g} {s : κ} {k : Nat} {d : Derivation g}
    {tail : List (Derivation g)} {answer : Nat × List (Derivation g)} (h : Walked ts kept p k (d :: tail) answer)
    (hnext : p.next? = some s) (hd : Derives ts d s k state) (hkept : kept d) (hk : p.origin ≤ k) (hstate : k ≤ state) :
    Walked ts kept p.advance state tail answer := by
  obtain ⟨front, hds, hall, hfront⟩ := h.derived
  refine ⟨h.start, front ++ [d], by simpa using hds, ?_, ?_⟩
  · exact List.forall_mem_append.mpr ⟨hall, List.forall_mem_singleton.mpr hkept⟩
  · have htake : (g.rule p.advance.rule).rhs.take p.advance.dot = _ := Item.take_succ_of_next? hnext
    rw [htake]
    exact hfront.concat hd hk hstate

/-- From an item in the chart the symbols before the dot are derived, back to where it began. What holds of
tokens and of the derivations of the items that are followed holds of all derivations that are found. -/
theorem walk_spec {kept : Derivation g → Prop} (htoken : ∀ t, kept (.token t))
    (hl : Lawful ts g.lookaheads chart.sets) (hpath : Path ts chart resolver ((top, stop) :: active))
    {derive : Item g → Nat → Reading κ (Derivation g)}
    (hderive : ∀ it child state, Passing ts chart top stop it state →
      Chosen resolver ((top, stop) :: active) state (chart.linksOf it state) child →
      Reads (Stuck ts chart resolver) (derive child state)
        (fun d => Derives ts d child.lhs child.origin state ∧ kept d)) :
    ∀ (before : List κ) (it : Item g) (state : Nat) (tail : List (Derivation g)),
      before = ((g.rule it.rule).rhs.take it.dot).reverse → Passing ts chart top stop it state →
      Reads (Stuck ts chart resolver)
        (walk chart ts.toArray resolver ((top, stop) :: active) derive before it state tail)
        (Walked ts kept it state tail) := by
  intro before
  induction before with
  | nil =>
    intro it state tail hbefore hpassing
    have htake : (g.rule it.rule).rhs.take it.dot = [] := List.reverse_eq_nil_iff.mp hbefore.symm
    have hspan := (hl.sits state it hpassing.at_set).spans
    rw [htake] at hspan
    have hstart : state = it.origin := by cases hspan; rfl
    refine reads_pure ⟨hstart, [], rfl, nofun, ?_⟩
    rw [htake, ← hstart]
    exact ⟨nofun, rfl, by simp [Derivation.yieldAll, Grammar.between_self]⟩
  | cons s before ih =>
    intro it state tail hbefore hpassing
    have hdot : it.dot ≠ 0 := by intro h; simp [h] at hbefore
    unfold walk
    dsimp only
    split
    · next hs =>
      -- the item was advanced over a completed one: a token is no nonterminal
      have hlinks : chart.linksOf it state ≠ [] := by
        rcases hl.reached state it hpassing.at_set with h0 | ⟨child, hlink⟩ | ⟨j, p, t, rfl, hscan, hadv⟩
        · exact absurd h0 hdot
        · exact List.ne_nil_of_mem (mem_linksOf.mpr hlink)
        · obtain ⟨hkind, _⟩ := Item.next?_of_reverse hadv hbefore hscan.next
          have := hscan.terminal
          rw [hkind, hs] at this
          cases this
      refine reads_bind ((choose_spec hlinks).mono (fun halt h => ⟨_, _, _, _, _, hpath, hpassing, hlinks, h⟩)
        fun _ h => h) fun child hchosen => ?_
      refine reads_bind (hderive it child state hpassing hchosen) fun d ⟨hd, hkept⟩ => ?_
      obtain ⟨hc, hcomplete, p, hp, hnext, hadv⟩ := hl.linked state it child (mem_linksOf.mp hchosen.mem)
      have hback := Item.eq_back_of_advance hadv
      have hspan : g.Spans ts (g.rule child.rule).rhs child.origin state := by
        have := (hl.sits state child hc).spans
        rwa [List.take_of_length_le (Item.isComplete_iff.mp hcomplete)] at this
      obtain ⟨hlhs, hbefore'⟩ := Item.next?_of_reverse hadv hbefore hnext
      rw [← hback]
      subst hadv
      have hrest : g.Spans ts p.rest child.origin stop := by
        rw [Item.rest_of_next? hnext]
        exact .nonterminal child.rule hspan hpassing.rest
      exact (ih p child.origin (d :: tail) hbefore' ⟨hp, hpassing.rule, hpassing.origin, hrest⟩).mono (fun _ h => h)
        fun _ hwalked => hwalked.advance hnext hd hkept (hl.sits _ p hp).spans.le hspan.le
    · next hs =>
      -- the item was carried over a token: a completed item is of a nonterminal
      rcases hl.reached state it hpassing.at_set with h0 | ⟨child, hlink⟩ | ⟨j, p, t, rfl, hscan, hadv⟩
      · exact absurd h0 hdot
      · obtain ⟨_, _, p, _, hnext, hadv⟩ := hl.linked state it child hlink
        obtain ⟨hlhs, _⟩ := Item.next?_of_reverse hadv hbefore hnext
        exact absurd (hlhs ▸ Grammar.isNonterminal_lhs child.rule) hs
      · have hget : ts.toArray[j]? = some t := by simpa using hscan.token
        dsimp only
        rw [hget]
        have hback := Item.eq_back_of_advance hadv
        obtain ⟨hkind, hbefore'⟩ := Item.next?_of_reverse hadv hbefore hscan.next
        rw [← hback]
        subst hadv
        have hrest : g.Spans ts p.rest j stop := by
          rw [Item.rest_of_next? hscan.next]
          exact .terminal hscan.token hscan.terminal hpassing.rest
        have hd : Derives (g := g) ts (.token t) t.kind j (j + 1) :=
          ⟨.token t hscan.terminal, rfl, (Grammar.between_succ hscan.token).symm⟩
        exact (ih p j (.token t :: tail) hbefore' ⟨hscan.waits, hpassing.rule, hpassing.origin, hrest⟩).mono (fun _ h => h)
          fun _ hwalked => hwalked.advance hscan.next hd (htoken t) (hl.sits _ p hscan.waits).spans.le (Nat.le_succ j)

/-! ## Deriving an item -/

/-- The items of some sets, each with its position. -/
def places : List (StateSet g) → Nat → List (Item g × Nat)
  | [], _ => []
  | set :: sets, k => set.items.map (·, k) ++ places sets (k + 1)

omit [DecidableEq κ] [Alphabet κ] in
theorem mem_places {sets : List (StateSet g)} {set : StateSet g} {it : Item g} {k j : Nat}
    (hset : sets[k]? = some set) (hit : it ∈ set.items) : (it, j + k) ∈ places sets j := by
  induction sets generalizing k j with
  | nil => simp at hset
  | cons s sets ih =>
    rw [places, List.mem_append]
    cases k with
    | zero =>
      rw [List.getElem?_cons_zero, Option.some.injEq] at hset
      subst hset
      exact .inl (List.mem_map.mpr ⟨it, hit, rfl⟩)
    | succ k =>
      rw [List.getElem?_cons_succ] at hset
      have := ih (j := j + 1) hset
      rw [Nat.add_assoc, Nat.add_comm 1 k] at this
      exact .inr this

omit [DecidableEq κ] [Alphabet κ] in
theorem length_places (sets : List (StateSet g)) (k : Nat) :
    (places sets k).length = sets.foldr (fun s n => s.items.length + n) 0 := by
  induction sets generalizing k with
  | nil => rfl
  | cons s sets ih => rw [places, List.length_append, List.length_map, ih, List.foldr_cons]

omit [DecidableEq κ] [Alphabet κ] in
/-- There are no more different items being derived than the chart has. -/
theorem length_active_le (hnodup : active.Nodup) (hat : ∀ p ∈ active, At chart.sets p.2 p.1) :
    active.length ≤ chart.size := by
  have hsub : active ⊆ places chart.sets.toList 0 := by
    rintro ⟨it, k⟩ hmem
    obtain ⟨set, hset, hit⟩ := hat _ hmem
    rw [← Array.getElem?_toList] at hset
    have := mem_places (j := 0) hset hit
    rwa [Nat.zero_add] at this
  rw [size, ← length_places chart.sets.toList 0]
  exact (hnodup.subperm hsub).length_le

/-- A completed item of a chart is derived over its tokens. What holds of tokens, and of the derivation of
an item that is followed if it holds of those below it, holds of all derivations under the rule. -/
theorem derive_keeps (kept : Derivation g → Prop) (resolver : Resolver κ) (hl : Lawful ts g.lookaheads chart.sets)
    (htoken : ∀ t, kept (.token t))
    (hnode : ∀ active it child state ds, Followed chart resolver active it child state →
      Derives ts (.node child.rule ds) child.lhs child.origin state → (∀ d ∈ ds, kept d) →
        kept (.node child.rule ds)) :
    ∀ (fuel : Nat) (active : List (Item g × Nat)) (it : Item g) (state : Nat),
      Path ts chart resolver ((it, state) :: active) → it.isComplete = true → chart.size < active.length + fuel →
      Reads (Stuck ts chart resolver) (derive chart ts.toArray resolver fuel active it state)
        (fun d => ∃ ds, d = .node it.rule ds ∧ Derives ts d it.lhs it.origin state ∧ ∀ e ∈ ds, kept e) := by
  intro fuel
  induction fuel with
  | zero =>
    intro active it state hpath _ hsize
    have hlen := length_active_le hpath.nodup (hpath.at_set hl)
    rw [List.length_cons] at hlen
    omega
  | succ fuel ih =>
    intro active it state hpath hcomplete hsize
    have htake : (g.rule it.rule).rhs.take it.dot = (g.rule it.rule).rhs :=
      List.take_of_length_le (Item.isComplete_iff.mp hcomplete)
    have hrest : it.rest = [] := List.isEmpty_iff.mp hcomplete
    have hpassing : Passing ts chart it state it state :=
      ⟨hpath.at_set hl (it, state) (by simp), rfl, rfl, by rw [hrest]; exact .nil state⟩
    unfold derive
    refine reads_bind (walk_spec htoken hl hpath (fun parent child state' hp hchosen => ?_) _ it state []
      (by rw [htake]) hpassing) ?_
    · obtain ⟨-, hcc, -⟩ := hp.linked hl (hpath.nested hl rfl) hchosen.mem
      refine (ih _ child state' (.follow hpath hp hchosen) hcc (by rw [List.length_cons]; omega)).mono
        (fun _ h => h) ?_
      rintro d ⟨ds, rfl, hd, hkept⟩
      exact ⟨hd, hnode _ parent child state' ds (hpath.followed hl hp hchosen) hd hkept⟩
    · rintro ⟨start, ds⟩ ⟨hstart, front, hds, hkept, hfront⟩
      change ds = front ++ [] at hds
      rw [List.append_nil] at hds
      subst hds
      rw [htake] at hfront
      dsimp only
      rw [if_pos hstart]
      exact reads_pure ⟨ds, rfl, ⟨.node it.rule ds hfront.symbols hfront.valid, rfl, hfront.yield⟩, hkept⟩

/-- The accepting item of a chart is derived over all tokens, unless the reading gets stuck. -/
theorem derive_accepting (kept : Derivation g → Prop) (resolver : Resolver κ) (hl : Lawful ts g.lookaheads chart.sets)
    (htoken : ∀ t, kept (.token t))
    (hnode : ∀ active it child state ds, Followed chart resolver active it child state →
      Derives ts (.node child.rule ds) child.lhs child.origin state → (∀ d ∈ ds, kept d) →
        kept (.node child.rule ds)) (hat : At chart.sets ts.length (accepting g)) :
    Reads (Stuck ts chart resolver)
      (derive chart ts.toArray resolver (chart.size + 1) [] (accepting g) ts.length)
      (fun d => ∃ ds, d = .node g.first ds ∧ Derives ts d (g.rule g.first).lhs 0 ts.length ∧ ∀ e ∈ ds, kept e) :=
  derive_keeps kept resolver hl htoken hnode (chart.size + 1) [] (accepting g) ts.length (.start hat)
    (Item.isComplete_iff.mpr (Nat.le_refl _)) (by simp)

end

end Chart

end IrafCl
