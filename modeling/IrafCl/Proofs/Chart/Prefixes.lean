import IrafCl.Proofs.Grammar.Beginnings

/-!
# Where tokens are refused

The parser refuses tokens at the earliest place: as long as what was read is the beginning of a sentence, some item
waits for the next token, and where every nonterminal derives a word, no item waits in vain.

An item is in a chart for a reason: its symbol may stand where the item began (`Reachable`). So what stands behind
its dot, and behind its symbol, completes what was read to a sentence. On the other hand, a chart does not know what
comes behind the symbol ahead, so up to there it is also that of any sentence which begins with the same tokens
(`Lawful.congr`), and in the chart of a sentence some item waits (`Lawful.exists_waiting`).
-/

namespace IrafCl

variable {κ : Type} [DecidableEq κ] {g : Grammar κ}

/-! ## Beginnings of sentences -/

namespace Grammar

variable {u v w α β : List κ} {ts ts' : List (Token κ)}

/-- A word begins a sentence. -/
def BeginsSentence (g : Grammar κ) (w : List κ) : Prop := ∃ v, w ++ v ∈ g.contextFree.language

/-- A word is refused at the first position up to which it begins no sentence, or at the last if there is none. -/
structure RefusedAt (g : Grammar κ) (w : List κ) (k : Nat) : Prop where
  before : ∀ j < k, g.BeginsSentence (w.take (j + 1))
  here : ¬ g.BeginsSentence (w.take (k + 1)) ∨ (k + 1 = w.length ∧ g.BeginsSentence w)

/-- Every nonterminal derives a word. -/
def Productive (g : Grammar κ) : Prop := ∀ s, g.isNonterminal s = true → ∃ w, g.DerivesWord [s] w

/-- The symbols may stand behind a word: the start symbol derives both together. -/
def Stands (g : Grammar κ) (u α : List κ) : Prop :=
  g.contextFree.Derives [.nonterminal (g.rule g.first).lhs] (u.map .terminal ++ α.map g.symbol)

theorem stands_start (g : Grammar κ) : g.Stands [] [(g.rule g.first).lhs] := by
  rw [Stands, List.map_singleton, symbol_lhs]
  exact Relation.ReflTransGen.refl

theorem Stands.rule {r : g.Index} (h : g.Stands u ((g.rule r).lhs :: β)) : g.Stands u ((g.rule r).rhs ++ β) := by
  have hrule := ((derives_rule r).append_right (β.map g.symbol)).append_left (u.map .terminal)
  rw [Stands, List.map_cons, symbol_lhs] at h
  rw [Stands, List.map_append]
  exact h.trans hrule

/-- Symbols that derive a word make room for it. -/
theorem Stands.shift (h : g.Stands u (α ++ β)) (hα : g.DerivesWord α v) : g.Stands (u ++ v) β := by
  have hword := (hα.append_right (β.map g.symbol)).append_left (u.map .terminal)
  rw [Stands, List.map_append] at h
  rw [Stands, List.map_append, List.append_assoc]
  exact h.trans hword

theorem Productive.exists_word (hg : g.Productive) (α : List κ) : ∃ w, g.DerivesWord α w := by
  induction α with
  | nil => exact ⟨[], Relation.ReflTransGen.refl⟩
  | cons s α ih =>
    obtain ⟨w, hw⟩ := ih
    cases hs : g.isNonterminal s with
    | true =>
      obtain ⟨v, hv⟩ := hg s hs
      exact ⟨v ++ w, hv.append hw⟩
    | false => exact ⟨[s] ++ w, (DerivesWord.terminal hs).append hw⟩

theorem Stands.beginsSentence (h : g.Stands u β) (hg : g.Productive) : g.BeginsSentence u := by
  obtain ⟨v, hv⟩ := hg.exists_word β
  rw [← List.append_nil β] at h
  have hsentence := h.shift hv
  rw [Stands, List.map_nil, List.append_nil] at hsentence
  exact ⟨v, hsentence⟩

end Grammar

/-! ## Items stand for a reason -/

/-- The symbol of an item may stand where the item began. -/
def Item.Reachable (ts : List (Token κ)) (it : Item g) : Prop :=
  ∃ β, g.Stands ((ts.map (·.kind)).take it.origin) (it.lhs :: β)

theorem Item.Reachable.stands {ts : List (Token κ)} {it : Item g} {i : Nat} (h : it.Reachable ts) (hs : it.Sits ts i) :
    ∃ β, g.Stands ((ts.map (·.kind)).take i) (it.rest ++ β) := by
  obtain ⟨β, hβ⟩ := h
  refine ⟨β, ?_⟩
  have hrhs : (g.rule it.rule).rhs ++ β = (g.rule it.rule).rhs.take it.dot ++ (it.rest ++ β) := by
    rw [← List.append_assoc, Item.rest, List.take_append_drop]
  have hrule := Grammar.Stands.rule hβ
  rw [hrhs] at hrule
  have hshift := hrule.shift hs.spans.derivesWord
  rwa [← Grammar.between_zero, Grammar.between_append (Nat.zero_le _) hs.spans.le, Grammar.between_zero] at hshift

namespace Closing

variable {earlier : Array (StateSet g)} {i : Nat} {c c' : Closing g} {ts : List (Token κ)} {kernel : List (Item g)}

/-- An item that is brought in has the symbol that another one waits for, and an advanced one began where it did. -/
theorem reachable_move
    (hearlier : ∀ (k : Nat) (set : StateSet g), earlier[k]? = some set → ∀ it ∈ set.items, it.Reachable ts)
    (hs : Sound ts earlier i kernel c) (hitems : ∀ it ∈ c.items, it.Reachable ts) (hm : Move earlier i c c') :
    ∀ it ∈ c'.items, it.Reachable ts := by
  intro x hx
  cases hm with
  | predict r h =>
    rcases mem_items_insert.mp hx with hx | rfl
    · exact hitems x hx
    · obtain ⟨it, hdone, hnext⟩ := h
      have hit := mem_items_of_mem_done hdone
      obtain ⟨β, hβ⟩ := (hitems it hit).stands (hs.sits it hit)
      rw [Item.rest_of_next? hnext] at hβ
      exact ⟨_, hβ⟩
  | advance parent child _ _ _ hparent =>
    rcases mem_items_insert.mp hx with hx | rfl
    · exact hitems x hx
    · unfold itemsAt at hparent
      split at hparent
      · next set hset => exact hearlier _ set hset parent hparent
      · exact hitems parent hparent

end Closing

namespace Chart

variable [Alphabet κ] {ts ts' : List (Token κ)} {table : Lookaheads κ} {sets : Array (StateSet g)}
  {kernel : List (Item g)}

/-- All items of a chart are in it for a reason. -/
def AllReachable (ts : List (Token κ)) (sets : Array (StateSet g)) : Prop := ∀ k it, At sets k it → it.Reachable ts

theorem AllReachable.push (h : AllReachable ts sets) (hl : Lawful ts table sets) (hk : Kernel ts sets kernel)
    (hkernel : ∀ it ∈ kernel, it.Reachable ts) (ahead : κ) :
    AllReachable ts (sets.push (stateSet table sets sets.size ahead kernel)) := by
  have hearlier : ∀ k set, sets[k]? = some set → ∀ it ∈ set.items, Item.Sits ts k it :=
    fun k set hset it hit => hl.sits k it ⟨set, hset, hit⟩
  have hstart : Closing.Running ts table sets sets.size ahead kernel ⟨[], kernel, []⟩ := running_kernel hk
  have hitems : ∀ it ∈ (stateSet table sets sets.size ahead kernel).items, it.Reachable ts := by
    refine Closing.close_keeps (P := fun c => ∀ it ∈ c.items, it.Reachable ts) rfl hearlier ?_ ?_
      (itemBound g sets.size) ⟨[], kernel, []⟩ hstart.sound hkernel
    · intro c it todo htodo hitems
      rw [Closing.items_take htodo]
      exact hitems
    · intro c c' hs hitems hm
      exact Closing.reachable_move (fun k set hset it hit => h k it ⟨set, hset, hit⟩) hs hitems hm
  intro k it hat
  rcases at_push.mp hat with hat | ⟨-, hit⟩
  · exact h k it hat
  · exact hitems it hit

/-! ## Charts of a beginning -/

/-- The laws of a chart are about the tokens up to the symbol ahead of its last set. -/
theorem Lawful.congr (hl : Lawful ts table sets) (hsame : ∀ k, k < sets.size → ts[k]? = ts'[k]?) :
    Lawful ts' table sets := by
  have hscan : ∀ {k p t}, Scanned ts sets k p t ↔ Scanned ts' sets k p t := by
    intro k p t
    constructor
    · exact fun h => ⟨h.waits, (hsame k h.waits.lt) ▸ h.token, h.next, h.terminal⟩
    · exact fun h => ⟨h.waits, (hsame k h.waits.lt).symm ▸ h.token, h.next, h.terminal⟩
  refine ⟨hl.nodup, ?_, hl.start, ?_, hl.completed, ?_, hl.linked, ?_⟩
  · intro k it hat
    obtain ⟨hdot, hspan⟩ := hl.sits k it hat
    exact ⟨hdot, hspan.congr fun j hj => hsame j (Nat.lt_trans hj hat.lt)⟩
  · intro k it s hat hnext hs r hr
    refine hl.predicted k it s hat hnext hs r ?_
    rwa [aheadAt, hsame k hat.lt]
  · exact fun k p t h => hl.scanned k p t (hscan.mpr h)
  · intro k it hat
    rcases hl.reached k it hat with h0 | hlink | ⟨j, p, t, hj, hs, hadv⟩
    · exact .inl h0
    · exact .inr (.inl hlink)
    · exact .inr (.inr ⟨j, p, t, hj, hscan.mp hs, hadv⟩)

/-- While the tokens up to the symbol ahead begin a sentence, some item waits for it: the chart is that of the sentence
as well. -/
theorem Lawful.exists_scanned (hg : g.Rooted) (hl : Lawful ts g.lookaheads sets) {i : Nat} (hsize : sets.size = i + 1)
    (hi : i < ts.length) (hbegins : g.BeginsSentence ((ts.map (·.kind)).take (i + 1))) :
    ∃ p t, Scanned ts sets i p t := by
  obtain ⟨v, hv⟩ := hbegins
  generalize hsentence : ts.take (i + 1) ++ v.map (fun s => ⟨s, [], none, 0⟩) = ts'
  have hkinds : ts'.map (·.kind) = (ts.map (·.kind)).take (i + 1) ++ v := by
    rw [← hsentence, List.map_append, List.map_take, List.map_map]
    simp [Function.comp_def]
  have hlength : i < ts'.length := by
    rw [← hsentence, List.length_append, List.length_take]
    omega
  have hsame : ∀ k, k < sets.size → ts[k]? = ts'[k]? := by
    intro k hk
    have hshort : k < (ts.take (i + 1)).length := by
      rw [List.length_take]
      omega
    rw [← hsentence, List.getElem?_append_left hshort, List.getElem?_take_of_lt (by omega)]
  have hspan : g.Covers ts' := by
    rw [Grammar.covers_iff hg, hkinds]
    exact hv
  have hl' := hl.congr hsame
  have hahead : ∀ k < sets.size, aheadAt ts' k ∈ g.terminals := by
    intro k hk
    have hk' : k < ts'.length := by omega
    have ht := List.getElem?_eq_getElem hk'
    rw [aheadAt, ht, Option.map_some, Option.getD_some]
    exact Grammar.mem_terminals_of_spans hspan (fun s hs hn => Grammar.mem_terminals.mpr ⟨hn, g.first, hs⟩) k
      (Nat.zero_le k) hk' _ ht
  obtain ⟨p, t, hs⟩ := hl'.exists_waiting hahead hspan (β := []) (hl'.start (by omega)) (by simp [Item.rest])
    (Nat.zero_le i) hlength (by omega)
  refine ⟨p, t, hs.waits, ?_, hs.next, hs.terminal⟩
  rw [hsame i (by omega)]
  exact hs.token

omit [Alphabet κ] in
/-- Where every nonterminal derives a word, what an item stands behind begins a sentence. -/
theorem beginsSentence_of_sits (hg : g.Productive) {it : Item g} {k : Nat} (hit : it.Reachable ts) (hs : it.Sits ts k) :
    g.BeginsSentence ((ts.map (·.kind)).take k) := by
  obtain ⟨β, hβ⟩ := hit.stands hs
  exact hβ.beginsSentence hg

/-! ## The token that is refused -/

/-- A run that fails does so at the token that is refused. -/
theorem Run.refusedAt (hg : g.Rooted) (hproductive : g.Productive) (hne : ts ≠ []) {last : Option (Token κ)}
    {rest : List (Token κ)} {answer : Except Failure (Chart g)} (h : Run ts g.lookaheads sets kernel last rest answer) :
    AllReachable ts sets → (∀ it ∈ kernel, it.Reachable ts) →
    (∀ j < sets.size, g.BeginsSentence ((ts.map (·.kind)).take (j + 1))) →
    ∀ f, answer = .error f → ∃ k t, ts[k]? = some t ∧ f = syntaxFailure t ∧ g.RefusedAt (ts.map (·.kind)) k := by
  induction h with
  | accepted =>
    intro _ _ _ f hf
    cases hf
  | @ended sets kernel last hstage _ =>
    intro _ _ hbegins f hf
    cases hf
    obtain ⟨k, hk⟩ := Nat.exists_eq_succ_of_ne_zero (Nat.ne_of_gt (List.length_pos_iff.mpr hne))
    have hsize := hstage.size_eq
    have hget : ts[k]? = some last := by
      rw [hstage.last_eq, List.getLast?_eq_getElem?, hk]
      rfl
    have hall := hbegins k (by omega)
    rw [List.take_of_length_le (by simp [hk])] at hall
    exact ⟨k, last, hget, rfl, fun j hj => hbegins j (by omega), .inr ⟨by simp [hk], hall⟩⟩
  | @refused sets kernel last t rest hstage hnone =>
    intro _ _ hbegins f hf
    cases hf
    have hlt : sets.size < ts.length := (List.getElem?_eq_some_iff.mp hstage.token).1
    refine ⟨sets.size, t, hstage.token, rfl, hbegins, .inl fun hsentence => ?_⟩
    obtain ⟨p, t', hs⟩ := hstage.push.exists_scanned hg (by simp) hlt hsentence
    have hmem := hstage.next.kernel.scanned _ p t' (by simp) hs
    rw [hnone] at hmem
    cases hmem
  | @next sets kernel last t rest answer hstage hsome _ ih =>
    intro hall hkernel hbegins
    have hpush := hall.push hstage.lawful hstage.kernel hkernel (aheadAt (t :: rest) 0)
    have hreach : ∀ it ∈ scanned (nextSet g.lookaheads sets kernel (t :: rest)) t.kind, it.Reachable ts := by
      intro it hit
      obtain ⟨-, p, hp, -, rfl⟩ := mem_scanned.mp hit
      exact hpush _ p (at_push.mpr (.inr ⟨rfl, hp⟩))
    refine ih hpush hreach fun j hj => ?_
    rw [Array.size_push] at hj
    rcases Nat.lt_succ_iff_lt_or_eq.mp hj with hj | rfl
    · exact hbegins j hj
    · -- an item waited for the token, and it stands for a reason
      obtain ⟨it, hit⟩ := List.exists_mem_of_ne_nil _ hsome
      have hhere := beginsSentence_of_sits hproductive (hreach it hit) (hstage.next.kernel.sits it hit)
      rwa [Array.size_push] at hhere

end Chart

namespace Grammar

/-- Where every nonterminal derives a word, tokens that are no sentence are refused at the first one up to which they
begin none, or at the last one if all of them do. -/
theorem parse_refusedAt {start : String} {specs : List RuleSpec} {g : Grammar String}
    (hg : ofSpecs start specs = .ok g) (hproductive : g.Productive)
    (resolver : Resolver String) (tokens : List (Token String))
    (hlanguage : (Chart.withEnd tokens).map (·.kind) ∉ g.contextFree.language) :
    ∃ k t, (Chart.withEnd tokens)[k]? = some t ∧
      (g.parse resolver tokens).outcome = .error (.failure (Chart.syntaxFailure t)) ∧
      g.RefusedAt ((Chart.withEnd tokens).map (·.kind)) k := by
  have hrooted := rooted_ofSpecs hg
  cases hrec : Chart.recognise g g.lookaheads (Chart.withEnd tokens) with
  | mk steps outcome =>
    cases outcome with
    | ok chart => exact absurd ((covers_iff hrooted _).mp (covers_of_recognise (congrArg (·.2) hrec))) hlanguage
    | error f =>
      have hstart : ∀ it ∈ [(⟨g.first, 0, 0⟩ : Item g)], it.Reachable (Chart.withEnd tokens) := by
        intro it hit
        rw [List.mem_singleton.mp hit]
        exact ⟨[], stands_start g⟩
      obtain ⟨k, t, ht, rfl, hrefused⟩ := (Chart.run_recognise g.lookaheads (Chart.withEnd tokens)).refusedAt hrooted
        hproductive (Chart.withEnd_ne_nil tokens) (fun k it hat => absurd hat.lt (by simp)) hstart (by simp) f
        (congrArg (·.2) hrec)
      exact ⟨k, t, ht, outcome_of_refused hrec resolver, hrefused⟩

/-- Each `a` is closed by a `b`, with a `c` in the middle. -/
def brackets : Grammar String := ofRules "s" [⟨"s", ["a", "s", "b"], "s", true⟩, ⟨"s", ["c"], "s", true⟩]

theorem productive_brackets : brackets.Productive := by
  have hs : brackets.DerivesWord ["s"] ["c"] := .of_rule (r := ⟨2, by decide⟩) (.terminal (by cbv))
  intro s hnt
  obtain ⟨⟨n, hn⟩, rfl⟩ := isNonterminal_iff.mp hnt
  have hlt : n < 3 := hn
  interval_cases n
  · exact ⟨["c", "EOF"], .of_rule (hs.append (.terminal (by cbv)))⟩
  · exact ⟨["c"], hs⟩
  · exact ⟨["c"], hs⟩

/-- A `b` before the `c` is refused. -/
theorem parse_refusedAt_brackets :
    ∃ k t, (Chart.withEnd [⟨"a", [], none, 1⟩, ⟨"b", [], none, 1⟩])[k]? = some t ∧
      (brackets.parse .longestRule [⟨"a", [], none, 1⟩, ⟨"b", [], none, 1⟩]).outcome =
        .error (.failure (Chart.syntaxFailure t)) ∧ brackets.RefusedAt ["a", "b", "EOF"] k := by
  have hg : ofSpecs "s" [⟨"s ::= a s b\ns ::= c", "s", true⟩] = .ok brackets := by cbv
  refine parse_refusedAt hg productive_brackets .longestRule _ fun hlanguage => ?_
  have hends := Chart.recognise_spec (g := brackets) (Chart.closed_withEnd [⟨"a", [], none, 1⟩, ⟨"b", [], none, 1⟩])
  have hrec : (Chart.recognise brackets brackets.lookaheads
      (Chart.withEnd [⟨"a", [], none, 1⟩, ⟨"b", [], none, 1⟩])).2 = .error (Chart.syntaxFailure ⟨"b", [], none, 1⟩) := by
    cbv
  rw [hrec] at hends
  exact hends.2 ((covers_iff (rooted_ofSpecs hg) _).mpr hlanguage)

end Grammar

end IrafCl
