-- SUMMARY: Following a substitution whose links lead down: the search ends, at a signal that is read as itself (`target`), and a link between two such signals keeps the links leading down (`Descends.link`).
import NandHdl.Netlist.Optimizer
import NandHdl.Proofs.Checked
import Mathlib.Data.Finset.Card
import Mathlib.Data.Finset.Range
import Mathlib.Logic.Relation

/-!
# Following a substitution

A link of a substitution leads from a signal to the one that is read instead. If every link leads
to a signal of lower rank, no chain comes back to where it was, so a chain has fewer links than
there are signals. The search is therefore never cut short.

Such ranks need not be given beforehand. A new link leads from the end of some chains to the end of
others, and if the signals of the former chains are lifted above the latter, all links lead down
again.
-/

namespace NandHdl.Optimizer

namespace Substitution

/-- The signal is read as itself. -/
def Plain (subst : Substitution) (s : SignalId) : Prop := subst[s]? = some s

/-- Links lead to signals, and each to one of lower rank. -/
structure Descends (subst : Substitution) (rank : SignalId → Nat) : Prop where
  lt : ∀ {s t : SignalId}, subst[s]? = some t → t < subst.size
  rank_lt : ∀ {s t : SignalId}, subst[s]? = some t → t ≠ s → rank t < rank s

/-- The signal that `s` is read as. -/
def target (subst : Substitution) (s : SignalId) : SignalId := (resolve subst s).toOption.getD s

/-- The signals of lower rank than `s`. -/
def lower (rank : SignalId → Nat) (signals : Nat) (s : SignalId) : Finset SignalId :=
  (Finset.range signals).filter fun t => rank t < rank s

variable {subst : Substitution} {rank : SignalId → Nat} {s : SignalId}

theorem lower_card_lt {signals : Nat} {t : SignalId} (ht : t < signals) (h : rank t < rank s) :
    (lower rank signals t).card < (lower rank signals s).card := by
  apply Finset.card_lt_card
  constructor
  · intro u hu
    simp only [lower, Finset.mem_filter] at hu ⊢
    exact ⟨hu.1, hu.2.trans h⟩
  · intro hsub
    have ht' : t ∈ lower rank signals s := by simp [lower, ht, h]
    simpa [lower] using hsub ht'

/-- With a step for every signal of lower rank the search gets to the end. -/
theorem follow_ok (h : subst.Descends rank) {P : SignalId → Prop}
    (hlink : ∀ {a b : SignalId}, P a → subst[a]? = some b → P b) (steps : Nat)
    (hs : s < subst.size) (hP : P s)
    (hsteps : (lower rank subst.size s).card ≤ steps) :
    ∃ t, follow subst steps s = .ok t ∧ t < subst.size ∧ subst.Plain t ∧ P t := by
  induction steps generalizing s with
  | zero =>
    refine ⟨s, rfl, hs, ?_, hP⟩
    have hnext := Array.getElem?_eq_getElem hs
    rw [Plain, hnext]
    by_contra hne
    have hrank := h.rank_lt hnext fun heq => hne (congrArg some heq)
    have := lower_card_lt (h.lt hnext) hrank
    omega
  | succ steps ih =>
    have hnext := Array.getElem?_eq_getElem hs
    rw [follow, Checked.get_eq_ok.2 hnext, Except.ok_bind]
    by_cases heq : subst[s] = s
    · exact ⟨s, by rw [if_pos heq]; rfl, hs, by rw [Plain, hnext, heq], hP⟩
    · rw [if_neg heq]
      have := lower_card_lt (h.lt hnext) (h.rank_lt hnext heq)
      exact ih (h.lt hnext) (hlink hP hnext) (by omega)

theorem lower_card_le (signals : Nat) : (lower rank signals s).card ≤ signals := by
  exact (Finset.card_filter_le _ _).trans_eq (Finset.card_range signals)

theorem resolve_ok (h : subst.Descends rank) (hs : s < subst.size) {P : SignalId → Prop} (hP : P s)
    (hlink : ∀ {a b : SignalId}, P a → subst[a]? = some b → P b) :
    ∃ t, resolve subst s = .ok t ∧ t < subst.size ∧ subst.Plain t ∧ P t :=
  follow_ok h hlink _ hs hP (lower_card_le _)

theorem resolve_eq (h : subst.Descends rank) (hs : s < subst.size) :
    resolve subst s = .ok (subst.target s) := by
  obtain ⟨t, ht, -⟩ := resolve_ok (P := fun _ => True) h hs trivial fun _ _ => trivial
  rw [target, ht]
  rfl

/-- What holds of a signal and is passed on by links holds of the signal that it is read as. -/
theorem target_of_link (h : subst.Descends rank) (hs : s < subst.size) {P : SignalId → Prop}
    (hP : P s) (hlink : ∀ {a b : SignalId}, P a → subst[a]? = some b → P b) : P (subst.target s) := by
  obtain ⟨t, ht, -, -, hPt⟩ := resolve_ok h hs hP hlink
  rw [resolve_eq h hs] at ht
  cases ht
  exact hPt

theorem target_lt (h : subst.Descends rank) (hs : s < subst.size) : subst.target s < subst.size :=
  target_of_link h hs hs fun _ hb => h.lt hb

theorem target_plain (h : subst.Descends rank) (hs : s < subst.size) :
    subst.Plain (subst.target s) := by
  obtain ⟨t, ht, -, hplain, -⟩ := resolve_ok (P := fun _ => True) h hs trivial fun _ _ => trivial
  rw [resolve_eq h hs] at ht
  cases ht
  exact hplain

theorem rank_target_le (h : subst.Descends rank) (hs : s < subst.size) :
    rank (subst.target s) ≤ rank s := by
  refine target_of_link (P := fun t => rank t ≤ rank s) h hs (Nat.le_refl _) fun {a b} ha hb => ?_
  by_cases heq : b = a
  · exact heq ▸ ha
  · exact Nat.le_trans (Nat.le_of_lt (h.rank_lt hb heq)) ha

/-- Values that agree along every link agree between a signal and what it is read as. -/
theorem value_target (h : subst.Descends rank) (hs : s < subst.size) {v : SignalId → Bool}
    (hv : ∀ {a b : SignalId}, subst[a]? = some b → v b = v a) : v (subst.target s) = v s :=
  target_of_link (P := fun t => v t = v s) h hs rfl fun ha hb => (hv hb).trans ha

/-! ## Chains -/

/-- A link leads from `s` to `t`. -/
def Links (subst : Substitution) (s t : SignalId) : Prop := subst[s]? = some t ∧ t ≠ s

/-- Links lead to signals, and no chain of them comes back to where it was. -/
structure Forest (subst : Substitution) : Prop where
  lt : ∀ {s t : SignalId}, subst[s]? = some t → t < subst.size
  acyclic : ∀ s, ¬Relation.TransGen subst.Links s s

variable {r t : SignalId}

theorem Descends.forest (h : subst.Descends rank) : subst.Forest := by
  have hfalls : ∀ {s t}, Relation.TransGen subst.Links s t → rank t < rank s := by
    intro s t hchain
    induction hchain with
    | single hlink => exact h.rank_lt hlink.1 hlink.2
    | tail _ hlink ih => exact (h.rank_lt hlink.1 hlink.2).trans ih
  exact ⟨h.lt, fun s hchain => Nat.lt_irrefl _ (hfalls hchain)⟩

theorem Plain.eq_of_chain (hs : subst.Plain s) (hchain : Relation.ReflTransGen subst.Links s t) :
    t = s := by
  rcases hchain.cases_head with heq | ⟨next, ⟨hnext, hne⟩, -⟩
  · exact heq.symm
  · exact absurd (Option.some.inj (hnext.symm.trans hs)) hne

theorem chain_next (hchain : Relation.ReflTransGen subst.Links s r) (hr : subst[r]? = some t) :
    Relation.ReflTransGen subst.Links s t := by
  by_cases heq : t = r
  · exact heq ▸ hchain
  · exact hchain.tail ⟨hr, heq⟩

theorem chain_target (h : subst.Descends rank) (hs : s < subst.size) :
    Relation.ReflTransGen subst.Links s (subst.target s) :=
  target_of_link (P := Relation.ReflTransGen subst.Links s) h hs .refl chain_next

/-- A chain that cannot go on has come to where the search ends. -/
theorem eq_target (h : subst.Descends rank) (hs : s < subst.size)
    (hchain : Relation.ReflTransGen subst.Links s r) (hr : subst.Plain r) :
    r = subst.target s := by
  have hunique : Relator.RightUnique subst.Links := fun _ _ _ hb hc =>
    Option.some.inj (hb.1.symm.trans hc.1)
  rcases hchain.total_of_right_unique hunique (chain_target h hs) with hto | hfrom
  · exact (hr.eq_of_chain hto).symm
  · exact (target_plain h hs).eq_of_chain hfrom

theorem target_link (h : subst.Descends rank) (hlink : subst.Links s t) :
    subst.target t = subst.target s := by
  have ht := h.lt hlink.1
  exact eq_target h (Array.getElem?_eq_some_iff.1 hlink.1).1 ((chain_target h ht).head hlink)
    (target_plain h ht)

/-- The bound on the number of steps makes no difference. -/
theorem follow_eq (h : subst.Descends rank) (hs : s < subst.size) {steps : Nat}
    (hsteps : subst.size ≤ steps) : follow subst steps s = .ok (subst.target s) := by
  obtain ⟨r, hr, -, hplain, hchain⟩ := follow_ok (P := Relation.ReflTransGen subst.Links s) h
    chain_next steps hs .refl ((lower_card_le _).trans hsteps)
  rw [hr, eq_target h hs hchain hplain]

/-- The links from `s` lead to `r` and no further, and the search gets there however many steps
beyond the bound it may take. -/
structure EndsAt (subst : Substitution) (s r : SignalId) : Prop where
  plain : subst.Plain r
  chain : Relation.ReflTransGen subst.Links s r
  resolve_eq : resolve subst s = .ok r
  follow_eq : ∀ {steps}, subst.size ≤ steps → follow subst steps s = .ok r

theorem Descends.endsAt (h : subst.Descends rank) (hs : s < subst.size) :
    subst.EndsAt s (subst.target s) where
  plain := target_plain h hs
  chain := chain_target h hs
  resolve_eq := Substitution.resolve_eq h hs
  follow_eq := Substitution.follow_eq h hs

/-- A link from one end of chains to another lets the links lead down again, for other ranks. -/
theorem Descends.link (h : subst.Descends rank) (hs : subst.Plain s) (ht : subst.Plain t)
    (hne : t ≠ s) : ∃ rank', Descends (subst.modify s fun _ => t) rank' := by
  have hslt := (Array.getElem?_eq_some_iff.1 hs).1
  have htlt := (Array.getElem?_eq_some_iff.1 ht).1
  have hget := Checked.getElem?_modify_const hslt t
  refine ⟨fun a => if subst.target a = s then rank a + rank t + 1 else rank a, ?_, ?_⟩
  · intro a b hab
    rw [Array.size_modify]
    rw [hget] at hab
    split at hab
    · cases hab
      exact htlt
    · exact h.lt hab
  · intro a b hab hba
    rw [hget] at hab
    split at hab
    · next heq =>
      -- the new link: `s` has been lifted above `t`, and `t` stays where it was
      cases hab
      have htarget : subst.target t = t := (eq_target h htlt .refl ht).symm
      have hstarget : subst.target s = s := (eq_target h hslt .refl hs).symm
      rw [heq, htarget, hstarget, if_neg hne, if_pos rfl]
      omega
    · -- another link: its ends are both lifted, or neither is
      have hrank := h.rank_lt hab hba
      rw [target_link h ⟨hab, hba⟩]
      split
      · omega
      · exact hrank

end Substitution

end NandHdl.Optimizer
