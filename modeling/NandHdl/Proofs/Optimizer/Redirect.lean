-- SUMMARY: What a pass decides for gate outputs (`State.Decides`) keeps the state linked, and sound if it was (`Sound.redirects`), and after rewiring everything that is read is read as itself.
import NandHdl.Proofs.Optimizer.Sound

/-!
# Redirecting readers

A gate output is redirected to a constant or to the signal that is inverted twice. Either has the
same value, lies lower, and is still computed.

While a pass goes through the gates, links are added and none is changed. A chain from a signal
that was read as itself before the pass is therefore made of links of this pass only, and these
lead to signals that are computed. Links of earlier passes may lead to signals whose gates are
gone, but no reader is left to follow them.
-/

namespace NandHdl.Optimizer

namespace State

variable {n : Netlist} {rank : SignalId → Nat} {st : State}

/-! ## One decision -/

/-- The rules let the readers of the gate `g` read `t`: a constant decides the gate, or it inverts
what another gate inverts. -/
structure Decides (st : State) (n : Netlist) (g : Wiring) (t : SignalId) : Prop where
  ne : t ≠ g.out
  plain : st.subst.Plain g.out
  rule : folded (n.signalId? zeroName) (n.signalId? oneName)
      (st.subst.target g.in1) (st.subst.target g.in2) = some t ∨
    st.subst.target g.in1 = st.subst.target g.in2 ∧ ∃ inner ∈ st.gates,
      inner.out = st.subst.target g.in1 ∧
        t = st.subst.target inner.in1 ∧ t = st.subst.target inner.in2

/-- The output of the gate `g` can be read as `t`. -/
structure Redirects (st : State) (n : Netlist) (g : Wiring) (t : SignalId) : Prop where
  ne : t ≠ g.out
  plain : st.subst.Plain g.out
  source : n.IsConstant t ∨ ∃ inner ∈ st.gates,
    inner.out = st.subst.target g.in1 ∧ t = st.subst.target inner.in1
  value : ∀ {v}, n.Consistent v → v t = v g.out

/-- The state with one link more. -/
def withLink (st : State) (s t : SignalId) : State :=
  { st with subst := st.subst.modify s fun _ => t }

theorem getElem?_withLink {s t : SignalId} (hs : s < st.subst.size) (a : SignalId) :
    (st.withLink s t).subst[a]? = if a = s then some t else st.subst[a]? :=
  Checked.getElem?_modify_const hs t a

theorem Linked.resolve_eq (h : st.Linked n) {s : SignalId} (hs : s < n.signals.size) :
    resolve st.subst s = .ok (st.subst.target s) :=
  have ⟨_, hdescends⟩ := h.descends
  Substitution.resolve_eq hdescends (h.subst_size ▸ hs)

theorem Linked.target_lt (h : st.Linked n) {s : SignalId} (hs : s < n.signals.size) :
    st.subst.target s < n.signals.size :=
  have ⟨_, hdescends⟩ := h.descends
  h.subst_size ▸ Substitution.target_lt hdescends (h.subst_size ▸ hs)

theorem Linked.target_plain (h : st.Linked n) {s : SignalId} (hs : s < n.signals.size) :
    st.subst.Plain (st.subst.target s) :=
  have ⟨_, hdescends⟩ := h.descends
  Substitution.target_plain hdescends (h.subst_size ▸ hs)

theorem Sound.target_lt (h : st.Sound n rank) {s : SignalId} (hs : s < n.signals.size) :
    st.subst.target s < n.signals.size :=
  h.linked.target_lt hs

theorem Sound.value_target (h : st.Sound n rank) {s : SignalId} (hs : s < n.signals.size)
    {v : Valuation} (hv : n.Consistent v) : v (st.subst.target s) = v s :=
  Substitution.value_target h.descends (h.subst_size ▸ hs) (h.link_value hv)

theorem Sound.rank_target_le (h : st.Sound n rank) {s : SignalId} (hs : s < n.signals.size) :
    rank (st.subst.target s) ≤ rank s :=
  Substitution.rank_target_le h.descends (h.subst_size ▸ hs)

/-- A gate that a constant decides has the value of a constant. -/
theorem folded_spec {a b t : SignalId}
    (h : folded (n.signalId? zeroName) (n.signalId? oneName) a b = some t) :
    n.IsConstant t ∧ ∀ {v}, n.Consistent v → v t = !(v a && v b) := by
  unfold folded at h
  split at h
  · next c0 c1 hzero hone =>
    split at h
    · next hab =>
      cases h
      refine ⟨.inr hone, fun {v} hv => ?_⟩
      rw [hv.one hone]
      rcases hab with rfl | rfl
      · simp [hv.zero hzero]
      · simp [hv.zero hzero]
    · split at h
      · next hab =>
        cases h
        refine ⟨.inl hzero, fun {v} hv => ?_⟩
        rw [hab.1, hab.2, hv.zero hzero, hv.one hone]
        rfl
      · cases h
  · cases h

theorem Linked.bypassed_ok (h : st.Linked n) {a : SignalId} (ha : a < n.signals.size) :
    ∃ result, bypassed st a = .ok result ∧ ∀ t, result = some t → ∃ inner ∈ st.gates,
      inner.out = a ∧ t = st.subst.target inner.in1 ∧ t = st.subst.target inner.in2 := by
  have hindex : a < st.driver.size := h.driver.size_eq ▸ ha
  have hget := Array.getElem?_eq_getElem hindex
  rw [bypassed, Checked.get_eq_ok.2 hget, Except.ok_bind]
  cases hdriver : st.driver[a] with
  | none => exact ⟨none, rfl, nofun⟩
  | some i =>
    rw [hdriver] at hget
    obtain ⟨inner, hinner, hout⟩ := (h.driver.get_eq a i).1 hget
    have hmem := Array.mem_of_getElem? hinner
    have hlt := h.gate_lt inner hmem
    simp only [Checked.get_eq_ok.2 hinner, Except.ok_bind, h.resolve_eq hlt.1, h.resolve_eq hlt.2.1]
    refine ⟨_, rfl, fun t ht => ⟨inner, hmem, hout, ?_⟩⟩
    split at ht
    · next heq =>
      cases ht
      exact ⟨rfl, heq⟩
    · cases ht

/-- A replacement comes from one of the two rules. -/
theorem Linked.replacement_ok (h : st.Linked n) (zero one : Option SignalId) {a b : SignalId}
    (ha : a < n.signals.size) :
    ∃ result, replacement zero one st a b = .ok result ∧ ∀ t, result = some t →
      folded zero one a b = some t ∨ a = b ∧ ∃ inner ∈ st.gates, inner.out = a ∧
        t = st.subst.target inner.in1 ∧ t = st.subst.target inner.in2 := by
  by_cases hab : a = b
  · obtain ⟨bypass, hbypass, hspec⟩ := h.bypassed_ok ha
    refine ⟨_, by rw [replacement, if_pos hab, hbypass]; rfl, fun t ht => ?_⟩
    rcases Option.or_eq_some_iff.1 ht with ht | ⟨-, ht⟩
    · exact .inl ht
    · exact .inr ⟨hab, hspec t ht⟩
  · refine ⟨_, by rw [replacement, if_neg hab]; rfl, fun t ht => ?_⟩
    rw [Option.or_none] at ht
    exact .inl ht

/-- For every gate there is a decision: its output stays, or the rules let its readers read another
signal. -/
theorem Linked.substituteGate_ok (h : st.Linked n) {g : Wiring} (hg : g ∈ st.gates) :
    substituteGate (n.signalId? zeroName) (n.signalId? oneName) st g = .ok (st, false) ∨
      ∃ t, st.Decides n g t ∧
        substituteGate (n.signalId? zeroName) (n.signalId? oneName) st g =
          .ok (st.withLink g.out t, true) := by
  obtain ⟨hlt1, hlt2, hlt⟩ := h.gate_lt g hg
  have hout : g.out < st.subst.size := h.subst_size ▸ hlt
  have hget := Array.getElem?_eq_getElem hout
  obtain ⟨result, hresult, hspec⟩ := h.replacement_ok (n.signalId? zeroName)
    (n.signalId? oneName) (b := st.subst.target g.in2) (h.target_lt hlt1)
  rw [substituteGate, h.resolve_eq hlt1, Except.ok_bind, h.resolve_eq hlt2, Except.ok_bind,
    Checked.get_eq_ok.2 hget, Except.ok_bind]
  by_cases hplain : st.subst[g.out] = g.out
  · rw [if_neg (not_not.2 hplain), hresult, Except.ok_bind]
    cases result with
    | none => exact .inl rfl
    | some t =>
      by_cases hne : t = g.out
      · exact .inl (by simp only [if_pos hne]; rfl)
      · refine .inr ⟨t, ⟨hne, ?_, hspec t rfl⟩, by
          simp only [if_neg hne, Checked.set_ok hout]; rfl⟩
        rw [Substitution.Plain, hget, hplain]
  · exact .inl (by rw [if_pos hplain]; rfl)

/-- What the rules let readers read has the same value. -/
theorem Sound.redirects (h : st.Sound n rank) {g : Wiring} (hg : g ∈ st.gates) {t : SignalId}
    (ht : st.Decides n g t) : st.Redirects n g t := by
  obtain ⟨hlt1, hlt2, -⟩ := h.gate_lt g hg
  have hout : ∀ {v}, n.Consistent v →
      v g.out = !(v (st.subst.target g.in1) && v (st.subst.target g.in2)) := by
    intro v hv
    rw [h.value_target hlt1 hv, h.value_target hlt2 hv, h.gate_value hv g hg]
  rcases ht.rule with hfolded | ⟨hsame, inner, hmem, hinner, ht1, ht2⟩
  · obtain ⟨hconstant, hvalue⟩ := folded_spec hfolded
    exact ⟨ht.ne, ht.plain, .inl hconstant, fun hv => (hvalue hv).trans (hout hv).symm⟩
  · refine ⟨ht.ne, ht.plain, .inr ⟨inner, hmem, hinner, ht1⟩, fun {v} hv => ?_⟩
    -- The inner gate inverts `t`, and the outer one inverts the inner one.
    have hlt := h.gate_lt inner hmem
    have hvalue : v (st.subst.target g.in1) = !v t := by
      rw [← hinner, h.gate_value hv inner hmem, ← h.value_target hlt.1 hv,
        ← h.value_target hlt.2.1 hv, ← ht1, ← ht2, Bool.and_self]
    rw [hout hv, ← hsame, Bool.and_self, hvalue, Bool.not_not]

/-- For every gate there is a decision: its output stays, or it is redirected. -/
theorem Sound.substituteGate_ok (h : st.Sound n rank) {g : Wiring} (hg : g ∈ st.gates) :
    substituteGate (n.signalId? zeroName) (n.signalId? oneName) st g = .ok (st, false) ∨
      ∃ t, st.Redirects n g t ∧
        substituteGate (n.signalId? zeroName) (n.signalId? oneName) st g =
          .ok (st.withLink g.out t, true) :=
  (h.linked.substituteGate_ok hg).imp_right fun ⟨t, ht, hok⟩ => ⟨t, h.redirects hg ht, hok⟩

/-- What the rules let readers read is read as itself. -/
theorem Linked.plain_of_decides (h : st.Linked n) (hw : n.Wellformed)
    (hc : ∀ c, n.IsConstant c → ¬n.IsGateOutput c) {g : Wiring} {t : SignalId}
    (ht : st.Decides n g t) : st.subst.Plain t := by
  rcases ht.rule with hfolded | ⟨-, inner, hmem, -, rfl, -⟩
  · have hconstant := (folded_spec hfolded).1
    exact h.plain_of_source (hw.constant_lt hconstant) (hc t hconstant)
  · exact h.target_plain (h.gate_lt inner hmem).1

/-- A link from a gate output to another signal, both of them read as themselves until now. -/
theorem Linked.withLink (h : st.Linked n) {g : Wiring} (hg : g ∈ st.gates) {t : SignalId}
    (hne : t ≠ g.out) (hout : st.subst.Plain g.out) (ht : st.subst.Plain t) :
    (st.withLink g.out t).Linked n where
  subst_size := by simp [State.withLink, h.subst_size]
  descends :=
    have ⟨_, hdescends⟩ := h.descends
    hdescends.link hout ht hne
  link_from {a b} hab hba := by
    rw [getElem?_withLink (Array.getElem?_eq_some_iff.1 hout).1] at hab
    split at hab
    · next heq => exact heq ▸ h.isGateOutput hg
    · exact h.link_from hab hba
  gate_lt := h.gate_lt
  flop_lt := h.flop_lt
  outs := h.outs
  driver := h.driver

/-- A link to what a gate output can be read as keeps the state sound. -/
theorem Sound.withLink (h : st.Sound n rank) (hr : n.Ranked rank) (hw : n.Wellformed) {g : Wiring}
    (hg : g ∈ st.gates) {t : SignalId} (ht : st.Redirects n g t) :
    (st.withLink g.out t).Sound n rank := by
  obtain ⟨hlt1, -, hlt⟩ := h.gate_lt g hg
  obtain ⟨hrank1, -⟩ := h.gate_rank g hg
  have hget := getElem?_withLink (t := t) (h.subst_size ▸ hlt : g.out < st.subst.size)
  have htarget : st.subst.Plain t ∧ rank t < rank g.out := by
    rcases ht.source with hc | ⟨inner, hmem, hinner, rfl⟩
    · refine ⟨h.plain_of_source (hw.constant_lt hc) (hr.constant hc), ?_⟩
      rw [hr.source (hr.constant hc)]
      omega
    · have hinnerlt := h.gate_lt inner hmem
      have hinnerrank := (h.gate_rank inner hmem).1
      have hbelow := h.rank_target_le hinnerlt.1
      have hbelow' := h.rank_target_le hlt1
      rw [hinner] at hinnerrank
      exact ⟨h.linked.target_plain hinnerlt.1, by omega⟩
  have hlinked := h.linked.withLink hg ht.ne ht.plain htarget.1
  obtain ⟨_, hdescends⟩ := hlinked.descends
  exact {
    subst_size := hlinked.subst_size
    descends := by
      refine ⟨hdescends.lt, ?_⟩
      intro a b hab hne
      rw [hget] at hab
      split at hab
      · next heq =>
        cases hab
        exact heq ▸ htarget.2
      · exact h.descends.rank_lt hab hne
    link_from := hlinked.link_from
    link_value := by
      intro v hv a b hab
      rw [hget] at hab
      split at hab
      · next heq =>
        cases hab
        rw [heq]
        exact ht.value hv
      · exact h.link_value hv hab
    gate_lt := h.gate_lt
    gate_rank := h.gate_rank
    gate_value := h.gate_value
    outs := h.outs
    driver := h.driver
    dffs := h.dffs }

/-! ## All decisions of a pass -/

/-- A decision keeps the state linked, and the gates as they are. -/
theorem Linked.substituteGate_linked (h : st.Linked n) (hw : n.Wellformed)
    (hc : ∀ c, n.IsConstant c → ¬n.IsGateOutput c) {g : Wiring} (hg : g ∈ st.gates) :
    ∃ next changed, substituteGate (n.signalId? zeroName) (n.signalId? oneName) st g =
      .ok (next, changed) ∧ next.Linked n ∧ next.gates = st.gates := by
  rcases h.substituteGate_ok hg with hstay | ⟨t, ht, hlink⟩
  · exact ⟨st, false, hstay, h, rfl⟩
  · exact ⟨_, true, hlink, h.withLink hg ht.ne ht.plain (h.plain_of_decides hw hc ht), rfl⟩

theorem Linked.substituteGates_ok (h : st.Linked n) (hw : n.Wellformed)
    (hc : ∀ c, n.IsConstant c → ¬n.IsGateOutput c) {gs : List Wiring}
    (hgs : ∀ g ∈ gs, g ∈ st.gates) :
    ∃ next changed, substituteGates (n.signalId? zeroName) (n.signalId? oneName) st gs =
      .ok (next, changed) ∧ next.Linked n := by
  induction gs generalizing st with
  | nil => exact ⟨st, false, rfl, h⟩
  | cons g rest ih =>
    obtain ⟨hg, hrest⟩ := List.forall_mem_cons.1 hgs
    obtain ⟨next, changed, hgate, hnext, heq⟩ := h.substituteGate_linked hw hc hg
    obtain ⟨last, more, hgates, hlast⟩ := ih hnext (heq ▸ hrest)
    refine ⟨last, changed || more, ?_, hlast⟩
    simp only [substituteGates, hgate, hgates, Except.ok_bind]
    rfl

/-- `st'` has come from `st` in the same pass: links were added only, from signals that were read
as themselves to such signals, and these are computed. -/
structure Extends (st' st : State) (n : Netlist) : Prop where
  gates_eq : st'.gates = st.gates
  dffs_eq : st'.dffs = st.dffs
  plain : ∀ {s}, st'.subst.Plain s → st.subst.Plain s
  link : ∀ {s t : SignalId}, st.subst.Plain s → st'.subst[s]? = some t → t ≠ s →
    st.subst.Plain t ∧ st.Computes n t

theorem Extends.refl (st : State) (n : Netlist) : st.Extends st n where
  gates_eq := rfl
  dffs_eq := rfl
  plain := id
  link hs ht hne := by
    rw [Substitution.Plain, ht] at hs
    exact absurd (Option.some.inj hs) hne

/-- Where readers end up is computed. -/
theorem Extends.target {st' : State} (hext : st'.Extends st n) (h : st'.Sound n rank)
    {s : SignalId} (hs : s < n.signals.size) (hplain : st.subst.Plain s)
    (hcomputes : st.Computes n s) :
    st.subst.Plain (st'.subst.target s) ∧ st.Computes n (st'.subst.target s) := by
  refine Substitution.target_of_link (P := fun t => st.subst.Plain t ∧ st.Computes n t) h.descends
    (h.subst_size ▸ hs) ⟨hplain, hcomputes⟩ fun {a b} ha hab => ?_
  by_cases heq : b = a
  · exact heq ▸ ha
  · exact hext.link ha.1 hab heq

theorem Extends.withLink {st' : State} (hext : st'.Extends st n) (h : st'.Sound n rank)
    (hst : st.Sound n rank) (hr : n.Ranked rank) (hw : n.Wellformed) (hclosed : st.Closed n)
    {g : Wiring} (hg : g ∈ st'.gates) {t : SignalId} (ht : st'.Redirects n g t) :
    (st'.withLink g.out t).Extends st n := by
  have hlt := (h.gate_lt g hg).2.2
  have hget := getElem?_withLink (t := t) (h.subst_size ▸ hlt : g.out < st'.subst.size)
  have htarget : st.subst.Plain t ∧ st.Computes n t := by
    rcases ht.source with hc | ⟨inner, hmem, -, rfl⟩
    · have hsource := hr.constant hc
      exact ⟨hst.plain_of_source (hw.constant_lt hc) hsource, fun hout => absurd hout hsource⟩
    · have hread : st.Reads inner.in1 := .inl ⟨inner, hext.gates_eq ▸ hmem, .inl rfl⟩
      exact hext.target h (hst.reads_lt hread) (hclosed.read hread).2 (hclosed.read hread).1
  refine ⟨hext.gates_eq, hext.dffs_eq, fun {s} hs => ?_, fun {a b} ha hab hne => ?_⟩
  · rw [Substitution.Plain, hget] at hs
    split at hs
    · next heq =>
      cases hs
      exact absurd heq ht.ne
    · exact hext.plain hs
  · rw [hget] at hab
    split at hab
    · cases hab
      exact htarget
    · exact hext.link ha hab hne

/-- Going through the gates keeps the state sound and adds links only. -/
theorem substituteGates_ok (hst : st.Sound n rank) (hr : n.Ranked rank) (hw : n.Wellformed)
    (hclosed : st.Closed n) {st' : State} (hext : st'.Extends st n) (h : st'.Sound n rank)
    {gs : List Wiring} (hgs : ∀ g ∈ gs, g ∈ st.gates) :
    ∃ next changed, substituteGates (n.signalId? zeroName) (n.signalId? oneName) st' gs =
      .ok (next, changed) ∧ next.Sound n rank ∧ next.Extends st n := by
  induction gs generalizing st' with
  | nil => exact ⟨st', false, rfl, h, hext⟩
  | cons g rest ih =>
    simp only [List.mem_cons, forall_eq_or_imp] at hgs
    have hg : g ∈ st'.gates := hext.gates_eq ▸ hgs.1
    rcases h.substituteGate_ok hg with hstay | ⟨t, ht, hlink⟩
    · obtain ⟨next, changed, hrest, hnext⟩ := ih hext h hgs.2
      refine ⟨next, false || changed, ?_, hnext⟩
      simp only [substituteGates, hstay, Except.ok_bind, hrest]
      rfl
    · obtain ⟨next, changed, hrest, hnext⟩ :=
        ih (hext.withLink h hst hr hw hclosed hg ht) (h.withLink hr hw hg ht) hgs.2
      refine ⟨next, true || changed, ?_, hnext⟩
      simp only [substituteGates, hlink, Except.ok_bind, hrest]
      rfl

/-! ## Rewiring -/

/-- A gate with the inputs that it reads instead. -/
def rewired (st : State) (g : Wiring) : Wiring :=
  { g with in1 := st.subst.target g.in1, in2 := st.subst.target g.in2 }

/-- A flip-flop with the inputs that it reads instead. -/
def rewiredFlop (st : State) (f : Dff) : Dff :=
  { f with d := st.subst.target f.d, clk := st.subst.target f.clk }

theorem Linked.rewire_eq (h : st.Linked n) :
    rewire st = .ok { st with gates := st.gates.map st.rewired
                              dffs := st.dffs.map st.rewiredFlop } := by
  have hgates : (st.gates.mapM fun g => do
      return { g with in1 := ← resolve st.subst g.in1, in2 := ← resolve st.subst g.in2 } :
      Checked (Array Wiring)) = .ok (st.gates.map st.rewired) :=
    Array.mapM_eq_ok fun g hg => by
      have hlt := h.gate_lt g hg
      rw [h.resolve_eq hlt.1, h.resolve_eq hlt.2.1]
      rfl
  have hdffs : (st.dffs.mapM fun f => do
      return { f with d := ← resolve st.subst f.d, clk := ← resolve st.subst f.clk } :
      Checked (Array Dff)) = .ok (st.dffs.map st.rewiredFlop) :=
    Array.mapM_eq_ok fun f hf => by
      have hlt := h.flop_lt f hf
      rw [h.resolve_eq hlt.1, h.resolve_eq hlt.2]
      rfl
  rw [rewire, hgates, Except.ok_bind, hdffs]
  rfl

theorem Linked.rewired (h : st.Linked n) :
    ({ st with gates := st.gates.map st.rewired
               dffs := st.dffs.map st.rewiredFlop } : State).Linked n where
  subst_size := h.subst_size
  descends := h.descends
  link_from := h.link_from
  gate_lt := by
    intro g hg
    obtain ⟨k, hk, rfl⟩ := Array.mem_map.1 hg
    have hlt := h.gate_lt k hk
    exact ⟨h.target_lt hlt.1, h.target_lt hlt.2.1, hlt.2.2⟩
  flop_lt := by
    intro f hf
    obtain ⟨k, hk, rfl⟩ := Array.mem_map.1 hf
    have hlt := h.flop_lt k hk
    exact ⟨h.target_lt hlt.1, h.target_lt hlt.2⟩
  outs := by
    have houts : (st.gates.map st.rewired).toList.map Wiring.out = st.gates.toList.map Wiring.out := by
      rw [Array.toList_map, List.map_map]
      rfl
    exact houts ▸ h.outs
  driver := by
    refine ⟨h.driver.size_eq, fun s i => ?_⟩
    rw [h.driver.get_eq]
    simp only [Array.getElem?_map, Option.map_eq_some_iff]
    constructor
    · rintro ⟨g, hg, rfl⟩
      exact ⟨_, ⟨g, hg, rfl⟩, rfl⟩
    · rintro ⟨_, ⟨g, hg, rfl⟩, rfl⟩
      exact ⟨g, hg, rfl⟩

/-- Rewiring keeps the state sound. -/
theorem Sound.rewired (h : st.Sound n rank) :
    ({ st with gates := st.gates.map st.rewired
               dffs := st.dffs.map st.rewiredFlop } : State).Sound n rank where
  subst_size := h.subst_size
  descends := h.descends
  link_from := h.link_from
  link_value := h.link_value
  gate_lt := h.linked.rewired.gate_lt
  gate_rank := by
    intro g hg
    obtain ⟨k, hk, rfl⟩ := Array.mem_map.1 hg
    have hlt := h.gate_lt k hk
    have hrank := h.gate_rank k hk
    exact ⟨(h.rank_target_le hlt.1).trans_lt hrank.1, (h.rank_target_le hlt.2.1).trans_lt hrank.2⟩
  gate_value := by
    intro v hv g hg
    obtain ⟨k, hk, rfl⟩ := Array.mem_map.1 hg
    have hlt := h.gate_lt k hk
    simp only [State.rewired, h.value_target hlt.1 hv, h.value_target hlt.2.1 hv]
    exact h.gate_value hv k hk
  outs := h.linked.rewired.outs
  driver := h.linked.rewired.driver
  dffs := by
    rw [Array.toList_map, List.forall₂_map_right_iff]
    refine h.dffs.imp fun f f' hflop => ?_
    exact {
      id_eq := hflop.id_eq
      q_eq := hflop.q_eq
      initialValue_eq := hflop.initialValue_eq
      d_lt := h.target_lt hflop.d_lt
      clk_lt := h.target_lt hflop.clk_lt
      value := fun hv => (h.value_target hflop.d_lt hv).trans (hflop.value hv) }

/-- After rewiring everything that is read is computed and read as itself. -/
theorem Extends.closed {st' : State} (hext : st'.Extends st n) (h : st'.Sound n rank)
    (hst : st.Sound n rank) (hclosed : st.Closed n) :
    ({ st' with gates := st'.gates.map st'.rewired
                dffs := st'.dffs.map st'.rewiredFlop } : State).Closed n := by
  have hcomputes : ∀ {s}, st.Computes n s → State.Computes
      { st' with gates := st'.gates.map st'.rewired, dffs := st'.dffs.map st'.rewiredFlop } n s := by
    intro s hs hout
    obtain ⟨g, hg, rfl⟩ := hs hout
    exact ⟨st'.rewired g, Array.mem_map_of_mem (hext.gates_eq ▸ hg), rfl⟩
  have htarget : ∀ {s}, st.Reads s → st.Computes n (st'.subst.target s) ∧
      st'.subst.Plain (st'.subst.target s) := by
    intro s hs
    have hlt := hst.reads_lt hs
    obtain ⟨hcomp, hplain⟩ := hclosed.read hs
    exact ⟨(hext.target h hlt hplain hcomp).2,
      h.linked.target_plain hlt⟩
  refine ⟨fun s hs => hcomputes (hclosed.output s hs), fun {s} hs => ?_⟩
  have hread : ∃ r, st.Reads r ∧ s = st'.subst.target r := by
    rcases hs with ⟨g, hg, hs⟩ | ⟨f, hf, hs⟩
    · obtain ⟨k, hk, rfl⟩ := Array.mem_map.1 hg
      have hk : k ∈ st.gates := hext.gates_eq ▸ hk
      rcases hs with rfl | rfl
      · exact ⟨k.in1, .inl ⟨k, hk, .inl rfl⟩, rfl⟩
      · exact ⟨k.in2, .inl ⟨k, hk, .inr rfl⟩, rfl⟩
    · obtain ⟨k, hk, rfl⟩ := Array.mem_map.1 hf
      have hk : k ∈ st.dffs := hext.dffs_eq ▸ hk
      rcases hs with rfl | rfl
      · exact ⟨k.d, .inr ⟨k, hk, .inl rfl⟩, rfl⟩
      · exact ⟨k.clk, .inr ⟨k, hk, .inr rfl⟩, rfl⟩
  obtain ⟨r, hr, rfl⟩ := hread
  exact ⟨hcomputes (htarget hr).1, (htarget hr).2⟩

end State

end NandHdl.Optimizer
