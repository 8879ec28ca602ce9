-- SUMMARY: A pass that changes nothing (`State.Stationary`): it redirects no reader and drops no gate, the passes end in one unless they are cut off (`Sound.passes_converged`), and passes over the same gates cannot change them any more (`Stationary.passes_ok`).
import NandHdl.Proofs.Optimizer.Result

/-!
# Stationary states

A pass reports a change if it adds a link or drops a gate. Rewiring alone is not reported, but it
follows links only, and before a pass everything that is read is read as itself. A pass that
reports nothing therefore has left the state as it was.

A later run over the same gates starts without links. It may find a link that the earlier run had
found as well: the gate drives an output of the circuit, so it is still there, but nothing reads it
any more. Such a link changes nothing.
-/

namespace NandHdl.Optimizer

/-! ## Following no link -/

namespace Substitution

variable {subst : Substitution} {s : SignalId}

theorem resolve_of_plain (hs : subst.Plain s) : resolve subst s = .ok s := by
  have hlt := (Array.getElem?_eq_some_iff.1 hs).1
  rw [resolve]
  cases hsize : subst.size with
  | zero => omega
  | succ steps =>
    rw [follow, Checked.get_eq_ok.2 hs, Except.ok_bind, if_pos rfl]
    rfl

end Substitution

namespace State

variable {n : Netlist} {rank : SignalId → Nat} {st next : State} {zero one : Option SignalId}

/-- If everything that is read is read as itself, there is nothing to rewire. -/
theorem rewire_of_plain (h : ∀ {s}, st.Reads s → st.subst.Plain s) : rewire st = .ok st := by
  have hgates : (st.gates.mapM fun g => do
      return { g with in1 := ← resolve st.subst g.in1, in2 := ← resolve st.subst g.in2 } :
      Checked (Array Wiring)) = .ok (st.gates.map id) :=
    Array.mapM_eq_ok fun g hg => by
      rw [Substitution.resolve_of_plain (h (.inl ⟨g, hg, .inl rfl⟩)),
        Substitution.resolve_of_plain (h (.inl ⟨g, hg, .inr rfl⟩))]
      rfl
  have hdffs : (st.dffs.mapM fun f => do
      return { f with d := ← resolve st.subst f.d, clk := ← resolve st.subst f.clk } :
      Checked (Array Dff)) = .ok (st.dffs.map id) :=
    Array.mapM_eq_ok fun f hf => by
      rw [Substitution.resolve_of_plain (h (.inr ⟨f, hf, .inl rfl⟩)),
        Substitution.resolve_of_plain (h (.inr ⟨f, hf, .inr rfl⟩))]
      rfl
  rw [rewire, hgates, Except.ok_bind, hdffs, Except.ok_bind, Array.map_id, Array.map_id]
  rfl

/-! ## Decisions that change nothing -/

/-- A decision that is not new leaves the state alone. -/
theorem substituteGate_unchanged {g : Wiring}
    (h : substituteGate zero one st g = .ok (next, false)) : next = st := by
  simp only [substituteGate, Except.bind_eq_ok] at h
  obtain ⟨a, -, b, -, t, -, h⟩ := h
  split at h
  · cases h
    rfl
  · obtain ⟨result, -, h⟩ := Except.bind_eq_ok.1 h
    split at h
    · cases h
      rfl
    · split at h
      · cases h
        rfl
      · obtain ⟨subst, -, h⟩ := Except.bind_eq_ok.1 h
        cases h

theorem substituteGates_unchanged {gs : List Wiring}
    (h : substituteGates zero one st gs = .ok (next, false)) :
    next = st ∧ ∀ g ∈ gs, substituteGate zero one st g = .ok (st, false) := by
  induction gs generalizing st with
  | nil =>
    cases h
    exact ⟨rfl, nofun⟩
  | cons g rest ih =>
    obtain ⟨⟨mid, changed⟩, hgate, h⟩ := Except.bind_eq_ok.1 h
    obtain ⟨⟨last, more⟩, hrest, h⟩ := Except.bind_eq_ok.1 h
    simp only [pure, Except.pure, Except.ok.injEq, Prod.mk.injEq, Bool.or_eq_false_iff] at h
    obtain ⟨rfl, rfl, rfl⟩ := h
    cases substituteGate_unchanged hgate
    obtain ⟨rfl, hstay⟩ := ih hrest
    exact ⟨rfl, List.forall_mem_cons.2 ⟨hgate, hstay⟩⟩

/-! ## Sweeps that drop nothing -/

/-- What the search finds lies behind what it starts from. -/
theorem reach_found {P : SignalId → Prop} (hin : ∀ g ∈ st.gates, P g.out → P g.in1 ∧ P g.in2)
    {signals : Nat} (hdriver : Indexes st.driver st.gates signals) {steps : Nat}
    {stack : List SignalId} {r r' : Reach} (hstack : ∀ s ∈ stack, P s)
    (hlive : ∀ {i : Nat} {g}, r.live[i]? = some true → st.gates[i]? = some g → P g.out)
    (h : reach st steps stack r = .ok r') {i : Nat} {g : Wiring} (hi : r'.live[i]? = some true)
    (hg : st.gates[i]? = some g) : P g.out := by
  induction steps generalizing stack r with
  | zero =>
    cases h
    exact hlive hi hg
  | succ steps ih =>
    cases stack with
    | nil =>
      cases h
      exact hlive hi hg
    | cons s stack =>
      obtain ⟨hs, hrest⟩ := List.forall_mem_cons.1 hstack
      obtain ⟨seen, -, h⟩ := Except.bind_eq_ok.1 h
      split at h
      · exact ih hrest hlive h
      · obtain ⟨marks, -, h⟩ := Except.bind_eq_ok.1 h
        obtain ⟨position, hposition, h⟩ := Except.bind_eq_ok.1 h
        cases position with
        | none => exact ih (r := ⟨marks, r.live⟩) hrest hlive h
        | some k =>
          obtain ⟨inner, hinner, h⟩ := Except.bind_eq_ok.1 h
          obtain ⟨live, hmark, h⟩ := Except.bind_eq_ok.1 h
          have hinner := Checked.get_eq_ok.1 hinner
          obtain ⟨driving, hdriving, hout⟩ :=
            (hdriver.get_eq s k).1 (Checked.get_eq_ok.1 hposition)
          cases hinner.symm.trans hdriving
          obtain ⟨hk, rfl⟩ := Checked.modify_eq_ok.1 hmark
          have hP : P inner.out := hout ▸ hs
          have hins := hin inner (Array.mem_of_getElem? hinner) hP
          refine ih (List.forall_mem_cons.2 ⟨hins.2, List.forall_mem_cons.2 ⟨hins.1, hrest⟩⟩)
            (fun {j w} hj hw => ?_) h
          rw [Checked.getElem?_modify_const hk] at hj
          split at hj
          · next heq =>
            rw [heq, hinner] at hw
            cases hw
            exact hP
          · exact hlive hj hw

theorem sweep_eq_ok : sweep n st = .ok next ↔ ∃ r driver,
    reach st ((roots n st.dffs).reverse.length + 2 * n.signals.size + 1)
      (roots n st.dffs).reverse (.start n.signals.size st.gates.size) = .ok r ∧
    driverTable n.signals.size (kept st.gates r.live) = .ok driver ∧
    next = { st with gates := kept st.gates r.live, driver } := by
  have hsweep : sweep n st = (do
      let r ← reach st ((roots n st.dffs).reverse.length + 2 * n.signals.size + 1)
        (roots n st.dffs).reverse (.start n.signals.size st.gates.size)
      let driver ← driverTable n.signals.size (kept st.gates r.live)
      return { st with gates := kept st.gates r.live, driver }) := rfl
  simp only [hsweep, Except.bind_eq_ok, pure, Except.pure, Except.ok.injEq]
  constructor
  · rintro ⟨r, hr, driver, hdriver, rfl⟩
    exact ⟨r, driver, hr, hdriver, rfl⟩
  · rintro ⟨r, driver, hr, hdriver, rfl⟩
    exact ⟨r, hr, driver, hdriver, rfl⟩

/-- A gate is kept only if something that has to keep its value depends on it. -/
theorem Sound.sweep_found (h : st.Sound n rank) (hsweep : sweep n st = .ok next)
    {P : SignalId → Prop} (hroots : ∀ s ∈ roots n st.dffs, P s)
    (hin : ∀ g ∈ st.gates, P g.out → P g.in1 ∧ P g.in2) : ∀ g ∈ next.gates, P g.out := by
  intro g hg
  obtain ⟨r, driver, hreach, -, rfl⟩ := sweep_eq_ok.1 hsweep
  obtain ⟨i, hi, hlive⟩ := mem_kept.1 hg
  refine reach_found hin h.driver (fun s hs => hroots s (List.mem_reverse.1 hs)) ?_ hreach hlive hi
  intro j w hj
  simp [Reach.start, Array.getElem?_replicate] at hj

theorem kept_eq_self {gates : Array Wiring} {live : Array Bool} (hsize : live.size = gates.size)
    (h : gates.size ≤ (kept gates live).size) : kept gates live = gates := by
  apply Array.toList_inj.1
  exact (kept_sublist hsize).eq_of_length_le (by simpa using h)

theorem Indexes.unique {driver driver' : Array (Option Nat)} {gates : Array Wiring} {signals : Nat}
    (h : Indexes driver gates signals) (h' : Indexes driver' gates signals) : driver = driver' := by
  apply Array.ext (h.size_eq.trans h'.size_eq.symm)
  intro s hs hs'
  apply Option.ext
  intro i
  have hiff := (h.get_eq s i).trans (h'.get_eq s i).symm
  simpa [Array.getElem?_eq_getElem hs, Array.getElem?_eq_getElem hs'] using hiff

theorem Sound.outs_nodup (h : st.Sound n rank) (hw : n.Wellformed) :
    (st.gates.toList.map Wiring.out).Nodup :=
  hw.gate_out_nodup.sublist h.outs

/-- The table of the drivers is the one that is computed anew. -/
theorem Sound.driverTable_eq (h : st.Sound n rank) (hw : n.Wellformed) :
    driverTable n.signals.size st.gates = .ok st.driver := by
  obtain ⟨driver, hdriver, hindex⟩ :=
    driverTable_ok (fun g hg => (h.gate_lt g hg).2.2) (h.outs_nodup hw)
  rw [hdriver, Indexes.unique hindex h.driver]

/-- A sweep that drops no gate leaves the state alone. -/
theorem Sound.sweep_unchanged (h : st.Sound n rank) (hw : n.Wellformed)
    (hsweep : sweep n st = .ok next) (hsize : st.gates.size ≤ next.gates.size) : next = st := by
  obtain ⟨r, driver, hreach, hdriver, rfl⟩ := sweep_eq_ok.1 hsweep
  obtain ⟨r', hreach', hr⟩ := h.linked.search_ok hw
  cases hreach.symm.trans hreach'
  have hkept := kept_eq_self hr.live_size hsize
  rw [hkept, h.driverTable_eq hw] at hdriver
  cases hdriver
  rw [hkept]

/-! ## Passes that change nothing -/

/-- A pass redirects no reader and drops no gate. -/
structure Stationary (st : State) (n : Netlist) : Prop where
  stays : ∀ g ∈ st.gates,
    substituteGate (n.signalId? zeroName) (n.signalId? oneName) st g = .ok (st, false)
  swept : sweep n st = .ok st

/-- A pass that reports no change has been given a stationary state, and answers it. -/
theorem Sound.pass_unchanged (h : st.Sound n rank) (hw : n.Wellformed) (hclosed : st.Closed n)
    (hpass : pass n st = .ok (next, false)) : next = st ∧ st.Stationary n := by
  obtain ⟨⟨linked, changed⟩, hlinked, hpass⟩ := Except.bind_eq_ok.1 hpass
  obtain ⟨rewired, hrewired, hpass⟩ := Except.bind_eq_ok.1 hpass
  obtain ⟨swept, hswept, hpass⟩ := Except.bind_eq_ok.1 hpass
  simp only [pure, Except.pure, Except.ok.injEq, Prod.mk.injEq, Bool.or_eq_false_iff,
    decide_eq_false_iff_not, Nat.not_lt] at hpass
  obtain ⟨rfl, rfl, hsize⟩ := hpass
  obtain ⟨rfl, hstay⟩ := substituteGates_unchanged hlinked
  rw [rewire_of_plain fun hs => (hclosed.read hs).2] at hrewired
  cases hrewired
  cases h.sweep_unchanged hw hswept hsize
  exact ⟨rfl, fun g hg => hstay g (Array.mem_toList_iff.2 hg), hswept⟩

/-- Passes that were not cut off end in a stationary state. -/
theorem Sound.passes_converged (h : st.Sound n rank) (hr : n.Ranked rank) (hw : n.Wellformed)
    (hclosed : st.Closed n) {left count : Nat} {last : State}
    (hpasses : passes n left st = .ok (last, count)) (hcount : count < left) :
    last.Sound n rank ∧ last.Closed n ∧ last.Stationary n := by
  induction left generalizing st count with
  | zero => omega
  | succ left ih =>
    obtain ⟨next, changed, hpass, hsound, hclosed'⟩ := h.pass_ok hr hw hclosed
    rw [passes, hpass, Except.ok_bind] at hpasses
    cases changed with
    | false =>
      cases hpasses
      obtain ⟨rfl, hstationary⟩ := h.pass_unchanged hw hclosed hpass
      exact ⟨h, hclosed, hstationary⟩
    | true =>
      obtain ⟨⟨end', more⟩, hrest, heq⟩ := Except.bind_eq_ok.1 hpasses
      cases heq
      exact ih hsound hclosed' hrest (by omega)

/-- Every gate that is left drives an output of the circuit or is read. -/
theorem Stationary.used (hst : st.Stationary n) (h : st.Sound n rank) {g : Wiring}
    (hg : g ∈ st.gates) : g.out ∈ n.primaryOutputs ∨ st.Reads g.out := by
  refine h.sweep_found (P := fun s => s ∈ n.primaryOutputs ∨ st.Reads s) hst.swept ?_ ?_ g hg
  · exact fun s hs => (mem_roots.1 hs).imp_right .inr
  · exact fun k hk _ => ⟨.inr (.inl ⟨k, hk, .inl rfl⟩), .inr (.inl ⟨k, hk, .inr rfl⟩)⟩

/-- A gate that is left and read as itself is not replaced, unless by itself. -/
theorem Stationary.replacement_eq (hst : st.Stationary n) (hclosed : st.Closed n) {g : Wiring}
    (hg : g ∈ st.gates) (hout : st.subst.Plain g.out) :
    ∃ result, replacement (n.signalId? zeroName) (n.signalId? oneName) st g.in1 g.in2 =
      .ok result ∧ ∀ t, result = some t → t = g.out := by
  have hstay := hst.stays g hg
  rw [substituteGate, Substitution.resolve_of_plain (hclosed.read (.inl ⟨g, hg, .inl rfl⟩)).2,
    Except.ok_bind, Substitution.resolve_of_plain (hclosed.read (.inl ⟨g, hg, .inr rfl⟩)).2,
    Except.ok_bind, Checked.get_eq_ok.2 hout, Except.ok_bind, if_neg (not_not.2 rfl)] at hstay
  obtain ⟨result, hresult, hstay⟩ := Except.bind_eq_ok.1 hstay
  refine ⟨result, hresult, ?_⟩
  rintro t rfl
  by_contra hne
  simp only [if_neg hne] at hstay
  obtain ⟨subst, -, hstay⟩ := Except.bind_eq_ok.1 hstay
  exact Bool.noConfusion (congrArg Prod.snd (Except.ok.inj hstay))

/-! ## Passes with other links -/

/-- The state with other links. -/
def withSubst (st : State) (subst : Substitution) : State := { st with subst }

/-- What is read as itself in the state is read as itself under `subst`. -/
structure Spares (st : State) (subst : Substitution) : Prop where
  size_eq : subst.size = st.subst.size
  plain : ∀ {s}, st.subst.Plain s → subst.Plain s

variable {subst : Substitution}

theorem reach_withSubst (steps : Nat) (stack : List SignalId) (r : Reach) :
    reach (st.withSubst subst) steps stack r = reach st steps stack r := by
  induction steps generalizing stack r with
  | zero => rfl
  | succ steps ih =>
    cases stack with
    | nil => rfl
    | cons s stack =>
      simp only [reach, ih]
      rfl

theorem Stationary.sweep_withSubst (hst : st.Stationary n) :
    sweep n (st.withSubst subst) = .ok (st.withSubst subst) := by
  obtain ⟨r, driver, hreach, hdriver, heq⟩ := sweep_eq_ok.1 hst.swept
  have hgates : kept st.gates r.live = st.gates := (congrArg State.gates heq).symm
  have hdrivers : driver = st.driver := (congrArg State.driver heq).symm
  refine sweep_eq_ok.2 ⟨r, driver, (reach_withSubst _ _ _).trans hreach, hdriver, ?_⟩
  show st.withSubst subst =
    { st.withSubst subst with gates := kept st.gates r.live, driver := driver }
  rw [hgates, hdrivers]
  rfl

/-- The replacement of a gate does not depend on links from signals that nothing reads. -/
theorem Spares.replacement_eq (hspares : st.Spares subst)
    (hclosed : st.Closed n) (g : Wiring) :
    replacement zero one (st.withSubst subst) g.in1 g.in2 =
      replacement zero one st g.in1 g.in2 := by
  have hbypassed : bypassed (st.withSubst subst) g.in1 = bypassed st g.in1 := by
    unfold bypassed
    refine bind_congr fun position => ?_
    cases position with
    | none => rfl
    | some k =>
      show (Checked.get st.gates k >>= _) = (Checked.get st.gates k >>= _)
      cases hinner : Checked.get st.gates k with
      | error e => rfl
      | ok inner =>
        have hmem := Array.mem_of_getElem? (Checked.get_eq_ok.1 hinner)
        have h1 := (hclosed.read (.inl ⟨inner, hmem, .inl rfl⟩)).2
        have h2 := (hclosed.read (.inl ⟨inner, hmem, .inr rfl⟩)).2
        simp only [Except.ok_bind, withSubst, Substitution.resolve_of_plain h1,
          Substitution.resolve_of_plain h2, Substitution.resolve_of_plain (hspares.plain h1),
          Substitution.resolve_of_plain (hspares.plain h2)]
  rw [replacement, replacement, hbypassed]

/-- A decision under other links keeps what was read as itself. -/
theorem Stationary.substituteGate_ok (hst : st.Stationary n) (h : st.Sound n rank)
    (hclosed : st.Closed n) (hspares : st.Spares subst) {g : Wiring} (hg : g ∈ st.gates) :
    ∃ subst' changed, substituteGate (n.signalId? zeroName) (n.signalId? oneName)
      (st.withSubst subst) g = .ok (st.withSubst subst', changed) ∧ st.Spares subst' := by
  have h1 := (hclosed.read (.inl ⟨g, hg, .inl rfl⟩)).2
  have h2 := (hclosed.read (.inl ⟨g, hg, .inr rfl⟩)).2
  have hlt : g.out < subst.size := by
    rw [hspares.size_eq, h.subst_size]
    exact (h.gate_lt g hg).2.2
  have hget : (st.withSubst subst).subst[g.out]? = some subst[g.out] := Array.getElem?_eq_getElem hlt
  rw [substituteGate, withSubst, Substitution.resolve_of_plain (hspares.plain h1), Except.ok_bind,
    Substitution.resolve_of_plain (hspares.plain h2), Except.ok_bind, ← withSubst,
    Checked.get_eq_ok.2 hget, Except.ok_bind]
  by_cases hself : subst[g.out] = g.out
  · rw [if_neg (not_not.2 hself), hspares.replacement_eq hclosed]
    obtain ⟨result, hresult, -⟩ := h.linked.replacement_ok (n.signalId? zeroName)
      (n.signalId? oneName) (b := st.subst.target g.in2) (h.target_lt (h.gate_lt g hg).1)
    rw [Substitution.target, Substitution.resolve_of_plain h1, Substitution.target,
      Substitution.resolve_of_plain h2] at hresult
    simp only [Except.toOption, Option.getD_some] at hresult
    rw [hresult, Except.ok_bind]
    cases result with
    | none => exact ⟨subst, false, rfl, hspares⟩
    | some t =>
      by_cases hne : t = g.out
      · exact ⟨subst, false, by simp only [if_pos hne]; rfl, hspares⟩
      · refine ⟨subst.modify g.out fun _ => t, true, ?_, by simpa using hspares.size_eq, ?_⟩
        · simp only [if_neg hne, withSubst, Checked.set_ok hlt]
          rfl
        · -- A new link leads from a signal that was not read as itself.
          intro s hs
          rw [Substitution.Plain, Checked.getElem?_modify_const hlt]
          split
          · next heq =>
            obtain ⟨result, hresult', hstay⟩ := hst.replacement_eq hclosed hg (heq ▸ hs)
            cases hresult.symm.trans hresult'
            exact absurd (hstay t rfl) hne
          · exact hspares.plain hs
  · exact ⟨subst, false, by rw [if_pos hself]; rfl, hspares⟩

theorem Stationary.substituteGates_ok (hst : st.Stationary n) (h : st.Sound n rank)
    (hclosed : st.Closed n) (hspares : st.Spares subst) {gs : List Wiring}
    (hgs : ∀ g ∈ gs, g ∈ st.gates) :
    ∃ subst' changed, substituteGates (n.signalId? zeroName) (n.signalId? oneName)
      (st.withSubst subst) gs = .ok (st.withSubst subst', changed) ∧ st.Spares subst' := by
  induction gs generalizing subst with
  | nil => exact ⟨subst, false, rfl, hspares⟩
  | cons g rest ih =>
    obtain ⟨hg, hrest⟩ := List.forall_mem_cons.1 hgs
    obtain ⟨mid, changed, hgate, hmid⟩ := hst.substituteGate_ok h hclosed hspares hg
    obtain ⟨subst', more, hgates, hspares'⟩ := ih hmid hrest
    refine ⟨subst', changed || more, ?_, hspares'⟩
    simp only [substituteGates, hgate, hgates, Except.ok_bind]
    rfl

/-- Passes over the gates of a stationary state change links at most. -/
theorem Stationary.passes_ok (hst : st.Stationary n) (h : st.Sound n rank) (hclosed : st.Closed n)
    (hspares : st.Spares subst) (left : Nat) :
    ∃ subst' count, passes n left (st.withSubst subst) = .ok (st.withSubst subst', count) := by
  induction left generalizing subst with
  | zero => exact ⟨subst, 0, rfl⟩
  | succ left ih =>
    have hall : ∀ g ∈ st.gates.toList, g ∈ st.gates := fun g hg => Array.mem_toList_iff.1 hg
    obtain ⟨mid, changed, hgates, hmid⟩ := hst.substituteGates_ok h hclosed hspares hall
    have hrewire : rewire (st.withSubst mid) = .ok (st.withSubst mid) :=
      rewire_of_plain fun hs => hmid.plain (hclosed.read hs).2
    have hpass : pass n (st.withSubst subst) = .ok (st.withSubst mid, changed) := by
      show (substituteGates _ _ (st.withSubst subst) st.gates.toList >>= _) = _
      simp only [hgates, Except.ok_bind, hrewire, hst.sweep_withSubst, Nat.lt_irrefl, decide_false,
        Bool.or_false]
      rfl
    rw [passes, hpass, Except.ok_bind]
    cases changed with
    | false => exact ⟨mid, 1, rfl⟩
    | true =>
      obtain ⟨subst', count, hrest⟩ := ih hmid
      exact ⟨subst', count + 1, by simp only [if_true, hrest, Except.ok_bind]; rfl⟩

end State

end NandHdl.Optimizer
