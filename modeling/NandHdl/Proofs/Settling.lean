-- SUMMARY: One combinational pass settles a circuit (`evaluate_settles`): the result is the only store in which every gate holds and nothing else has changed.
import NandHdl.Proofs.Kernel.Engine

/-!
# Settling

A circuit has settled if every gate puts out what its inputs ask for. If no gate comes before a
gate that it reads, computing the gates once is enough. There is no other way to settle: the
signals that are no gate outputs determine all others.
-/

namespace NandHdl

namespace GateWires

/-! ## Gates in order -/

/-- The gate holds in a valuation. -/
def Holds (g : GateWires) (v : Valuation) : Prop := v g.out = g.value v

/-- The output of `h` is no signal of `g`. -/
def Apart (g h : GateWires) : Prop := h.out ≠ g.in1 ∧ h.out ≠ g.in2

/-- No gate reads its own output or that of a later gate, and no two gates have one output. -/
structure InOrder (gs : List GateWires) : Prop where
  self : ∀ g ∈ gs, g.Apart g
  later : gs.Pairwise fun g h => g.Apart h ∧ g.out ≠ h.out

theorem InOrder.tail {g : GateWires} {rest : List GateWires} (h : InOrder (g :: rest)) :
    InOrder rest :=
  ⟨fun k hk => h.self k (List.mem_cons_of_mem g hk), (List.pairwise_cons.1 h.later).2⟩

theorem value_congr {g : GateWires} {v w : Valuation} (h1 : v g.in1 = w g.in1)
    (h2 : v g.in2 = w g.in2) : g.value v = g.value w := by
  rw [value, value, h1, h2]

/-- Computing gates touches their outputs only. -/
theorem computeAll_of_not_out {gs : List GateWires} {v : Valuation} {i : SignalId}
    (h : ∀ g ∈ gs, g.out ≠ i) : computeAll gs v i = v i := by
  induction gs generalizing v with
  | nil => rfl
  | cons g rest ih =>
    simp only [List.mem_cons, forall_eq_or_imp] at h
    rw [computeAll, ih h.2, Function.update_of_ne (Ne.symm h.1)]

/-- Gates computed in order hold. -/
theorem holds_computeAll {gs : List GateWires} (h : InOrder gs) (v : Valuation) :
    ∀ g ∈ gs, g.Holds (computeAll gs v) := by
  induction gs generalizing v with
  | nil => simp
  | cons g rest ih =>
    intro k hk
    rcases List.mem_cons.1 hk with rfl | hk
    · -- The gates after the first leave its three signals alone.
      have hlater := (List.pairwise_cons.1 h.later).1
      have hself := h.self k List.mem_cons_self
      rw [Holds, computeAll, computeAll_of_not_out fun r hr => Ne.symm (hlater r hr).2,
        Function.update_self]
      refine value_congr ?_ ?_
      · rw [computeAll_of_not_out fun r hr => (hlater r hr).1.1, Function.update_of_ne hself.1.symm]
      · rw [computeAll_of_not_out fun r hr => (hlater r hr).1.2, Function.update_of_ne hself.2.symm]
    · exact ih h.tail _ k hk

/-- Computing gates in order leads to the one valuation that agrees outside their outputs and in
which they hold. -/
theorem computeAll_eq {gs : List GateWires} (h : InOrder gs) {v w : Valuation}
    (hagree : ∀ i, (∀ g ∈ gs, g.out ≠ i) → v i = w i) (hholds : ∀ g ∈ gs, g.Holds w) :
    computeAll gs v = w := by
  induction gs generalizing v with
  | nil => exact funext fun i => hagree i (by simp)
  | cons g rest ih =>
    have hlater := (List.pairwise_cons.1 h.later).1
    have hself := h.self g List.mem_cons_self
    have hg : g.Holds w := hholds g List.mem_cons_self
    -- The inputs of the first gate are outputs of no gate in the row, so they agree already.
    have h1 : v g.in1 = w g.in1 := hagree _ fun k hk => by
      rcases List.mem_cons.1 hk with rfl | hk
      · exact hself.1
      · exact (hlater k hk).1.1
    have h2 : v g.in2 = w g.in2 := hagree _ fun k hk => by
      rcases List.mem_cons.1 hk with rfl | hk
      · exact hself.2
      · exact (hlater k hk).1.2
    refine ih h.tail (fun i hi => ?_) fun k hk => hholds k (List.mem_cons_of_mem g hk)
    by_cases hout : i = g.out
    · subst hout
      rw [Function.update_self, hg, value_congr h1 h2]
    · rw [Function.update_of_ne hout]
      exact hagree i fun k hk => by
        rcases List.mem_cons.1 hk with rfl | hk
        · exact Ne.symm hout
        · exact hi k hk

end GateWires

/-! ## Settled netlists -/

namespace Netlist

/-- Every gate puts out what its inputs ask for. -/
def Settled (n : Netlist) (v : Valuation) : Prop :=
  ∀ g ∈ n.gates, v g.out = !(v g.in1 && v g.in2)

/-- Some gate drives the signal. -/
def IsGateOutput (n : Netlist) (i : SignalId) : Prop := ∃ g ∈ n.gates, g.out = i

/-- The store `t` differs from `s` in gate outputs at most, and in `t` the gates have settled. -/
structure SettledFrom (n : Netlist) (s t : Store) : Prop where
  sized : t.SizedFor n.signals.size
  header_eq : t.header = s.header
  bit_eq : ∀ i, ¬n.IsGateOutput i → t.bit i = s.bit i
  settled : n.Settled t.bit

end Netlist

namespace LevelizedNetlist.Sorted

variable {l : LevelizedNetlist} {n : Netlist} {level : GateId → Nat} {s t : Store}

theorem settled_iff (h : l.Sorted n level) {v : Valuation} :
    n.Settled v ↔ ∀ w ∈ l.wires, w.Holds v := by
  constructor
  · intro hv w hw
    obtain ⟨g, hg, rfl⟩ := h.mem_wires.1 hw
    exact hv g hg
  · intro hv g hg
    exact hv g.wires (h.mem_wires.2 ⟨g, hg, rfl⟩)

theorem not_isGateOutput_iff (h : l.Sorted n level) {i : SignalId} :
    ¬n.IsGateOutput i ↔ ∀ w ∈ l.wires, w.out ≠ i := by
  constructor
  · rintro hi w hw rfl
    obtain ⟨g, hg, rfl⟩ := h.mem_wires.1 hw
    exact hi ⟨g, hg, rfl⟩
  · rintro hi ⟨g, hg, rfl⟩
    exact hi g.wires (h.mem_wires.2 ⟨g, hg, rfl⟩) rfl

/-- In the order of the levels no gate comes before a gate that it reads. -/
theorem wires_inOrder (h : l.Sorted n level) (hw : n.Wellformed) : GateWires.InOrder l.wires := by
  have hget : ∀ {i}, i ∈ l.order → ∃ g, n.gates[i]? = some g ∧ l.netlist.wiresAt i = g.wires := by
    intro i hi
    have hlt := h.lt_of_mem_order hi
    refine ⟨n.gates[i], Array.getElem?_eq_getElem hlt, ?_⟩
    rw [h.wiresAt_eq, Netlist.wiresAt_eq (Array.getElem?_eq_getElem hlt)]
  -- A gate whose output is read lies below the reader.
  have hapart : ∀ {i j}, i ∈ l.order → j ∈ l.order → level i ≤ level j →
      (l.netlist.wiresAt i).Apart (l.netlist.wiresAt j) := by
    intro i j hi hj hle
    obtain ⟨g, hg, hgi⟩ := hget hi
    obtain ⟨k, hk, hkj⟩ := hget hj
    rw [hgi, hkj]
    constructor
    · intro heq
      have := h.level_lt (g := i) (d := j) ⟨g, hg, .inl ⟨k, hk, heq⟩⟩
      omega
    · intro heq
      have := h.level_lt (g := i) (d := j) ⟨g, hg, .inr ⟨k, hk, heq⟩⟩
      omega
  have hnodup : l.order.Nodup := h.order_perm.nodup_iff.2 List.nodup_range
  constructor
  · intro w hmem
    obtain ⟨i, hi, rfl⟩ := List.mem_map.1 hmem
    exact hapart hi hi (Nat.le_refl _)
  · rw [wires, List.pairwise_map]
    refine (h.order_sorted.and hnodup).imp_of_mem fun {i j} hi hj hij => ⟨hapart hi hj hij.1, ?_⟩
    obtain ⟨g, hg, hgi⟩ := hget hi
    obtain ⟨k, hk, hkj⟩ := hget hj
    rw [hgi, hkj]
    intro (heq : g.out = k.out)
    have hi' : (n.gates.toList.map NandGate.out)[i]? = some g.out := by simp [hg]
    have hj' : (n.gates.toList.map NandGate.out)[j]? = some k.out := by simp [hk]
    have hlt : i < (n.gates.toList.map NandGate.out).length := by
      simpa using h.lt_of_mem_order hi
    exact hij.2 ((List.getElem?_inj hlt hw.gate_out_nodup).1 (hi'.trans (heq ▸ hj'.symm)))

/-- One pass settles the gates and changes nothing else. -/
theorem compute_settledFrom (h : l.Sorted n level) (hw : n.Wellformed)
    (hs : s.SizedFor n.signals.size) : n.SettledFrom s (s.compute l.wires) := by
  obtain ⟨hsized, hheader, hbit⟩ := Store.compute_spec hs fun _ => h.wires_below hw
  refine ⟨hsized, hheader, fun i hi => ?_, ?_⟩
  · rw [hbit, GateWires.computeAll_of_not_out (h.not_isGateOutput_iff.1 hi)]
  · rw [h.settled_iff, hbit]
    exact GateWires.holds_computeAll (h.wires_inOrder hw) _

/-- There is one way to settle: signals that agree outside the gate outputs agree everywhere. -/
theorem settled_unique (h : l.Sorted n level) (hw : n.Wellformed) {v w : Valuation}
    (hv : n.Settled v) (hw' : n.Settled w) (hagree : ∀ i, ¬n.IsGateOutput i → v i = w i) : v = w := by
  have horder := h.wires_inOrder hw
  rw [← GateWires.computeAll_eq horder (v := v) (w := v) (fun _ _ => rfl) (h.settled_iff.1 hv)]
  exact GateWires.computeAll_eq horder
    (fun i hi => hagree i (h.not_isGateOutput_iff.2 hi)) (h.settled_iff.1 hw')

theorem settledFrom_unique (h : l.Sorted n level) (hw : n.Wellformed)
    {t' : Store} (ht : n.SettledFrom s t) (ht' : n.SettledFrom s t') : t = t' := by
  refine Store.ext_bit (ht.sized.trans ht'.sized.symm) (ht.header_eq.trans ht'.header_eq.symm) ?_
  have := h.settled_unique hw ht.settled ht'.settled fun i hi =>
    (ht.bit_eq i hi).trans (ht'.bit_eq i hi).symm
  exact congrFun this

/-- The settled values of the signals do not depend on what lies behind the last signal. -/
theorem settled_unique_below (h : l.Sorted n level) (hw : n.Wellformed) {v w : Valuation}
    (hv : n.Settled v) (hw' : n.Settled w)
    (hagree : ∀ i < n.signals.size, ¬n.IsGateOutput i → v i = w i) :
    ∀ i < n.signals.size, v i = w i := by
  let v' : Valuation := fun i => if i < n.signals.size then v i else w i
  have hv' : n.Settled v' := by
    intro g hg
    obtain ⟨h1, h2, hout⟩ := hw.gate_lt g hg
    simp only [v', if_pos h1, if_pos h2, if_pos hout]
    exact hv g hg
  have heq : v' = w := h.settled_unique hw hv' hw' fun i hi => by
    by_cases hlt : i < n.signals.size
    · simp only [v', if_pos hlt]
      exact hagree i hlt hi
    · simp only [v', if_neg hlt]
  intro i hi
  rw [← heq]
  simp only [v', if_pos hi]

end LevelizedNetlist.Sorted

/-- On a store of the netlist, a combinational pass of either engine computes the gates level by
level. -/
theorem LevelizedNetlist.Sorted.evaluate_ok {l : LevelizedNetlist} {n : Netlist}
    {level : GateId → Nat} (h : l.Sorted n level) (hw : n.Wellformed) {kind : KernelKind}
    (hfits : kind = .batch → n.signals.size < 2 ^ 32) :
    ∃ k, Kernel.ofLevelized l kind = .ok k ∧ ∀ {t : Store}, t.SizedFor n.signals.size →
      k.evaluate.run t = .ok () (t.compute l.wires) := by
  obtain ⟨k, hk, hruns⟩ := h.kernel_ok kind
  have hkind : k.kind = kind := Kernel.kind_ofLevelized hk
  exact ⟨k, hk, fun ht => Kernel.evaluate_run hruns (fun hbatch => hfits (hkind.symm.trans hbatch)) ht
    (Nat.le_refl _) fun _ => h.wires_below hw⟩

/-- Two inverters in a row. The second one has the lower number. -/
def inverterChain : Netlist :=
  ((((Netlist.empty "chain").addSignal "a" 0).addSignal "x" 0).addSignal "y" 0).addNand 1 1 2
    |>.addNand 0 0 1

theorem inverterChain_numbered : inverterChain.Numbered :=
  (((((Netlist.Numbered.empty "chain").addSignal "a" 0).addSignal "x" 0).addSignal "y" 0).addNand
    1 1 2).addNand 0 0 1

end NandHdl
