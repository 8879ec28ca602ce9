-- SUMMARY: A circuit whose signals have changed places has levels if the given one has (`Rearranged.levelize`), and passes and clock edges keep its store the same up to the permutation (`Corresponds.cycled`).
import NandHdl.Proofs.Clocking
import NandHdl.Proofs.Optimizer.Result
import NandHdl.Proofs.Reordering.Rearranged
import NandHdl.Proofs.Store.Layout

/-!
# Rearranged circuits

What a circuit computes does not depend on how its signals are numbered, nor on the order of its
gates and flip-flops. If a permutation leads from one circuit to another, it leads from the levels
of the one to those of the other, and from the stores of the one to those of the other.
-/

namespace NandHdl

namespace Netlist

variable {n n' : Netlist} {σ : Equiv.Perm SignalId}

namespace Rearranged

/-! ## The circuit -/

theorem symm (h : n.Rearranged σ n') : n'.Rearranged σ.symm n where
  size_eq := h.size_eq.symm
  past i hi := by rw [Equiv.symm_apply_eq, h.past i (h.size_eq ▸ hi)]
  gates := by
    have hback : n.gateWires = (n.gateWires.map (·.map σ)).map (·.map σ.symm) := by
      rw [List.map_map]
      refine (List.map_id'' (fun g => ?_) _).symm
      simp [GateWires.map]
    rw [hback]
    exact (h.gates.map _).symm
  flops := by
    have hback : n.flopStarts =
        (n.flopStarts.map fun p => (p.1.map σ, p.2)).map fun p => (p.1.map σ.symm, p.2) := by
      rw [List.map_map]
      refine (List.map_id'' (fun p => ?_) _).symm
      simp [FlopWires.map]
    rw [hback]
    exact (h.flops.map _).symm
  ones i := by
    have hone := h.ones (σ.symm i)
    rw [Equiv.apply_symm_apply] at hone
    exact hone.symm
  outputs_eq := h.outputs_eq.symm

theorem exists_gate (h : n.Rearranged σ n') {g : NandGate} (hg : g ∈ n.gates) :
    ∃ g' ∈ n'.gates, g'.wires = g.wires.map σ := by
  have hmem : g.wires.map σ ∈ n'.gateWires :=
    h.gates.mem_iff.2 (List.mem_map_of_mem (List.mem_map_of_mem (Array.mem_toList_iff.2 hg)))
  obtain ⟨g', hg', heq⟩ := List.mem_map.1 hmem
  exact ⟨g', Array.mem_toList_iff.1 hg', heq⟩

theorem exists_flop (h : n.Rearranged σ n') {f : Dff} (hf : f ∈ n.dffs) :
    ∃ f' ∈ n'.dffs, f'.d = σ f.d ∧ f'.q = σ f.q ∧ f'.initialValue = f.initialValue := by
  have hstart : (f.wires, f.initialValue) ∈ n.flopStarts :=
    List.mem_map.2 ⟨f, Array.mem_toList_iff.2 hf, rfl⟩
  have hmem : (f.wires.map σ, f.initialValue) ∈ n'.flopStarts :=
    h.flops.mem_iff.2 (List.mem_map.2 ⟨_, hstart, rfl⟩)
  obtain ⟨f', hf', heq⟩ := List.mem_map.1 hmem
  obtain ⟨hwires, hinitial⟩ := Prod.mk.inj heq
  exact ⟨f', Array.mem_toList_iff.1 hf', congrArg FlopWires.d hwires, congrArg FlopWires.q hwires,
    hinitial⟩

theorem isGateOutput (h : n.Rearranged σ n') {i : SignalId} (hi : n.IsGateOutput i) :
    n'.IsGateOutput (σ i) := by
  obtain ⟨g, hg, rfl⟩ := hi
  obtain ⟨g', hg', hwires⟩ := h.exists_gate hg
  exact ⟨g', hg', congrArg GateWires.out hwires⟩

theorem isGateOutput_iff (h : n.Rearranged σ n') {i : SignalId} :
    n'.IsGateOutput (σ i) ↔ n.IsGateOutput i := by
  refine ⟨fun hi => ?_, h.isGateOutput⟩
  have hback := h.symm.isGateOutput hi
  rwa [Equiv.symm_apply_apply] at hback

/-- The values of the rearranged circuit settle the given one. -/
theorem settled (h : n.Rearranged σ n') {v : Valuation} (hv : n'.Settled v) :
    n.Settled fun i => v (σ i) := by
  intro g hg
  obtain ⟨g', hg', hwires⟩ := h.exists_gate hg
  have hgate := hv g' hg'
  rw [show g'.out = σ g.out from congrArg GateWires.out hwires,
    show g'.in1 = σ g.in1 from congrArg GateWires.in1 hwires,
    show g'.in2 = σ g.in2 from congrArg GateWires.in2 hwires] at hgate
  exact hgate

/-- If the given circuit has levels, so has the rearranged one. -/
theorem levelize (h : n.Rearranged σ n') (hn : n.Numbered) (hn' : n'.Numbered)
    (hw' : n'.Wellformed) (hconstant : ∀ {c}, n.IsConstant c → ¬n.IsGateOutput c)
    {l : LevelizedNetlist} (hl : NandHdl.levelize n = .ok l) :
    ∃ l', NandHdl.levelize n' = .ok l' := by
  obtain ⟨hw, level, hs⟩ := levelize_sorted hn hl
  have hranked := hs.ranked hw hconstant
  have hrank : ∀ g' ∈ n'.gates,
      n.levelAt level (σ.symm g'.in1) < n.levelAt level (σ.symm g'.out) ∧
        n.levelAt level (σ.symm g'.in2) < n.levelAt level (σ.symm g'.out) := by
    intro g' hg'
    obtain ⟨g, hg, hwires⟩ := h.symm.exists_gate hg'
    rw [← show g.out = σ.symm g'.out from congrArg GateWires.out hwires,
      ← show g.in1 = σ.symm g'.in1 from congrArg GateWires.in1 hwires,
      ← show g.in2 = σ.symm g'.in2 from congrArg GateWires.in2 hwires]
    exact hranked.gate g hg
  exact @Optimizer.State.levelize_of_rank (fun i => n.levelAt level (σ.symm i)) n' hw' hn' hrank

end Rearranged

end Netlist

/-! ## Stores -/

namespace Store

variable {s : Store} {signals : Nat} {i : SignalId}

/-- Of a new store nothing is 1. -/
theorem bit_new (signals i : Nat) : (new signals).bit i = false := by
  rw [bit, getD_new (Nat.le_add_right_of_le (by decide))]
  exact Nat.zero_testBit _

theorem bit_putAll_true (hs : s.SizedFor signals) {ids : List SignalId}
    (hids : ∀ j ∈ ids, j < signals) :
    (s.putAll (ids.map (·, true))).bit i = true ↔ s.bit i = true ∨ i ∈ ids := by
  induction ids generalizing s with
  | nil => simp [putAll]
  | cons j rest ih =>
    obtain ⟨hj, hrest⟩ := List.forall_mem_cons.1 hids
    rw [List.map_cons, putAll, ih (hs.put j true) hrest, bit_put (hs.word_lt hj), List.mem_cons]
    split
    · next heq => simp [heq]
    · next hne => simp [hne]

end Store

namespace LevelizedNetlist.Sorted

variable {l : LevelizedNetlist} {n : Netlist} {level : GateId → Nat} {s : Store}

/-- A clock edge gives each flip-flop the value of its input. -/
theorem edge_spec (h : l.Sorted n level) (hw : n.Wellformed) (hs : s.SizedFor n.signals.size) :
    (∀ f ∈ n.dffs, (s.edge n.flops).bit f.q = s.bit f.d) ∧
      ∀ i, (∀ f ∈ n.dffs, f.q ≠ i) → (s.edge n.flops).bit i = s.bit i := by
  obtain ⟨k, hk, hruns⟩ := h.kernel_ok .object
  have hkind : k.kind = .object := Kernel.kind_ofLevelized hk
  have hfits : k.Fits n.signals.size := fun hbatch =>
    KernelKind.noConfusion (hkind.symm.trans hbatch)
  exact Kernel.Ready.edge_spec ⟨hruns, hfits, hs.room (Nat.le_refl _)⟩ hw

end LevelizedNetlist.Sorted

namespace Netlist

variable {n n' : Netlist} {σ : Equiv.Perm SignalId} {l l' : LevelizedNetlist}
  {level level' : GateId → Nat} {s t : Store}

/-- After a reset the signal with the name of the constant 1 is 1, and so are the flip-flops that
start at 1. -/
theorem mem_initiallyOne (hn : n.Numbered) {i : SignalId} :
    i ∈ Store.initiallyOne n ↔ n.NamedOne i ∨ ∃ f ∈ n.dffs, f.initialValue = true ∧ f.q = i := by
  simp only [Store.initiallyOne, List.mem_append, List.mem_map, List.mem_filter,
    Array.mem_toList_iff, beq_iff_eq, and_assoc]
  refine or_congr_left ⟨?_, ?_⟩
  · rintro ⟨s, hs, hname, rfl⟩
    obtain ⟨j, hj⟩ := Array.getElem?_of_mem hs
    exact ⟨s, (hn.signal hj).symm ▸ hj, hname⟩
  · rintro ⟨s, hs, hname⟩
    exact ⟨s, Array.mem_of_getElem? hs, hname, hn.signal hs⟩

theorem bit_forNetlist (hn : n.Numbered) (hw : n.Wellformed) (hs : Store.forNetlist n = .ok s)
    {i : SignalId} : s.bit i = true ↔ i ∈ Store.initiallyOne n := by
  have hids : ∀ j ∈ Store.initiallyOne n, j < n.signals.size := by
    intro j hj
    rcases (mem_initiallyOne hn).1 hj with ⟨signal, hsignal, -⟩ | ⟨f, hf, -, rfl⟩
    · exact (Array.getElem?_eq_some_iff.1 hsignal).1
    · exact (hw.dff_lt f hf).2.2
  rw [Store.forNetlist_ok hn hw] at hs
  cases hs
  rw [Store.bit_putAll_true (Store.new_sizedFor _) hids, Store.bit_new]
  simp

/-- The store `t` of the rearranged circuit holds what the store `s` of the given one holds. -/
structure Corresponds (n : Netlist) (σ : Equiv.Perm SignalId) (s t : Store) : Prop where
  left : s.SizedFor n.signals.size
  right : t.SizedFor n.signals.size
  agree : ∀ i < n.signals.size, t.bit (σ i) = s.bit i

/-- After a reset the stores correspond. -/
theorem Rearranged.corresponds (h : n.Rearranged σ n') (hn : n.Numbered) (hn' : n'.Numbered)
    (hw : n.Wellformed) (hw' : n'.Wellformed) (hs : Store.forNetlist n = .ok s)
    (ht : Store.forNetlist n' = .ok t) : n.Corresponds σ s t := by
  have hstarts : ∀ {n n' : Netlist} {σ : Equiv.Perm SignalId}, n.Rearranged σ n' → n.Numbered →
      n'.Numbered → ∀ {i}, i ∈ Store.initiallyOne n → σ i ∈ Store.initiallyOne n' := by
    intro n n' σ h hn hn' i hi
    rw [mem_initiallyOne hn']
    rcases (mem_initiallyOne hn).1 hi with hone | ⟨f, hf, hinitial, rfl⟩
    · exact .inl ((h.ones i).2 hone)
    · obtain ⟨f', hf', -, hq, heq⟩ := h.exists_flop hf
      exact .inr ⟨f', hf', heq.trans hinitial, hq⟩
  have hsized : ∀ {n : Netlist} {s : Store}, n.Numbered → n.Wellformed →
      Store.forNetlist n = .ok s → s.SizedFor n.signals.size := by
    intro n s hn hw hs
    rw [Store.forNetlist_ok hn hw] at hs
    cases hs
    exact (Store.new_sizedFor _).putAll _
  refine ⟨hsized hn hw hs, h.size_eq ▸ hsized hn' hw' ht, fun i _ => ?_⟩
  rw [Bool.eq_iff_iff, bit_forNetlist hn hw hs, bit_forNetlist hn' hw' ht]
  refine ⟨fun hi => ?_, hstarts h hn hn'⟩
  have hback := hstarts h.symm hn' hn hi
  rwa [Equiv.symm_apply_apply] at hback

namespace Corresponds

/-- Values that are written to signals that have kept their places. -/
theorem putAll (h : n.Corresponds σ s t) {puts : List (Nat × Bool)}
    (hputs : ∀ p ∈ puts, p.1 < n.signals.size) (hfixed : ∀ p ∈ puts, σ p.1 = p.1) :
    n.Corresponds σ (s.putAll puts) (t.putAll puts) where
  left := h.left.putAll puts
  right := h.right.putAll puts
  agree i hi := by
    by_cases hmem : ∃ p ∈ puts, p.1 = i
    · obtain ⟨p, hp, rfl⟩ := hmem
      have hagree := h.agree p.1 hi
      rw [hfixed p hp] at hagree ⊢
      exact Store.bit_putAll_congr h.right h.left hputs hagree
    · have hleft : ∀ p ∈ puts, p.1 ≠ i := fun p hp heq => hmem ⟨p, hp, heq⟩
      have hright : ∀ p ∈ puts, p.1 ≠ σ i := fun p hp heq =>
        hleft p hp (σ.injective ((hfixed p hp).trans heq))
      rw [Store.bit_putAll_of_not_mem h.right hputs hright,
        Store.bit_putAll_of_not_mem h.left hputs hleft, h.agree i hi]

section

variable (h : n.Corresponds σ s t) (hr : n.Rearranged σ n') (hs : l.Sorted n level)
  (hs' : l'.Sorted n' level') (hw : n.Wellformed) (hw' : n'.Wellformed)

include h hr hs hs' hw hw'

/-- A pass settles both circuits, and there is only one way to settle. -/
theorem compute : n.Corresponds σ (s.compute l.wires) (t.compute l'.wires) := by
  have hleft := hs.compute_settledFrom hw h.left
  have hright := hs'.compute_settledFrom hw' (hr.size_eq.symm ▸ h.right)
  refine ⟨hleft.sized, hr.size_eq ▸ hright.sized, ?_⟩
  refine hs.settled_unique_below hw (hr.settled hright.settled) hleft.settled fun i hi hsource => ?_
  rw [hleft.bit_eq i hsource, hright.bit_eq _ (hr.isGateOutput_iff.not.2 hsource), h.agree i hi]

theorem cycled :
    n.Corresponds σ (Simulation.cycled l n s) (Simulation.cycled l' n' t) := by
  have hpass := h.compute hr hs hs' hw hw'
  obtain ⟨hcaptured, hkept⟩ := hs.edge_spec hw hpass.left
  obtain ⟨hcaptured', hkept'⟩ := hs'.edge_spec hw' (hr.size_eq.symm ▸ hpass.right)
  refine ⟨(hpass.left.edge _).tick, (hpass.right.edge _).tick, fun i hi => ?_⟩
  rw [Simulation.cycled, Simulation.cycled, Store.bit_tick, Store.bit_tick]
  by_cases hflop : ∃ f ∈ n.dffs, f.q = i
  · obtain ⟨f, hf, rfl⟩ := hflop
    obtain ⟨f', hf', hd, hq, -⟩ := hr.exists_flop hf
    have hvalue := hcaptured' f' hf'
    rw [hd, hq] at hvalue
    rw [hcaptured f hf, hvalue, hpass.agree f.d (hw.dff_lt f hf).1]
  · have hnone : ∀ f ∈ n.dffs, f.q ≠ i := fun f hf heq => hflop ⟨f, hf, heq⟩
    have hnone' : ∀ f ∈ n'.dffs, f.q ≠ σ i := by
      intro f' hf' heq
      obtain ⟨f, hf, -, hq, -⟩ := hr.symm.exists_flop hf'
      rw [heq, Equiv.symm_apply_apply] at hq
      exact hnone f hf hq
    rw [hkept i hnone, hkept' _ hnone', hpass.agree i hi]

end

end Corresponds

end Netlist

end NandHdl
