-- SUMMARY: Both engines of a levelized netlist can be built and run the same gates and flip-flops (`Kernel.Runs`).
import NandHdl.Kernel.Basic
import NandHdl.Proofs.Kernel.Packed

/-!
# Engines

An engine is described by the gates it computes, in order, and by its flip-flops. Two engines with
the same description act on stores in the same way, whatever their kind.
-/

namespace NandHdl

/-- The engine computes these gates in this order and captures these flip-flops. -/
inductive Kernel.Runs (wires : List GateWires) (flops : List FlopWires) : Kernel → Prop where
  | object {k : ObjectKernel} : k.levels.flatten = wires → k.flops = flops →
      Runs wires flops (.object k)
  | packed {k : PackedKernel} : k.gates = wires.flatMap Packed.gateCode →
      k.flops = flops.flatMap Packed.flopCode → flops.length ≤ 32 * k.scratch.size →
      Runs wires flops (.packed k)

/-! ## Building -/

/-- The flip-flops of a netlist as engines see them. -/
def Netlist.flops (n : Netlist) : List FlopWires := n.dffs.toList.map Dff.wires

theorem Netlist.Wellformed.flop_lt {n : Netlist} (hw : n.Wellformed) :
    ∀ f ∈ n.flops, f.d < n.signals.size ∧ f.q < n.signals.size := by
  intro f hf
  obtain ⟨dff, hdff, rfl⟩ := List.mem_map.1 hf
  have hlt := hw.dff_lt dff (Array.mem_toList_iff.1 hdff)
  exact ⟨hlt.1, hlt.2.2⟩

namespace LevelizedNetlist.Sorted

variable {l : LevelizedNetlist} {n : Netlist} {level : GateId → Nat}

theorem packedKernel_ok (h : l.Sorted n level) :
    ∃ k, PackedKernel.ofLevelized l = .ok k ∧ k.gates = l.wires.flatMap Packed.gateCode ∧
      k.flops = n.flops.flatMap Packed.flopCode ∧ n.flops.length ≤ 32 * k.scratch.size := by
  have hlevel : ∀ ids ∈ l.levels.toList, PackedKernel.compile l.netlist ids.toList =
      .ok ((ids.toList.map l.netlist.wiresAt).flatMap Packed.gateCode) := by
    intro ids hids
    have hrows : ∀ g ∈ ids.toList, (do
        let gate ← Checked.get l.netlist.gates g
        return [UInt32.ofNat gate.in1, UInt32.ofNat gate.in2, UInt32.ofNat gate.out] :
          Checked (List UInt32)) = .ok (Packed.gateCode (l.netlist.wiresAt g)) := by
      intro g hg
      obtain ⟨gate, hget, hwires⟩ := h.getGate_ok hids hg
      rw [hget, ← hwires]
      rfl
    rw [PackedKernel.compile, List.mapM_eq_ok hrows, List.flatMap_def, List.map_map]
    rfl
  have hflops : l.netlist.dffs.toList.flatMap (fun f => [UInt32.ofNat f.d, UInt32.ofNat f.q]) =
      n.flops.flatMap Packed.flopCode := by
    rw [h.netlist_eq, Netlist.flops, List.flatMap_map]
    rfl
  have hgates : ∀ levels : List (Array GateId),
      (levels.map fun ids => (ids.toList.map l.netlist.wiresAt).flatMap Packed.gateCode).flatten =
        ((levels.map Array.toList).flatten.map l.netlist.wiresAt).flatMap Packed.gateCode := by
    intro levels
    induction levels with
    | nil => rfl
    | cons ids rest ih => simp only [List.map_cons, List.flatten_cons, List.map_append,
        List.flatMap_append, ih]
  have hlength : (n.flops.flatMap Packed.flopCode).length = 2 * n.flops.length := by
    simp [List.length_flatMap, Packed.flopCode, Nat.mul_comm]
  refine ⟨_, by rw [PackedKernel.ofLevelized, List.mapM_eq_ok hlevel]; rfl, ?_, hflops, ?_⟩
  · exact hgates l.levels.toList
  · simp only [hflops, hlength, Array.size_replicate]
    omega

/-- An engine of either kind can be built. The engine over words needs numbers that fit. -/
theorem kernel_ok (h : l.Sorted n level) (kind : KernelKind) :
    ∃ k, Kernel.ofLevelized l kind = .ok k ∧ k.Runs l.wires n.flops := by
  cases kind with
  | object =>
    obtain ⟨k, hok, hlevels, hflops⟩ := h.objectKernel_ok
    exact ⟨.object k, by rw [Kernel.ofLevelized, hok]; rfl, .object hlevels hflops⟩
  | batch =>
    obtain ⟨k, hok, hgates, hflops, hroom⟩ := h.packedKernel_ok
    exact ⟨.packed k, by rw [Kernel.ofLevelized, hok]; rfl, .packed hgates hflops hroom⟩

end LevelizedNetlist.Sorted

theorem Kernel.kind_ofLevelized {l : LevelizedNetlist} {kind : KernelKind} {k : Kernel}
    (h : Kernel.ofLevelized l kind = .ok k) : k.kind = kind := by
  cases kind with
  | object =>
    obtain ⟨_, -, h⟩ := Except.bind_eq_ok.1 h
    cases h
    rfl
  | batch =>
    obtain ⟨_, -, h⟩ := Except.bind_eq_ok.1 h
    cases h
    rfl

/-! ## Running -/

/-- The numbers of the signals below `signals` fit into the words of the engine. -/
def Kernel.Fits (k : Kernel) (signals : Nat) : Prop := k.kind = .batch → signals < 2 ^ 32

namespace Kernel

variable {k : Kernel} {wires : List GateWires} {flops : List FlopWires} {s : Store}
  {signals count : Nat}

/-- A combinational pass computes the gates. -/
theorem evaluate_run (h : k.Runs wires flops) (hfits : k.Fits count) (hs : s.SizedFor signals)
    (hle : count ≤ signals) (hwires : ∀ g ∈ wires, g.Below count) :
    k.evaluate s = .ok () (s.compute wires) := by
  have hgates := ObjectKernel.evalGates_run hs fun g hg => (hwires g hg).mono hle
  cases h with
  | @object k hlevels _ =>
    show ObjectKernel.evalLevels k.levels s = _
    rw [ObjectKernel.evalLevels_eq, hlevels, hgates]
  | @packed k hcode _ _ =>
    have hsmall : ∀ g ∈ wires, g.Below (2 ^ 32) := fun g hg =>
      (hwires g hg).mono (Nat.le_of_lt (hfits rfl))
    show Packed.evaluate k.gates s = _
    rw [hcode, Packed.evaluate_eq hsmall, hgates]

/-- A clock edge captures the flip-flops. The engine for the next one runs the same circuit. -/
theorem capture_run (h : k.Runs wires flops) (hfits : k.Fits count) (hs : s.SizedFor signals)
    (hle : count ≤ signals) (hflops : ∀ f ∈ flops, f.d < count ∧ f.q < count) :
    ∃ next, k.capture s = .ok next (s.edge flops) ∧ next.Runs wires flops ∧ next.kind = k.kind := by
  cases h with
  | @object k hlevels hk =>
    refine ⟨.object k, ?_, .object hlevels hk, rfl⟩
    subst hk
    have hrun := ObjectKernel.capture_run hs fun f hf =>
      (hflops f hf).imp (fun hd => Nat.lt_of_lt_of_le hd hle) fun hq => Nat.lt_of_lt_of_le hq hle
    simp [capture, bind, EStateM.bind, hrun, pure, EStateM.pure]
  | @packed k hgates hk hroom =>
    obtain ⟨scratch, hrun, hsize⟩ := Packed.capture_run hs (hfits rfl) hle hflops hroom
    refine ⟨.packed { k with scratch }, ?_, .packed hgates hk (hsize ▸ hroom), rfl⟩
    simp [capture, bind, EStateM.bind, hk, hrun, pure, EStateM.pure]

/-- A cycle computes the gates, captures the flip-flops and counts. -/
theorem cycle_run (h : k.Runs wires flops) (hfits : k.Fits count) (hs : s.SizedFor signals)
    (hle : count ≤ signals) (hwires : ∀ g ∈ wires, g.Below count)
    (hflops : ∀ f ∈ flops, f.d < count ∧ f.q < count) :
    ∃ next, k.cycle s = .ok next ((s.compute wires).edge flops).tick ∧ next.Runs wires flops ∧
      next.kind = k.kind := by
  have hsettled := (Store.compute_spec hs fun g hg => (hwires g hg).mono hle).1
  obtain ⟨next, hrun, hnext, hkind⟩ := capture_run h hfits hsettled hle hflops
  have htick := Store.incrementCycle_run (hsettled.edge flops)
  refine ⟨next, ?_, hnext, hkind⟩
  simp only [cycle, bind, EStateM.bind, evaluate_run h hfits hs hle hwires, hrun, htick]
  rfl

end Kernel

end NandHdl
