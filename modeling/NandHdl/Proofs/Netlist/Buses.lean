-- SUMMARY: What a name stands for: the bus of a netlist has exactly the bits that have names (`getElem?_bus`), and a simulation resolves names to it (`Simulation.resolveBus_eq_ok`).
import NandHdl.Proofs.Elaboration.Names
import NandHdl.Proofs.Optimizer.Runs

/-!
# Buses

The bits of a bus are found by their names, one after the other. The search is bounded by the number of
names, and that is no restriction, since each bit needs a name of its own.
-/

namespace NandHdl

namespace Netlist

variable {n n' : Netlist} {x : String}

/-! ## Bits by their names -/

/-- There are no more bits with names than there are names. -/
theorem le_size_names {k : Nat}
    (h : ∀ i < k, (n.signalId? (bitName x i)).isSome) : k ≤ n.names.size := by
  have hnodup : ((List.range k).map (bitName x)).Nodup :=
    List.nodup_range.map fun i j heq => (bitName_inj.1 heq).2
  have hsub : (List.range k).map (bitName x) ⊆ n.names.keys := by
    intro z hz
    obtain ⟨i, hi, rfl⟩ := List.mem_map.1 hz
    exact Std.TreeMap.mem_keys.2 (Std.TreeMap.mem_iff_isSome_getElem?.2 (h i (List.mem_range.1 hi)))
  have hle := (hnodup.subperm hsub).length_le
  rwa [List.length_map, List.length_range, Std.TreeMap.length_keys] at hle

theorem length_busFrom_le (left start : Nat) : (n.busFrom x left start).length ≤ left := by
  induction left generalizing start with
  | zero => exact Nat.le_refl 0
  | succ left ih =>
    rw [busFrom]
    split
    · exact Nat.succ_le_succ (ih (start + 1))
    · exact Nat.zero_le _

/-- A bus has the bits that have names, and it ends where there is no name. -/
theorem getElem?_busFrom {left start i : Nat} (hi : i ≤ (n.busFrom x left start).length)
    (hleft : i < left) : (n.busFrom x left start)[i]? = n.signalId? (bitName x (start + i)) := by
  induction left generalizing start i with
  | zero => exact absurd hleft (Nat.not_lt_zero i)
  | succ left ih =>
    rw [busFrom] at hi ⊢
    cases hid : n.signalId? (bitName x start) with
    | none =>
      simp only [hid, List.length_nil, Nat.le_zero] at hi
      rw [hi]
      exact hid.symm
    | some id =>
      simp only [hid, List.length_cons] at hi
      cases i with
      | zero => exact hid.symm
      | succ i =>
        have hrest := ih (Nat.le_of_succ_le_succ hi) (Nat.lt_of_succ_lt_succ hleft)
        rw [Nat.add_assoc, Nat.add_comm 1] at hrest
        exact hrest

theorem getElem?_bus {i : Nat} (hi : i ≤ (n.bus x).length) :
    (n.bus x)[i]? = n.signalId? (bitName x i) := by
  have hbits : ∀ j ≤ (n.bus x).length, j < n.names.size →
      (n.bus x)[j]? = n.signalId? (bitName x j) := fun j hj hlt =>
    (getElem?_busFrom hj hlt).trans (congrArg _ (congrArg _ (Nat.zero_add j)))
  rcases Nat.lt_or_ge i n.names.size with hlt | hge
  · exact hbits i hi hlt
  · -- The bus takes up all names, so none is left for one more bit.
    have hlength : (n.bus x).length = n.names.size :=
      Nat.le_antisymm (length_busFrom_le _ _) (hge.trans hi)
    obtain rfl : i = n.names.size := Nat.le_antisymm (hi.trans_eq hlength) hge
    rw [List.getElem?_eq_none (Nat.le_of_eq hlength)]
    by_contra hid
    refine Nat.not_succ_le_self _ (le_size_names (n := n) (x := x) fun j hj => ?_)
    rcases Nat.lt_succ_iff_lt_or_eq.1 hj with hj | rfl
    · rw [← hbits j (hlength ▸ Nat.le_of_lt hj) hj, List.getElem?_eq_getElem (hlength ▸ hj)]
      rfl
    · exact Option.isSome_iff_ne_none.2 fun hnone => hid hnone.symm

/-- A list is the bus if its entries have the names, and there is no name for one more. -/
theorem bus_eq_of_names {bits : Bits}
    (h : ∀ k ≤ bits.length, n.signalId? (bitName x k) = bits[k]?) : n.bus x = bits := by
  have hlength : (n.bus x).length = bits.length := by
    rcases Nat.lt_trichotomy (n.bus x).length bits.length with hlt | heq | hgt
    · have hend := getElem?_bus (n := n) (x := x) (Nat.le_refl _)
      rw [List.getElem?_eq_none (Nat.le_refl _), h _ (Nat.le_of_lt hlt),
        List.getElem?_eq_getElem hlt] at hend
      exact nomatch hend
    · exact heq
    · have hend := getElem?_bus (n := n) (x := x) (Nat.le_of_lt hgt)
      rw [h _ (Nat.le_refl _), List.getElem?_eq_none (Nat.le_refl bits.length),
        List.getElem?_eq_getElem hgt] at hend
      exact nomatch hend
  refine List.ext_getElem? fun k => ?_
  rcases Nat.lt_or_ge k bits.length with hlt | hge
  · rw [getElem?_bus (hlength ▸ Nat.le_of_lt hlt), h k (Nat.le_of_lt hlt)]
  · rw [List.getElem?_eq_none hge, List.getElem?_eq_none (hlength ▸ hge)]

/-- A bus is known by the names of its bits. -/
theorem bus_eq_of_bits (h : ∀ i, n'.signalId? (bitName x i) = n.signalId? (bitName x i)) :
    n'.bus x = n.bus x :=
  bus_eq_of_names fun i hi => (h i).trans (getElem?_bus hi).symm

/-- The name alone matters if there is no bus. -/
theorem targets_eq_of_bits
    (h : ∀ i, n'.signalId? (bitName x i) = n.signalId? (bitName x i))
    (hname : n.signalId? (bitName x 0) = none → n'.signalId? x = n.signalId? x) :
    n'.targets x = n.targets x := by
  rw [targets, targets, bus_eq_of_bits h]
  cases hbus : n.bus x with
  | nil =>
    have hnone := getElem?_bus (n := n) (x := x) (Nat.zero_le _)
    rw [hbus] at hnone
    exact congrArg Option.toList (hname hnone.symm)
  | cons id rest => rfl

theorem mem_targets_lt (hw : n.Wellformed) {i : SignalId} (hi : i ∈ n.targets x) :
    i < n.signals.size := by
  rw [targets] at hi
  split at hi
  · exact hw.name_lt (Option.mem_toList.1 hi)
  · exact mem_busFrom_lt hw hi

/-- The signals that a name stands for: those with the names of its bits, from bit 0 up to the first
that has no name, and without a bit 0 the signal that has the name itself. -/
def Denotes (n : Netlist) (name : String) (bits : Bits) : Prop :=
  (0 < bits.length ∧ ∀ i ≤ bits.length, n.signalId? (bitName name i) = bits[i]?) ∨
    n.signalId? (bitName name 0) = none ∧ ∃ id, n.signalId? name = some id ∧ bits = [id]

theorem denotes_iff {bits : Bits} : n.Denotes x bits ↔ bits ≠ [] ∧ bits = n.targets x := by
  have hfirst : n.signalId? (bitName x 0) = (n.bus x)[0]? := (getElem?_bus (Nat.zero_le _)).symm
  rw [Denotes, hfirst, targets]
  constructor
  · rintro (⟨hpos, hnames⟩ | ⟨hnone, id, hid, rfl⟩)
    · have hbus := bus_eq_of_names hnames
      cases hbits : bits with
      | nil => simp [hbits] at hpos
      | cons k rest => simp [hbus, hbits]
    · have hbus : n.bus x = [] := by simpa using hnone
      simp [hbus, hid]
  · rintro ⟨hne, rfl⟩
    cases hbus : n.bus x with
    | nil =>
      cases hid : n.signalId? x with
      | none => simp [hbus, hid] at hne
      | some id => exact .inr (by simp)
    | cons k rest =>
      refine .inl ⟨Nat.succ_pos _, fun i hi => ?_⟩
      rw [← getElem?_bus (hbus ▸ hi), hbus]

end Netlist

namespace Simulation

variable {sim : Simulation} {n : Netlist} {l : LevelizedNetlist} {level : GateId → Nat}

/-- A simulation resolves a name to the signals that the name stands for. -/
theorem resolveBus_eq_ok (heq : sim.levelized = l) (hs : l.Sorted n level) {name : String}
    {bits : Bits} : sim.resolveBus name = .ok bits ↔ n.Denotes name bits := by
  rw [Netlist.denotes_iff, Netlist.targets, resolveBus, resolve, heq, hs.bus_eq, hs.signalId?_eq]
  cases n.bus name with
  | nil =>
    cases n.signalId? name with
    | none => simp [Except.map]
    | some id => simp +contextual [Except.map, eq_comm]
  | cons k rest => simp +contextual [eq_comm]

end Simulation

end NandHdl
