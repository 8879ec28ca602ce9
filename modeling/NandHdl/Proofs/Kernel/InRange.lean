-- SUMMARY: Actions that stay within a store (`Store.Within`), and that both engines of a levelized netlist act so, however many signals it has.
import NandHdl.Proofs.Kernel.Engine

/-!
# Engines stay within the store

An action stays within stores of a size if on each of them it answers and keeps the size. The laws
here say nothing about values, and so they need no bound on the number of signals: a signal number
that is cut off to fit in a word only gets smaller, and its word is still there.
-/

namespace NandHdl

namespace Store

variable {α β : Type} {signals : Nat}

/-- On every store with the words for so many signals the action answers as asked for, and it keeps
the words. -/
def Within (signals : Nat) (x : StoreM α) (Q : α → Prop) : Prop :=
  ∀ s : Store, s.SizedFor signals → ∃ a s', x s = .ok a s' ∧ s'.SizedFor signals ∧ Q a

theorem within_pure {a : α} {Q : α → Prop} (h : Q a) : Within signals (pure a) Q :=
  fun s hs => ⟨a, s, rfl, hs, h⟩

theorem Within.bind {x : StoreM α} {f : α → StoreM β} {P : α → Prop} {Q : β → Prop}
    (hx : Within signals x P) (hf : ∀ a, P a → Within signals (f a) Q) :
    Within signals (x >>= f) Q := by
  intro s hs
  obtain ⟨a, s₁, hrun, hs₁, ha⟩ := hx s hs
  obtain ⟨b, s₂, hrest, hs₂, hb⟩ := hf a ha s₁ hs₁
  refine ⟨b, s₂, ?_, hs₂, hb⟩
  simp only [Bind.bind, EStateM.bind, hrun]
  exact hrest

/-! ## Words and signals -/

theorem readWord_within {position : Nat} (h : position < wordsFor signals) :
    Within signals (readWord position) fun _ => True := by
  intro s hs
  have hlt : position < s.words.size := hs.symm ▸ h
  exact ⟨s.words[position], s, by rw [readWord, Array.getElem?_eq_getElem hlt], hs, trivial⟩

theorem modifyWord_within {position : Nat} (h : position < wordsFor signals)
    (f : UInt32 → UInt32) : Within signals (modifyWord position f) fun _ => True := by
  intro s hs
  have hlt : position < s.words.size := hs.symm ▸ h
  refine ⟨(), _, by rw [modifyWord, if_pos hlt], ?_, trivial⟩
  rw [SizedFor, Array.size_modify, hs]

theorem word_lt_wordsFor {i : Nat} (h : i < signals) : headerWords + i / 32 < wordsFor signals := by
  rw [wordsFor]
  omega

theorem read_within {id : SignalId} (h : id < signals) :
    Within signals (read id) fun _ => True :=
  (readWord_within (word_lt_wordsFor h)).bind fun _ _ => within_pure trivial

theorem write_within {id : SignalId} (h : id < signals) (value : Bool) :
    Within signals (write id value) fun _ => True :=
  modifyWord_within (word_lt_wordsFor h) _

theorem readAll_within {ids : List SignalId} (h : ∀ i ∈ ids, i < signals) :
    Within signals (readAll ids) fun _ => True := by
  induction ids with
  | nil => exact within_pure trivial
  | cons id rest ih =>
    rw [List.forall_mem_cons] at h
    apply (read_within h.1).bind
    intro value _
    apply (ih h.2).bind
    exact fun _ _ => within_pure trivial

theorem readBits_within {ids : Bits} (h : ∀ i ∈ ids, i < signals) :
    Within signals (readBits ids) fun _ => True :=
  (readAll_within fun i hi => h i (List.mem_of_mem_take hi)).bind fun _ _ => within_pure trivial

theorem writeBits_within {ids : Bits} (h : ∀ i ∈ ids, i < signals) (value : UInt64) :
    Within signals (writeBits ids value) fun _ => True := by
  unfold writeBits
  generalize 0 = position
  induction ids generalizing position with
  | nil => exact within_pure trivial
  | cons id rest ih =>
    rw [List.forall_mem_cons] at h
    exact (write_within h.1 _).bind fun _ _ => ih h.2 (position + 1)

theorem incrementCycle_within : Within signals incrementCycle fun _ => True :=
  modifyWord_within (by rw [wordsFor, cycleWord, headerWords]; omega) _

end Store

/-! ## The engine over words -/

namespace Packed

open Store

variable {signals : Nat}

theorem position_lt {id : UInt32} (h : id.toNat < signals) :
    headerWords + (id >>> 5).toNat < wordsFor signals := by
  have hword : (id >>> 5).toNat = id.toNat / 32 := by
    rw [UInt32.toNat_shiftRight, Nat.shiftRight_eq_div_pow]
    rfl
  rw [hword]
  exact word_lt_wordsFor h

theorem get_within {id : UInt32} (h : id.toNat < signals) :
    Within signals (get id) fun _ => True :=
  (readWord_within (position_lt h)).bind fun _ _ => within_pure trivial

theorem set_within {id : UInt32} (h : id.toNat < signals) (bit : UInt32) :
    Within signals (set id bit) fun _ => True :=
  modifyWord_within (position_lt h) _

theorem evaluate_within {code : List UInt32} (h : ∀ id ∈ code, id.toNat < signals) :
    Within signals (evaluate code) fun _ => True := by
  fun_induction evaluate code with
  | case1 in1 in2 out rest ih =>
    simp only [List.forall_mem_cons] at h
    obtain ⟨h1, h2, hout, hrest⟩ := h
    apply (get_within h1).bind
    intro a _
    apply (get_within h2).bind
    intro b _
    exact (set_within hout _).bind fun _ _ => ih hrest
  | case2 => exact within_pure trivial

/-- There is a scratch bit for every flip-flop that is still to come. -/
theorem sample_within {code : List UInt32} {scratch : Array UInt32} {i : Nat}
    (h : ∀ id ∈ code, id.toNat < signals) (hroom : i + code.length / 2 ≤ 32 * scratch.size) :
    Within signals (sample scratch i code) fun scratch' => scratch'.size = scratch.size := by
  fun_induction sample scratch i code with
  | case1 scratch i d q rest hword ih =>
    simp only [List.forall_mem_cons] at h
    simp only [List.length_cons] at hroom
    apply (get_within h.1).bind
    intro bit _
    have hrest := ih bit h.2.2 (by rw [Array.size_modify]; omega)
    rwa [Array.size_modify] at hrest
  | case2 scratch i d q rest hword =>
    simp only [List.length_cons] at hroom
    omega
  | case3 => exact within_pure rfl

theorem update_within {code : List UInt32} {scratch : Array UInt32} {i : Nat}
    (h : ∀ id ∈ code, id.toNat < signals) (hroom : i + code.length / 2 ≤ 32 * scratch.size) :
    Within signals (update scratch i code) fun _ => True := by
  fun_induction update scratch i code with
  | case1 i d q rest word hword ih =>
    simp only [List.forall_mem_cons] at h
    simp only [List.length_cons] at hroom
    exact (set_within h.2.1 _).bind fun _ _ => ih h.2.2 (by omega)
  | case2 i d q rest hword =>
    simp only [List.length_cons] at hroom
    have := Array.getElem?_eq_none_iff.1 hword
    omega
  | case3 => exact within_pure trivial

theorem capture_within {code : List UInt32} {scratch : Array UInt32}
    (h : ∀ id ∈ code, id.toNat < signals) (hroom : code.length / 2 ≤ 32 * scratch.size) :
    Within signals (capture code scratch) fun scratch' => scratch'.size = scratch.size := by
  apply (sample_within h (by omega)).bind
  intro scratch' hsize
  apply (update_within h (by omega)).bind
  exact fun _ _ => within_pure hsize

end Packed

/-! ## Both engines -/

/-- All signals of the engine are below a bound, and it has a scratch bit for every flip-flop. -/
inductive Kernel.Below (signals : Nat) : Kernel → Prop where
  | object {k : ObjectKernel} : (∀ g ∈ k.levels.flatten, g.Below signals) →
      (∀ f ∈ k.flops, f.d < signals ∧ f.q < signals) → Below signals (.object k)
  | packed {k : PackedKernel} : (∀ id ∈ k.gates, id.toNat < signals) →
      (∀ id ∈ k.flops, id.toNat < signals) → k.flops.length / 2 ≤ 32 * k.scratch.size →
      Below signals (.packed k)

theorem UInt32.toNat_ofNat_lt {id signals : Nat} (h : id < signals) :
    (UInt32.ofNat id).toNat < signals := by
  rw [UInt32.toNat_ofNat']
  exact Nat.lt_of_le_of_lt (Nat.mod_le _ _) h

namespace Kernel

variable {k : Kernel} {signals : Nat}

/-- The signal numbers of a program are those of the circuit, or smaller ones. -/
theorem Runs.below {wires : List GateWires} {flops : List FlopWires} (h : k.Runs wires flops)
    (hwires : ∀ g ∈ wires, g.Below signals) (hflops : ∀ f ∈ flops, f.d < signals ∧ f.q < signals) :
    k.Below signals := by
  cases h with
  | @object k hlevels hk => exact .object (by rwa [hlevels]) (by rwa [hk])
  | @packed k hgates hk hroom =>
    refine .packed ?_ ?_ ?_
    · intro id hid
      rw [hgates, List.mem_flatMap] at hid
      obtain ⟨g, hg, hid⟩ := hid
      obtain ⟨h1, h2, hout⟩ := hwires g hg
      simp only [Packed.gateCode, List.mem_cons, List.not_mem_nil, or_false] at hid
      rcases hid with rfl | rfl | rfl
      · exact UInt32.toNat_ofNat_lt h1
      · exact UInt32.toNat_ofNat_lt h2
      · exact UInt32.toNat_ofNat_lt hout
    · intro id hid
      rw [hk, List.mem_flatMap] at hid
      obtain ⟨f, hf, hid⟩ := hid
      obtain ⟨hd, hq⟩ := hflops f hf
      simp only [Packed.flopCode, List.mem_cons, List.not_mem_nil, or_false] at hid
      rcases hid with rfl | rfl
      · exact UInt32.toNat_ofNat_lt hd
      · exact UInt32.toNat_ofNat_lt hq
    · have hlength : k.flops.length = 2 * flops.length := by
        rw [hk]
        simp [List.length_flatMap, Packed.flopCode, Nat.mul_comm]
      omega

theorem Below.evaluate (h : k.Below signals) :
    Store.Within signals k.evaluate fun _ => True := by
  cases h with
  | @object k hgates _ =>
    intro s hs
    refine ⟨(), _, ?_, (Store.compute_spec hs hgates).1, trivial⟩
    show ObjectKernel.evalLevels k.levels s = _
    rw [ObjectKernel.evalLevels_eq, ObjectKernel.evalGates_run hs hgates]
  | packed hgates _ _ => exact Packed.evaluate_within hgates

theorem Below.capture (h : k.Below signals) :
    Store.Within signals k.capture (Kernel.Below signals) := by
  cases h with
  | @object k hgates hflops =>
    have hk : Store.Within signals k.capture fun _ => True := fun s hs =>
      ⟨(), _, ObjectKernel.capture_run hs hflops, hs.edge k.flops, trivial⟩
    exact hk.bind fun _ _ => Store.within_pure (.object hgates hflops)
  | @packed k hgates hflops hroom =>
    apply (Packed.capture_within hflops hroom).bind
    intro scratch hsize
    exact Store.within_pure (.packed hgates hflops (hsize ▸ hroom))

theorem Below.cycle (h : k.Below signals) :
    Store.Within signals k.cycle (Kernel.Below signals) := by
  apply h.evaluate.bind
  rintro - -
  apply h.capture.bind
  intro next hnext
  apply Store.incrementCycle_within.bind
  exact fun _ _ => Store.within_pure hnext

end Kernel

end NandHdl
