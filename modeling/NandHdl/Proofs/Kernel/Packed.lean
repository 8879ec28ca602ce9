-- SUMMARY: The engine over words does what the engine over objects does: gate for gate, and for a whole clock edge through the scratch words.
import NandHdl.Kernel.Packed
import NandHdl.Proofs.Kernel.Object

/-!
# The engine over words agrees

A program of gates acts on a store exactly as the gates do, whatever the store, as long as the
signal numbers fit in a word. A clock edge leaves the same store behind: the scratch words hold one
bit per flip-flop, and none of them is lost or read before it was written.
-/

namespace NandHdl

namespace Packed

/-! ## Words -/

/-- A bit as a word. -/
def bitWord (b : Bool) : UInt32 := if b then 1 else 0

theorem word_position {id : Nat} (h : id < 2 ^ 32) : (UInt32.ofNat id >>> 5).toNat = id / 32 := by
  rw [UInt32.toNat_shiftRight, UInt32.toNat_ofNat', Nat.mod_eq_of_lt h, Nat.shiftRight_eq_div_pow]
  rfl

theorem bit_position {id : Nat} (h : id < 2 ^ 32) :
    UInt32.ofNat id &&& 31 = UInt32.ofNat (id % 32) := by
  apply UInt32.toNat_inj.1
  have hmod : id % 32 < 2 ^ 32 := by omega
  rw [UInt32.toNat_and, UInt32.toNat_ofNat', UInt32.toNat_ofNat', Nat.mod_eq_of_lt h,
    Nat.mod_eq_of_lt hmod]
  exact Nat.and_two_pow_sub_one_eq_mod id 5

theorem shift_toNat {i : Nat} (hi : i < 32) : (UInt32.ofNat i).toNat % 32 = i := by
  rw [UInt32.toNat_ofNat']
  omega

theorem selected_bit (w : UInt32) {i : Nat} (hi : i < 32) :
    w >>> UInt32.ofNat i &&& 1 = bitWord (w.toNat.testBit i) := by
  apply UInt32.toNat_inj.1
  rw [UInt32.toNat_and, UInt32.toNat_shiftRight, shift_toNat hi, UInt32.toNat_one, Nat.testBit,
    Nat.and_comm 1]
  rcases Nat.mod_two_eq_zero_or_one (w.toNat >>> i) with h | h
  · simp [Nat.and_one_is_mod, h, bitWord]
  · simp [Nat.and_one_is_mod, h, bitWord]

theorem testBit_shifted {i j : Nat} (hi : i < 32) (b : Bool) :
    (bitWord b <<< UInt32.ofNat i).toNat.testBit j = (decide (i = j) && b) := by
  cases b with
  | true => rw [bitWord, if_pos rfl, Store.testBit_mask hi, Bool.and_true]
  | false => simp [bitWord]

theorem put_eq (w : UInt32) {i : Nat} (hi : i < 32) (b : Bool) :
    put w (UInt32.ofNat i) (bitWord b) = Store.withBit w i b := by
  apply Store.eq_of_testBit
  intro j hj
  rw [Store.testBit_withBit hi hj, put, UInt32.toNat_or, Nat.testBit_or, UInt32.toNat_and,
    Nat.testBit_and, Store.testBit_not hj, Store.testBit_mask hi, testBit_shifted hi]
  by_cases h : j = i
  · simp [h]
  · simp [h, Ne.symm h]

theorem nand_bitWord (a b : Bool) : (bitWord a &&& bitWord b) ^^^ 1 = bitWord !(a && b) := by
  cases a <;> cases b <;> rfl

/-! ## Signals -/

theorem get_eq {id : Nat} (h : id < 2 ^ 32) :
    get (UInt32.ofNat id) = (do return bitWord (← Store.read id)) := by
  have hbit : id % 32 < 32 := Nat.mod_lt _ (by omega)
  simp only [get, Store.read, word_position h, bit_position h, selected_bit _ hbit,
    bind_assoc, pure_bind]

theorem set_eq {id : Nat} (h : id < 2 ^ 32) (b : Bool) :
    set (UInt32.ofNat id) (bitWord b) = Store.write id b := by
  have hbit : id % 32 < 32 := Nat.mod_lt _ (by omega)
  simp only [set, Store.write, word_position h, bit_position h, put_eq _ hbit]

/-! ## Gates -/

/-- The program of a gate. -/
def gateCode (g : GateWires) : List UInt32 :=
  [UInt32.ofNat g.in1, UInt32.ofNat g.in2, UInt32.ofNat g.out]

/-- The program of gates acts as the gates do. -/
theorem evaluate_eq {gs : List GateWires} (h : ∀ g ∈ gs, g.Below (2 ^ 32)) :
    evaluate (gs.flatMap gateCode) = ObjectKernel.evalGates gs := by
  induction gs with
  | nil => rfl
  | cons g rest ih =>
    simp only [List.mem_cons, forall_eq_or_imp] at h
    obtain ⟨⟨h1, h2, hout⟩, hrest⟩ := h
    simp only [List.flatMap_cons, gateCode, List.cons_append, List.nil_append, evaluate, get_eq h1,
      get_eq h2, bind_assoc, pure_bind, nand_bitWord, set_eq hout, ObjectKernel.evalGates,
      ObjectKernel.evalGate]
    rw [← ih hrest]

/-! ## Flip-flops -/

/-- The program of a flip-flop. -/
def flopCode (f : FlopWires) : List UInt32 := [UInt32.ofNat f.d, UInt32.ofNat f.q]

/-- A bit of the scratch words; 0 past the end. -/
def scratchBit (scratch : Array UInt32) (i : Nat) : Bool :=
  (scratch.getD (i / 32) 0).toNat.testBit (i % 32)

theorem scratchBit_modify {scratch : Array UInt32} {i : Nat} (h : i / 32 < scratch.size) (b : Bool)
    (j : Nat) :
    scratchBit (scratch.modify (i / 32) fun w => put w (UInt32.ofNat (i % 32)) (bitWord b)) j =
      if j = i then b else scratchBit scratch j := by
  have hrow := @Store.testBit_modify_row scratch 0 i (by rwa [Nat.zero_add]) b j
  simp only [Nat.zero_add] at hrow
  simp only [put_eq _ (Nat.mod_lt i (by decide : 0 < 32))]
  exact hrow

variable {s : Store} {signals count : Nat}

/-- Sampling reads every `d` into a bit of its own and touches nothing else. -/
theorem sample_run {flops : List FlopWires} (scratch : Array UInt32) (i : Nat)
    (hs : s.SizedFor signals) (hsmall : count < 2 ^ 32) (hle : count ≤ signals)
    (hflops : ∀ f ∈ flops, f.d < count) (hroom : i + flops.length ≤ 32 * scratch.size) :
    ∃ scratch', sample scratch i (flops.flatMap flopCode) s = .ok scratch' s ∧
      scratch'.size = scratch.size ∧
      (∀ j < i, scratchBit scratch' j = scratchBit scratch j) ∧
      ∀ k f, flops[k]? = some f → scratchBit scratch' (i + k) = s.bit f.d := by
  induction flops generalizing scratch i with
  | nil => exact ⟨scratch, rfl, rfl, fun _ _ => rfl, by simp⟩
  | cons f rest ih =>
    simp only [List.mem_cons, forall_eq_or_imp] at hflops
    rw [List.length_cons] at hroom
    have hword : i / 32 < scratch.size := by omega
    have hd : f.d < 2 ^ 32 := Nat.lt_trans hflops.1 hsmall
    let next := scratch.modify (i / 32) fun w => put w (UInt32.ofNat (i % 32)) (bitWord (s.bit f.d))
    have hnext : next.size = scratch.size := Array.size_modify
    obtain ⟨scratch', hrun, hsize, hbefore, hbits⟩ :=
      ih next (i + 1) hflops.2 (by omega)
    have hread : get (UInt32.ofNat f.d) s = .ok (bitWord (s.bit f.d)) s := by
      simp [get_eq hd, bind, EStateM.bind, Store.read_run hs (Nat.lt_of_lt_of_le hflops.1 hle), pure,
        EStateM.pure]
    refine ⟨scratch', ?_, hsize.trans hnext, fun j hj => ?_, fun k g hk => ?_⟩
    · simp only [List.flatMap_cons, flopCode, List.cons_append, List.nil_append, sample, if_pos hword,
        bind, EStateM.bind, hread]
      exact hrun
    · rw [hbefore j (by omega), scratchBit_modify hword, if_neg (by omega)]
    · cases k with
      | zero =>
        cases hk
        rw [Nat.add_zero, hbefore i (by omega), scratchBit_modify hword, if_pos rfl]
      | succ k =>
        have := hbits k g hk
        rwa [Nat.add_right_comm, Nat.add_assoc] at this

/-- Updating writes the bits that the scratch words hold. -/
theorem update_run {flops : List FlopWires} (scratch : Array UInt32) (i : Nat) (v : Valuation)
    (hs : s.SizedFor signals) (hsmall : count < 2 ^ 32) (hle : count ≤ signals)
    (hflops : ∀ f ∈ flops, f.q < count) (hroom : i + flops.length ≤ 32 * scratch.size)
    (hbits : ∀ k f, flops[k]? = some f → scratchBit scratch (i + k) = v f.d) :
    update scratch i (flops.flatMap flopCode) s =
      .ok () (s.putAll (FlopWires.captured flops v)) := by
  induction flops generalizing s i with
  | nil => rfl
  | cons f rest ih =>
    simp only [List.mem_cons, forall_eq_or_imp] at hflops
    rw [List.length_cons] at hroom
    have hword : i / 32 < scratch.size := by omega
    have hq : f.q < 2 ^ 32 := Nat.lt_trans hflops.1 hsmall
    have hbit : scratch[i / 32].toNat.testBit (i % 32) = v f.d := by
      simpa [scratchBit, hword] using hbits 0 f rfl
    have hrest := ih (i + 1) (hs.put f.q (v f.d)) hflops.2 (by omega) fun k g hk => by
      have := hbits (k + 1) g hk
      rwa [← Nat.add_assoc, Nat.add_right_comm] at this
    simp only [List.flatMap_cons, flopCode, List.cons_append, List.nil_append, update,
      Array.getElem?_eq_getElem hword, selected_bit _ (Nat.mod_lt i (by omega : 32 > 0)), hbit,
      set_eq hq, bind, EStateM.bind, Store.write_run hs (Nat.lt_of_lt_of_le hflops.1 hle), hrest]
    rfl

/-- A clock edge leaves the store that the engine over objects leaves. -/
theorem capture_run {flops : List FlopWires} {scratch : Array UInt32} (hs : s.SizedFor signals)
    (hsmall : count < 2 ^ 32) (hle : count ≤ signals)
    (hflops : ∀ f ∈ flops, f.d < count ∧ f.q < count) (hroom : flops.length ≤ 32 * scratch.size) :
    ∃ scratch', capture (flops.flatMap flopCode) scratch s =
        .ok scratch' (s.edge flops) ∧
      scratch'.size = scratch.size := by
  obtain ⟨scratch', hsample, hsize, -, hbits⟩ := sample_run scratch 0 hs hsmall hle
    (fun f hf => (hflops f hf).1) (by omega)
  have hupdate := update_run scratch' 0 s.bit hs hsmall hle
    (fun f hf => (hflops f hf).2) (by omega) hbits
  refine ⟨scratch', ?_, hsize⟩
  simp [capture, bind, EStateM.bind, hsample, hupdate, pure, EStateM.pure, Store.edge]

end Packed

end NandHdl
