-- SUMMARY: Only the end of a clock cycle changes the cycle count (`Store.KeepsCycle`, `Kernel.cycle_counts`), in stores of any size.
import NandHdl.Proofs.Kernel.InRange
import NandHdl.Proofs.Simulation.History

/-!
# The cycle count

The cycle count is a word of the header, and signals lie behind the header. An engine therefore
leaves the count alone in its passes and clock edges, also where it reads or writes the bit of a
wrong signal because a number does not fit in a word. A clock cycle counts one more at its end.
-/

namespace NandHdl

namespace Store

variable {α β : Type}

/-- If the action succeeds, it leaves the cycle count as it was. -/
def KeepsCycle (x : StoreM α) : Prop := ∀ s a t, x s = .ok a t → t.cycle = s.cycle

theorem keepsCycle_pure (a : α) : KeepsCycle (pure a : StoreM α) := by
  rintro s b t ⟨⟩
  rfl

theorem keepsCycle_throw (f : Fault) : KeepsCycle (throw f : StoreM α) := nofun

theorem bind_eq_ok {x : StoreM α} {f : α → StoreM β} {s t : Store} {b : β} :
    (x >>= f) s = .ok b t ↔ ∃ a s₁, x s = .ok a s₁ ∧ f a s₁ = .ok b t := by
  simp only [Bind.bind, EStateM.bind]
  cases hx : x s with
  | ok a s₁ => simp
  | error e s₁ => simp

theorem KeepsCycle.bind {x : StoreM α} {f : α → StoreM β} (hx : KeepsCycle x)
    (hf : ∀ a, KeepsCycle (f a)) : KeepsCycle (x >>= f) := by
  intro s b t h
  obtain ⟨a, s₁, hfirst, hrest⟩ := bind_eq_ok.1 h
  exact (hf a _ _ _ hrest).trans (hx _ _ _ hfirst)

/-! ## Words and signals -/

theorem readWord_keepsCycle (position : Nat) : KeepsCycle (readWord position) := by
  intro s a t h
  unfold readWord at h
  split at h
  · cases h
    rfl
  · cases h

theorem modifyWord_keepsCycle {position : Nat} (hposition : position ≠ cycleWord)
    (f : UInt32 → UInt32) : KeepsCycle (modifyWord position f) := by
  intro s a t h
  unfold modifyWord at h
  split at h
  · cases h
    rw [cycle, cycle, Array.getD_eq_getD_getElem?, Array.getD_eq_getD_getElem?,
      Array.getElem?_modify, if_neg hposition]
  · cases h

theorem behind_header (k : Nat) : headerWords + k ≠ cycleWord := by
  rw [headerWords, cycleWord]
  omega

theorem read_keepsCycle (id : SignalId) : KeepsCycle (read id) :=
  (readWord_keepsCycle _).bind fun _ => keepsCycle_pure _

theorem write_keepsCycle (id : SignalId) (value : Bool) : KeepsCycle (write id value) :=
  modifyWord_keepsCycle (behind_header _) _

theorem readAll_keepsCycle (ids : List SignalId) : KeepsCycle (readAll ids) := by
  induction ids with
  | nil => exact keepsCycle_pure _
  | cons id rest ih =>
    exact (read_keepsCycle id).bind fun _ => ih.bind fun _ => keepsCycle_pure _

theorem writeFrom_keepsCycle (value : UInt64) (position : Nat) (ids : Bits) :
    KeepsCycle (writeFrom value position ids) := by
  induction ids generalizing position with
  | nil => exact keepsCycle_pure _
  | cons id rest ih => exact (write_keepsCycle id _).bind fun _ => ih (position + 1)

theorem setAll_keepsCycle (ids : List SignalId) : KeepsCycle (setAll ids) := by
  induction ids with
  | nil => exact keepsCycle_pure _
  | cons id rest ih => exact (write_keepsCycle id true).bind fun _ => ih

/-- After a reset the cycles count from 0. -/
theorem cycle_forNetlist {n : Netlist} {s : Store} (h : forNetlist n = .ok s) : s.cycle = 0 := by
  unfold forNetlist at h
  split at h
  · next s' hrun =>
    cases h
    exact (setAll_keepsCycle _ _ _ _ hrun).trans (cycle_new _)
  · cases h

/-- The count goes on by one unless it is at its end. -/
theorem incrementCycle_counts {s t : Store} {u : Unit} (h : incrementCycle s = .ok u t) :
    t.cycle = s.cycle + 1 := by
  unfold incrementCycle modifyWord at h
  split at h
  · next hlt =>
    cases h
    simp only [cycle, Array.getD_eq_getD_getElem?, Array.getElem?_modify, if_true,
      Array.getElem?_eq_getElem hlt, Option.map_some, Option.getD_some]
  · cases h

end Store

open Store

/-! ## The engine over objects -/

namespace ObjectKernel

theorem evalGates_keepsCycle (gates : List GateWires) : KeepsCycle (evalGates gates) := by
  induction gates with
  | nil => exact keepsCycle_pure _
  | cons g rest ih =>
    have hgate : KeepsCycle (evalGate g) :=
      (read_keepsCycle g.in1).bind fun _ => (read_keepsCycle g.in2).bind fun _ =>
        write_keepsCycle g.out _
    exact hgate.bind fun _ => ih

theorem evalLevels_keepsCycle (levels : List (List GateWires)) :
    KeepsCycle (evalLevels levels) := by
  induction levels with
  | nil => exact keepsCycle_pure _
  | cons level rest ih => exact (evalGates_keepsCycle level).bind fun _ => ih

theorem writeFlops_keepsCycle (flops : List FlopWires) (values : List Bool) :
    KeepsCycle (writeFlops flops values) := by
  induction flops generalizing values with
  | nil => exact keepsCycle_pure _
  | cons f rest ih =>
    cases values with
    | nil => exact keepsCycle_pure _
    | cons value more => exact (write_keepsCycle f.q value).bind fun _ => ih more

end ObjectKernel

/-! ## The engine over words -/

namespace Packed

theorem get_keepsCycle (id : UInt32) : KeepsCycle (get id) :=
  (readWord_keepsCycle _).bind fun _ => keepsCycle_pure _

theorem set_keepsCycle (id bit : UInt32) : KeepsCycle (set id bit) :=
  modifyWord_keepsCycle (behind_header _) _

theorem evaluate_keepsCycle (gates : List UInt32) : KeepsCycle (evaluate gates) := by
  fun_induction evaluate gates with
  | case1 in1 in2 out rest ih =>
    exact (get_keepsCycle in1).bind fun _ => (get_keepsCycle in2).bind fun _ =>
      (set_keepsCycle out _).bind fun _ => ih
  | case2 => exact keepsCycle_pure _

theorem sample_keepsCycle (scratch : Array UInt32) (i : Nat) (flops : List UInt32) :
    KeepsCycle (sample scratch i flops) := by
  fun_induction sample scratch i flops with
  | case1 scratch i d _ rest _ ih => exact (get_keepsCycle d).bind fun bit => ih bit
  | case2 => exact keepsCycle_throw _
  | case3 => exact keepsCycle_pure _

theorem update_keepsCycle (scratch : Array UInt32) (i : Nat) (flops : List UInt32) :
    KeepsCycle (update scratch i flops) := by
  fun_induction update scratch i flops with
  | case1 i _ q rest w _ ih => exact (set_keepsCycle q _).bind fun _ => ih
  | case2 => exact keepsCycle_throw _
  | case3 => exact keepsCycle_pure _

theorem capture_keepsCycle (flops : List UInt32) (scratch : Array UInt32) :
    KeepsCycle (capture flops scratch) :=
  (sample_keepsCycle scratch 0 flops).bind fun next =>
    (update_keepsCycle next 0 flops).bind fun _ => keepsCycle_pure _

end Packed

/-! ## Both engines -/

namespace Kernel

theorem evaluate_keepsCycle (k : Kernel) : KeepsCycle k.evaluate := by
  cases k with
  | object k => exact ObjectKernel.evalLevels_keepsCycle k.levels
  | packed k => exact Packed.evaluate_keepsCycle k.gates

theorem capture_keepsCycle (k : Kernel) : KeepsCycle k.capture := by
  cases k with
  | object k =>
    have hcapture : KeepsCycle k.capture :=
      (readAll_keepsCycle _).bind fun values => ObjectKernel.writeFlops_keepsCycle k.flops values
    exact hcapture.bind fun _ => keepsCycle_pure _
  | packed k => exact (Packed.capture_keepsCycle k.flops k.scratch).bind fun _ => keepsCycle_pure _

/-- A clock cycle counts one more. -/
theorem cycle_counts {k next : Kernel} {s t : Store} (h : k.cycle s = .ok next t) :
    t.cycle = s.cycle + 1 := by
  obtain ⟨_, s₁, hevaluate, h⟩ := bind_eq_ok.1 h
  obtain ⟨after, s₂, hcapture, h⟩ := bind_eq_ok.1 h
  obtain ⟨_, s₃, hcount, h⟩ := bind_eq_ok.1 h
  cases h
  rw [incrementCycle_counts hcount, k.capture_keepsCycle _ _ _ hcapture,
    k.evaluate_keepsCycle _ _ _ hevaluate]

end Kernel

end NandHdl
