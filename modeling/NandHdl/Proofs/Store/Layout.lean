-- SUMMARY: The layout of a store (`Store.LaidOut`): header, size and padding stay as a new store has them, whichever actions run and even if they fail.
import NandHdl.Proofs.Kernel.InRange
import NandHdl.Proofs.Simulation.Operations

/-!
# The layout of a store

Whoever reads a store from outside relies on its layout: a header in which only the cycle ever
changes, one word for every 32 signals, and zeros behind the last signal. Two groups of actions
write signals, one by masks (`Store.write`) and one by shifts (`Packed.set`). Both keep the layout,
on condition that they write signals of the store and, for the second, a bit and not a longer word.
-/

namespace NandHdl

namespace Store

variable {α β : Type} {signals : Nat} {s : Store}

/-- The store has the header and the size of a new store, apart from the cycle, and zeros behind the
last signal. -/
structure LaidOut (signals : Nat) (s : Store) : Prop where
  sized : s.SizedFor signals
  fixed : ∀ k < headerWords, k ≠ cycleWord → s.words[k]? = (new signals).words[k]?
  padding : ∀ i, signals ≤ i → s.bit i = false

/-- After its first three words a new store is zero. -/
theorem getD_new {k : Nat} (h : 3 ≤ k) : (new signals).words.getD k 0 = 0 := by
  rw [Array.getD_eq_getD_getElem?, new, Array.getElem?_append_right (by simpa using h),
    Array.getElem?_replicate]
  split <;> rfl

theorem new_laidOut (signals : Nat) : (new signals).LaidOut signals where
  sized := new_sizedFor signals
  fixed _ _ _ := rfl
  padding i _ := by
    rw [bit, getD_new (by rw [headerWords]; omega)]
    simp

theorem LaidOut.put (h : s.LaidOut signals) {id : SignalId} (hid : id < signals) (value : Bool) :
    (s.put id value).LaidOut signals where
  sized := h.sized.put id value
  fixed k hk hcycle := by
    rw [getElem?_eq_of_header (put_header s id value) hk]
    exact h.fixed k hk hcycle
  padding i hi := by
    rw [bit_put (h.sized.word_lt hid), if_neg (Nat.ne_of_gt (Nat.lt_of_lt_of_le hid hi))]
    exact h.padding i hi

theorem LaidOut.tick (h : s.LaidOut signals) : s.tick.LaidOut signals where
  sized := by
    rw [SizedFor, Store.tick, Array.size_modify]
    exact h.sized
  fixed k hk hcycle := by
    rw [Store.tick, Array.getElem?_modify, if_neg (Ne.symm hcycle)]
    exact h.fixed k hk hcycle
  padding i hi := by
    rw [bit_tick]
    exact h.padding i hi

/-! ## Actions that keep the layout -/

/-- The store that an action leaves behind, also if it fails. -/
def left : EStateM.Result Fault Store α → Store
  | .ok _ s => s
  | .error _ s => s

/-- The action keeps the layout, and what it answers is as asked for. -/
def Keeps (signals : Nat) (x : StoreM α) (Q : α → Prop) : Prop :=
  ∀ s : Store, s.LaidOut signals →
    (left (x s)).LaidOut signals ∧ ∀ a s', x s = .ok a s' → Q a

theorem keeps_pure {a : α} {Q : α → Prop} (h : Q a) : Keeps signals (pure a) Q := by
  intro s hs
  refine ⟨hs, ?_⟩
  intro b s' hrun
  cases hrun
  exact h

theorem keeps_throw (f : Fault) (Q : α → Prop) : Keeps signals (throw f) Q :=
  fun _ hs => ⟨hs, nofun⟩

theorem Keeps.bind {x : StoreM α} {f : α → StoreM β} {P : α → Prop} {Q : β → Prop}
    (hx : Keeps signals x P) (hf : ∀ a, P a → Keeps signals (f a) Q) :
    Keeps signals (x >>= f) Q := by
  intro s hs
  obtain ⟨hleft, hanswer⟩ := hx s hs
  simp only [Bind.bind, EStateM.bind]
  cases hrun : x s with
  | error e s₁ =>
    rw [hrun] at hleft
    exact ⟨hleft, nofun⟩
  | ok a s₁ =>
    rw [hrun] at hleft
    exact hf a (hanswer a s₁ hrun) s₁ hleft

theorem readWord_keeps (position : Nat) : Keeps signals (readWord position) fun _ => True := by
  intro s hs
  unfold readWord
  split
  · exact ⟨hs, fun _ _ _ => trivial⟩
  · exact ⟨hs, nofun⟩

theorem read_keeps (id : SignalId) : Keeps signals (read id) fun _ => True :=
  (readWord_keeps _).bind fun _ _ => keeps_pure trivial

theorem write_keeps {id : SignalId} (h : id < signals) (value : Bool) :
    Keeps signals (write id value) fun _ => True := by
  intro s hs
  rw [write_run hs.sized h]
  exact ⟨hs.put h value, fun _ _ _ => trivial⟩

theorem writeBits_keeps {ids : Bits} (h : ∀ id ∈ ids, id < signals) (value : UInt64) :
    Keeps signals (writeBits ids value) fun _ => True := by
  unfold writeBits
  generalize 0 = position
  induction ids generalizing position with
  | nil => exact keeps_pure trivial
  | cons id rest ih =>
    rw [List.forall_mem_cons] at h
    exact (write_keeps h.1 _).bind fun _ _ => ih h.2 (position + 1)

theorem incrementCycle_keeps : Keeps signals incrementCycle fun _ => True := by
  intro s hs
  rw [incrementCycle_run hs.sized]
  exact ⟨hs.tick, fun _ _ _ => trivial⟩

end Store

/-! ## The engine over words -/

namespace Packed

open Store

variable {signals : Nat}

/-- A word that was read for a signal is 0 or 1. -/
theorem get_keeps (id : UInt32) :
    Keeps signals (get id) fun w => ∃ value, w = bitWord value := by
  have hget := get_eq id.toNat_lt
  rw [UInt32.ofNat_toNat] at hget
  rw [hget]
  exact (read_keeps _).bind fun value _ => keeps_pure ⟨value, rfl⟩

theorem set_keeps {id : UInt32} (h : id.toNat < signals) (value : Bool) :
    Keeps signals (set id (bitWord value)) fun _ => True := by
  have hset := set_eq id.toNat_lt value
  rw [UInt32.ofNat_toNat] at hset
  rw [hset]
  exact write_keeps h value

theorem evaluate_keeps {code : List UInt32} (h : ∀ id ∈ code, id.toNat < signals) :
    Keeps signals (evaluate code) fun _ => True := by
  fun_induction evaluate code with
  | case1 in1 in2 out rest ih =>
    simp only [List.forall_mem_cons] at h
    obtain ⟨-, -, hout, hrest⟩ := h
    apply (get_keeps in1).bind
    rintro - ⟨a, rfl⟩
    apply (get_keeps in2).bind
    rintro - ⟨b, rfl⟩
    rw [nand_bitWord]
    exact (set_keeps hout _).bind fun _ _ => ih hrest
  | case2 => exact keeps_pure trivial

theorem sample_keeps (code : List UInt32) (scratch : Array UInt32) (i : Nat) :
    Keeps signals (sample scratch i code) fun _ => True := by
  fun_induction sample scratch i code with
  | case1 scratch i d q rest hword ih => exact (get_keeps d).bind fun bit _ => ih bit
  | case2 => exact keeps_throw _ _
  | case3 => exact keeps_pure trivial

theorem update_keeps {code : List UInt32} (scratch : Array UInt32) (i : Nat)
    (h : ∀ id ∈ code, id.toNat < signals) :
    Keeps signals (update scratch i code) fun _ => True := by
  fun_induction update scratch i code with
  | case1 i d q rest word hword ih =>
    simp only [List.forall_mem_cons] at h
    rw [selected_bit _ (Nat.mod_lt i (by omega : 32 > 0))]
    exact (set_keeps h.2.1 _).bind fun _ _ => ih h.2.2
  | case2 => exact keeps_throw _ _
  | case3 => exact keeps_pure trivial

/-- However many scratch words there are, and whatever they hold before. -/
theorem capture_keeps {code : List UInt32} (scratch : Array UInt32)
    (h : ∀ id ∈ code, id.toNat < signals) :
    Keeps signals (capture code scratch) fun _ => True := by
  apply (sample_keeps code scratch 0).bind
  intro scratch' _
  exact (update_keeps scratch' 0 h).bind fun _ _ => keeps_pure trivial

end Packed

/-! ## Sequences of actions -/

/-- An action that a user of a store or an engine takes. -/
inductive StoreOp where
  | write (id : SignalId) (value : Bool)
  | writeBits (ids : Bits) (value : UInt64)
  | incrementCycle
  | evaluate (gates : List UInt32)
  | capture (flops : List UInt32) (scratch : Array UInt32)
  deriving Repr, DecidableEq

namespace StoreOp

/-- What the action does to a store. -/
def run : StoreOp → StoreM Unit
  | .write id value => Store.write id value
  | .writeBits ids value => Store.writeBits ids value
  | .incrementCycle => Store.incrementCycle
  | .evaluate gates => Packed.evaluate gates
  | .capture flops scratch => do
    let _ ← Packed.capture flops scratch

/-- The signals that the action names. -/
def ids : StoreOp → List SignalId
  | .write id _ => [id]
  | .writeBits ids _ => ids
  | .incrementCycle => []
  | .evaluate gates => gates.map (·.toNat)
  | .capture flops _ => flops.map (·.toNat)

/-- There is a scratch bit for every flip-flop. -/
def HasRoom : StoreOp → Prop
  | .capture flops scratch => flops.length / 2 ≤ 32 * scratch.size
  | _ => True

/-- The store after the action, also if it fails. -/
def after (s : Store) (op : StoreOp) : Store := Store.left (op.run s)

variable {op : StoreOp} {signals : Nat} {s : Store}

theorem run_keeps (h : ∀ id ∈ op.ids, id < signals) :
    Store.Keeps signals op.run fun _ => True := by
  cases op with
  | write id value => exact Store.write_keeps (h id List.mem_cons_self) value
  | writeBits ids value => exact Store.writeBits_keeps h value
  | incrementCycle => exact Store.incrementCycle_keeps
  | evaluate gates => exact Packed.evaluate_keeps (List.forall_mem_map.1 h)
  | capture flops scratch =>
    exact (Packed.capture_keeps scratch (List.forall_mem_map.1 h)).bind fun _ _ =>
      Store.keeps_pure trivial

/-- No action fails on signals of the store, given scratch bits for the flip-flops. -/
theorem run_within (h : ∀ id ∈ op.ids, id < signals) (hroom : op.HasRoom) :
    Store.Within signals op.run fun _ => True := by
  cases op with
  | write id value => exact Store.write_within (h id List.mem_cons_self) value
  | writeBits ids value => exact Store.writeBits_within h value
  | incrementCycle => exact Store.incrementCycle_within
  | evaluate gates => exact Packed.evaluate_within (List.forall_mem_map.1 h)
  | capture flops scratch =>
    exact (Packed.capture_within (List.forall_mem_map.1 h) hroom).bind fun _ _ =>
      Store.within_pure trivial

/-- The layout survives any sequence of actions. -/
theorem laidOut_foldl {ops : List StoreOp} (h : ∀ op ∈ ops, ∀ id ∈ op.ids, id < signals)
    (hs : s.LaidOut signals) : (ops.foldl after s).LaidOut signals := by
  induction ops generalizing s with
  | nil => exact hs
  | cons op rest ih =>
    rw [List.forall_mem_cons] at h
    exact ih h.2 (run_keeps h.1 s hs).1

end StoreOp

end NandHdl
