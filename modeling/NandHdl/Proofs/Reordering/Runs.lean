-- SUMMARY: Simulations of a circuit and of a rearranged one give the same answers to operations on signals that have kept their places, and their outputs agree (`Reordered.transcript`).
import NandHdl.Proofs.Optimizer.Runs
import NandHdl.Proofs.Reordering.Circuits

/-!
# Runs of rearranged circuits

Two circuits are simulated side by side, and a permutation leads from the one to the other. Their
stores correspond after a reset, and every operation keeps them so. If a name stands for the same
signals in both, and the permutation leaves these alone, the simulations answer the same about it.
-/

namespace NandHdl

open Simulation

variable {n n' : Netlist} {σ : Equiv.Perm SignalId} {l l' : LevelizedNetlist}
  {level level' : GateId → Nat} {a b : Simulation}

/-! ## Names -/

namespace Simulation.Ready

/-- A name is resolved to its targets if it has any. -/
theorem wordBus_eq (h : a.Ready n l) (hs : l.Sorted n level) (name : String) :
    a.wordBus name = match n.targets name with
      | [] => .error (.unknownSignal name)
      | bits =>
        if bits.length > 64 then .error (.widthOverflow name bits.length) else .ok bits := by
  rw [wordBus, resolveBus, h.levelized_eq, hs.bus_eq, h.resolve_eq hs, Netlist.targets]
  cases n.bus name with
  | nil =>
    cases n.signalId? name with
    | none => rfl
    | some id => rfl
  | cons id rest =>
    dsimp only
    rw [Except.ok_bind]
    split
    · rfl
    · rfl

end Simulation.Ready

/-! ## Operations -/

/-- Operations that reach signals by names which stand for the same signals in both circuits, and
these signals have kept their places. -/
def SimOp.Shared (n n' : Netlist) (σ : Equiv.Perm SignalId) : SimOp → Prop
  | .set name _ | .get name =>
    n'.signalId? name = n.signalId? name ∧ ∀ i, n.signalId? name = some i → σ i = i
  | .poke name _ | .peek name =>
    n'.targets name = n.targets name ∧ ∀ i ∈ n.targets name, σ i = i
  | .evaluate | .step | .run _ | .reset => True
  | _ => False

/-- A circuit with levels, and a rearranged circuit with levels. The outputs have kept their
places. -/
structure Netlist.Reordered (n n' : Netlist) (σ : Equiv.Perm SignalId) (l l' : LevelizedNetlist)
    (level level' : GateId → Nat) : Prop where
  numbered : n.Numbered
  numbered' : n'.Numbered
  wellformed : n.Wellformed
  wellformed' : n'.Wellformed
  sorted : l.Sorted n level
  sorted' : l'.Sorted n' level'
  rearranged : n.Rearranged σ n'
  outputs : ∀ o ∈ n.primaryOutputs, σ o = o

/-- A simulation of each of them, and the stores correspond. -/
structure Simulation.Matched (a b : Simulation) (n n' : Netlist) (σ : Equiv.Perm SignalId)
    (l l' : LevelizedNetlist) : Prop where
  left : a.Ready n l
  right : b.Ready n' l'
  stores : n.Corresponds σ a.store b.store

namespace Simulation.Matched

variable (h : a.Matched b n n' σ l l') (ho : n.Reordered n' σ l l' level level')

include h ho

theorem evaluate : ∃ a' b', a.evaluate = .ok a' ∧ b.evaluate = .ok b' ∧
    a'.Matched b' n n' σ l l' := by
  obtain ⟨hok, hready⟩ := h.left.evaluate_ok ho.sorted ho.wellformed
  obtain ⟨hok', hready'⟩ := h.right.evaluate_ok ho.sorted' ho.wellformed'
  exact ⟨_, _, hok, hok', hready, hready', h.stores.compute ho.rearranged ho.sorted ho.sorted'
    ho.wellformed ho.wellformed'⟩

theorem step : ∃ a' b', a.step = .ok a' ∧ b.step = .ok b' ∧ a'.Matched b' n n' σ l l' := by
  obtain ⟨a', hok, hstore, hready⟩ := h.left.step_ok ho.sorted ho.wellformed
  obtain ⟨b', hok', hstore', hready'⟩ := h.right.step_ok ho.sorted' ho.wellformed'
  refine ⟨a', b', hok, hok', hready, hready', ?_⟩
  rw [hstore, hstore']
  exact h.stores.cycled ho.rearranged ho.sorted ho.sorted' ho.wellformed ho.wellformed'

theorem run (cycles : Nat) : ∃ a' b', a.run cycles = .ok a' ∧ b.run cycles = .ok b' ∧
    a'.Matched b' n n' σ l l' := by
  induction cycles generalizing a b with
  | zero => exact ⟨a, b, rfl, rfl, h⟩
  | succ cycles ih =>
    obtain ⟨a₁, b₁, hstep, hstep', hmatched⟩ := h.step ho
    obtain ⟨a', b', hrun, hrun', hmatched'⟩ := ih hmatched
    refine ⟨a', b', ?_, ?_, hmatched'⟩
    · rw [Simulation.run, hstep]
      exact hrun
    · rw [Simulation.run, hstep']
      exact hrun'

theorem reset : ∃ a' b', a.reset = .ok a' ∧ b.reset = .ok b' ∧ a'.Matched b' n n' σ l l' := by
  obtain ⟨store, _, hstore, hok, hready⟩ := h.left.reset_ok ho.sorted ho.numbered ho.wellformed
  obtain ⟨store', _, hstore', hok', hready'⟩ :=
    h.right.reset_ok ho.sorted' ho.numbered' ho.wellformed'
  exact ⟨_, _, hok, hok', hready, hready', ho.rearranged.corresponds ho.numbered ho.numbered'
    ho.wellformed ho.wellformed' hstore hstore'⟩

omit ho in
/-- Writes of the same values to signals that have kept their places. -/
theorem putAll {puts : List (Nat × Bool)} (hputs : ∀ p ∈ puts, p.1 < n.signals.size)
    (hfixed : ∀ p ∈ puts, σ p.1 = p.1) :
    Matched { a with store := a.store.putAll puts } { b with store := b.store.putAll puts }
      n n' σ l l' where
  left := h.left.withStore (h.left.sized.putAll puts)
  right := h.right.withStore (h.right.sized.putAll puts)
  stores := h.stores.putAll hputs hfixed

/-- The outputs of both circuits have the same values. -/
theorem outputs_eq : ∀ o ∈ n.primaryOutputs, a.store.bit o = b.store.bit o := by
  intro o hout
  have hagree := h.stores.agree o (ho.wellformed.port_lt o (.inr hout))
  rw [ho.outputs o hout] at hagree
  exact hagree.symm

end Simulation.Matched

/-- Both simulations give the same answer to an operation and match again, or both refuse it. -/
def SimOp.PerformedAlike (op : SimOp) (a b : Simulation) (n n' : Netlist) (σ : Equiv.Perm SignalId)
    (l l' : LevelizedNetlist) : Prop :=
  (∃ answer a' b', a.perform op = .ok (answer, a') ∧ b.perform op = .ok (answer, b') ∧
    a'.Matched b' n n' σ l l' ∧ (op.Settles → answer = .done)) ∨
  ∃ e, a.perform op = .error e ∧ b.perform op = .error e ∧ (∀ f, e ≠ .fault f) ∧ ¬op.Settles

namespace Simulation.Matched

variable {name : String} {op : SimOp}

section

variable (h : a.Matched b n n' σ l l') (ho : n.Reordered n' σ l l' level level')

include h ho

theorem resolve_eq (hname : n'.signalId? name = n.signalId? name) :
    b.resolve name = a.resolve name := by
  rw [h.left.resolve_eq ho.sorted, h.right.resolve_eq ho.sorted', hname]

theorem wordBus_eq (hname : n'.targets name = n.targets name) :
    b.wordBus name = a.wordBus name := by
  rw [h.left.wordBus_eq ho.sorted, h.right.wordBus_eq ho.sorted', hname]

theorem set {value : Bool} (hop : (SimOp.set name value).Shared n n' σ) :
    (SimOp.set name value).PerformedAlike a b n n' σ l l' := by
  rw [SimOp.PerformedAlike, Simulation.perform, Simulation.perform,
    h.left.set_eq ho.sorted ho.wellformed, h.right.set_eq ho.sorted' ho.wellformed',
    h.resolve_eq ho hop.1]
  cases hid : a.resolve name with
  | error e => exact .inr ⟨e, rfl, rfl, resolve_error hid, id⟩
  | ok id =>
    have hlt := resolve_lt h.left.levelized_eq ho.sorted ho.wellformed hid
    have hfixed := hop.2 id (h.left.signalId?_of_resolve ho.sorted hid)
    have hputs : ∀ p ∈ [(id, value)], p.1 < n.signals.size := by simpa using hlt
    have hnext := h.putAll hputs (by simpa using hfixed)
    exact .inl ⟨_, _, _, rfl, rfl, hnext, fun _ => rfl⟩

theorem get (hop : (SimOp.get name).Shared n n' σ) :
    (SimOp.get name).PerformedAlike a b n n' σ l l' := by
  rw [SimOp.PerformedAlike, Simulation.perform, Simulation.perform,
    h.left.get_eq ho.sorted ho.wellformed, h.right.get_eq ho.sorted' ho.wellformed',
    h.resolve_eq ho hop.1]
  cases hid : a.resolve name with
  | error e => exact .inr ⟨e, rfl, rfl, resolve_error hid, id⟩
  | ok id =>
    have hagree := h.stores.agree id (resolve_lt h.left.levelized_eq ho.sorted ho.wellformed hid)
    rw [hop.2 id (h.left.signalId?_of_resolve ho.sorted hid)] at hagree
    refine .inl ⟨.bit (a.store.bit id), a, b, rfl, ?_, h, fun hsettles => hsettles.elim⟩
    rw [← hagree]
    rfl

theorem poke {value : UInt64} (hop : (SimOp.poke name value).Shared n n' σ) :
    (SimOp.poke name value).PerformedAlike a b n n' σ l l' := by
  rw [SimOp.PerformedAlike, Simulation.perform, Simulation.perform,
    h.left.poke_eq ho.sorted ho.wellformed, h.right.poke_eq ho.sorted' ho.wellformed',
    h.wordBus_eq ho hop.1]
  cases hbits : a.wordBus name with
  | error e => exact .inr ⟨e, rfl, rfl, wordBus_error hbits, id⟩
  | ok bits =>
    rw [Except.ok_bind, Except.ok_bind]
    split
    · exact .inr ⟨_, rfl, rfl, fun _ heq => SimError.noConfusion heq, id⟩
    · have hlt := wordBus_lt h.left.levelized_eq ho.sorted ho.wellformed hbits
      have htargets := h.left.wordBus_targets ho.sorted hbits
      have hmem : ∀ p ∈ Store.pokes value 0 bits, p.1 ∈ bits := fun _ =>
        Store.fst_mem_of_mem_pokes
      have hnext := h.putAll (fun p hp => hlt p.1 (hmem p hp))
        fun p hp => hop.2 p.1 (htargets ▸ hmem p hp)
      exact .inl ⟨_, _, _, rfl, rfl, hnext, fun _ => rfl⟩

theorem peek (hop : (SimOp.peek name).Shared n n' σ) :
    (SimOp.peek name).PerformedAlike a b n n' σ l l' := by
  rw [SimOp.PerformedAlike, Simulation.perform, Simulation.perform,
    h.left.peek_eq ho.sorted ho.wellformed, h.right.peek_eq ho.sorted' ho.wellformed',
    h.wordBus_eq ho hop.1]
  cases hbits : a.wordBus name with
  | error e => exact .inr ⟨e, rfl, rfl, wordBus_error hbits, id⟩
  | ok bits =>
    have hlt := wordBus_lt h.left.levelized_eq ho.sorted ho.wellformed hbits
    have htargets := h.left.wordBus_targets ho.sorted hbits
    have hvalues : (bits.take 64).map b.store.bit = (bits.take 64).map a.store.bit := by
      refine List.map_congr_left fun i hi => ?_
      have hi := List.mem_of_mem_take hi
      have hagree := h.stores.agree i (hlt i hi)
      rwa [hop.2 i (htargets ▸ hi)] at hagree
    refine .inl ⟨.word (Store.wordOfBits ((bits.take 64).map a.store.bit)), a, b, rfl, ?_, h,
      fun hsettles => hsettles.elim⟩
    rw [← hvalues]
    rfl

omit h ho in
/-- An operation that is done on both sides. -/
theorem done {a' b' : Simulation} (hok : a.perform op = .ok (.done, a'))
    (hok' : b.perform op = .ok (.done, b')) (hnext : a'.Matched b' n n' σ l l') :
    op.PerformedAlike a b n n' σ l l' :=
  .inl ⟨.done, a', b', hok, hok', hnext, fun _ => rfl⟩

/-- Both simulations give the same answer to an operation, and they still match. -/
theorem perform (hop : op.Shared n n' σ) : op.PerformedAlike a b n n' σ l l' := by
  cases op with
  | set name value => exact h.set ho hop
  | get name => exact h.get ho hop
  | poke name value => exact h.poke ho hop
  | peek name => exact h.peek ho hop
  | evaluate =>
    obtain ⟨a', b', hok, hok', hnext⟩ := h.evaluate ho
    exact done (by rw [Simulation.perform, hok]; rfl) (by rw [Simulation.perform, hok']; rfl) hnext
  | step =>
    obtain ⟨a', b', hok, hok', hnext⟩ := h.step ho
    exact done (by rw [Simulation.perform, hok]; rfl) (by rw [Simulation.perform, hok']; rfl) hnext
  | run cycles =>
    obtain ⟨a', b', hok, hok', hnext⟩ := h.run ho cycles
    exact done (by rw [Simulation.perform, hok]; rfl) (by rw [Simulation.perform, hok']; rfl) hnext
  | reset =>
    obtain ⟨a', b', hok, hok', hnext⟩ := h.reset ho
    exact done (by rw [Simulation.perform, hok]; rfl) (by rw [Simulation.perform, hok']; rfl) hnext
  | startRecording _ | startRecordingAll | stopRecording | exportVcd _ => exact hop.elim

end

end Simulation.Matched

/-! ## Transcripts -/

/-- An operation got the same answer on both sides, no fault, and the outputs of the circuit have
the same values after it. A pass over the gates is never refused. -/
structure SimOp.AnsweredAlike (op : SimOp) (outputs : Array SignalId)
    (x y : Except SimError SimAnswer × Store) : Prop where
  answer : x.1 = y.1
  no_fault : ∀ f, x.1 ≠ .error (.fault f)
  settles : op.Settles → x.1 = .ok .done
  outputs_eq : ∀ o ∈ outputs, x.2.bit o = y.2.bit o

theorem Simulation.Matched.transcript (h : a.Matched b n n' σ l l')
    (ho : n.Reordered n' σ l l' level level') {ops : List SimOp}
    (hops : ∀ op ∈ ops, op.Shared n n' σ) :
    List.Forall₂ (fun op entries => op.AnsweredAlike n.primaryOutputs entries.1 entries.2) ops
      ((a.transcript ops).zip (b.transcript ops)) := by
  induction ops generalizing a b with
  | nil => exact .nil
  | cons op rest ih =>
    obtain ⟨hop, hrest⟩ := List.forall_mem_cons.1 hops
    rcases h.perform ho hop with
      ⟨answer, a', b', hok, hok', hnext, hsettles⟩ | ⟨e, he, he', hfault, hsettles⟩
    · simp only [Simulation.transcript, after, hok, hok', List.zip_cons_cons]
      exact .cons ⟨rfl, by simp, fun hpass => congrArg Except.ok (hsettles hpass),
        hnext.outputs_eq ho⟩ (ih hnext hrest)
    · simp only [Simulation.transcript, after, he, he', List.zip_cons_cons]
      exact .cons ⟨rfl, fun f heq => hfault f (Except.error.inj heq),
        fun hpass => absurd hpass hsettles, h.outputs_eq ho⟩ (ih h hrest)

/-- Simulations of both circuits, with whatever engines, start and match. -/
theorem Netlist.Reordered.start (ho : n.Reordered n' σ l l' level level') {c c' : SimConfig}
    (hfits : c.kernel = .batch → n.signals.size < 2 ^ 32)
    (hfits' : c'.kernel = .batch → n.signals.size < 2 ^ 32) :
    ∃ a b, Simulation.start l c = .ok a ∧ Simulation.start l' c' = .ok b ∧
      a.Matched b n n' σ l l' := by
  obtain ⟨store, k, hstore, hstart, hready⟩ :=
    Simulation.start_ok ho.sorted ho.numbered ho.wellformed c hfits
  obtain ⟨store', k', hstore', hstart', hready'⟩ :=
    Simulation.start_ok ho.sorted' ho.numbered' ho.wellformed' c' (ho.rearranged.size_eq ▸ hfits')
  exact ⟨_, _, hstart, hstart', hready, hready', ho.rearranged.corresponds ho.numbered ho.numbered'
    ho.wellformed ho.wellformed' hstore hstore'⟩

end NandHdl
