-- SUMMARY: Whatever is done to a simulation of a levelized netlist, no word and no gate is missing (`Simulation.InRange.perform`, `Simulation.InRange.reaches`).
import NandHdl.Simulation.Batches
import NandHdl.Proofs.Kernel.InRange
import NandHdl.Proofs.Simulation.Operations
import Mathlib.Logic.Relation

/-!
# Simulations stay within their stores

A simulation can refuse a request, but it never asks its store or its tables for something they do
not have. The invariant is weaker than `Simulation.Ready`: it does not say that the engine computes
the circuit, and so it holds of netlists with more signals than fit in the words of an engine too.
-/

namespace NandHdl

/-! ## Results and refusals -/

section

variable {ε ε' α β : Type} {refusal : ε → Prop}

/-- The result is as asked for, or it is an error of a kind that is allowed. -/
def Yields (refusal : ε → Prop) (r : Except ε α) (Q : α → Prop) : Prop :=
  match r with
  | .ok a => Q a
  | .error e => refusal e

theorem yields_of_eq {r : Except ε α} {a : α} {Q : α → Prop} (h : r = .ok a) (hQ : Q a) :
    Yields refusal r Q := by
  rw [h]
  exact hQ

theorem yields_of_error {r : Except ε α} (h : ∀ e, r = .error e → refusal e) :
    Yields refusal r fun _ => True := by
  cases r with
  | error e => exact h e rfl
  | ok a => trivial

theorem Yields.bind {r : Except ε α} {f : α → Except ε β} {P : α → Prop} {Q : β → Prop}
    (hr : Yields refusal r P) (hf : ∀ a, r = .ok a → P a → Yields refusal (f a) Q) :
    Yields refusal (r >>= f) Q := by
  cases r with
  | error e => exact hr
  | ok a => exact hf a rfl hr

theorem Yields.map {r : Except ε α} {f : α → β} {P : α → Prop} {Q : β → Prop}
    (hr : Yields refusal r P) (hf : ∀ a, P a → Q (f a)) : Yields refusal (r.map f) Q := by
  cases r with
  | error e => exact hr
  | ok a => exact hf a hr

theorem Yields.mono {r : Except ε α} {P Q : α → Prop} (hr : Yields refusal r P)
    (h : ∀ a, P a → Q a) : Yields refusal r Q := by
  cases r with
  | error e => exact hr
  | ok a => exact h a hr

theorem Yields.mapError {refusal' : ε' → Prop} {r : Except ε α} {f : ε → ε'} {Q : α → Prop}
    (hr : Yields refusal r Q) (hf : ∀ e, refusal e → refusal' (f e)) :
    Yields refusal' (r.mapError f) Q := by
  cases r with
  | error e => exact hf e hr
  | ok a => exact hr

theorem Yields.mapM {f : α → Except ε β} {P : β → Prop} {as : List α}
    (hf : ∀ a ∈ as, Yields refusal (f a) P) : Yields refusal (as.mapM f) fun bs => ∀ b ∈ bs, P b := by
  induction as with
  | nil => exact fun _ hb => nomatch hb
  | cons a rest ih =>
    rw [List.forall_mem_cons] at hf
    rw [List.mapM_cons]
    apply hf.1.bind
    intro b _ hb
    apply (ih hf.2).bind
    intro bs _ hbs
    exact List.forall_mem_cons.2 ⟨hb, hbs⟩

theorem Yields.not_error {r : Except ε α} {Q : α → Prop} (hr : Yields refusal r Q) {e : ε}
    (he : ¬refusal e) : r ≠ .error e := by
  rintro rfl
  exact he hr

theorem Yields.value {r : Except ε α} {Q : α → Prop} (hr : Yields refusal r Q) {a : α}
    (h : r = .ok a) : Q a := by
  subst h
  exact hr

end

/-- The error blames the request, not a table of the simulation. -/
def SimError.IsRefusal (e : SimError) : Prop := ∀ f, e ≠ .fault f

/-! ## The invariant -/

/-- The simulation of the levelized netlist `l` of `n` has the words for every signal, and what its
engine and its recording look at are signals. -/
structure Simulation.InRange (sim : Simulation) (n : Netlist) (l : LevelizedNetlist) : Prop where
  levelized_eq : sim.levelized = l
  sized : sim.store.SizedFor n.signals.size
  below : sim.kernel.Below n.signals.size
  watched_lt : ∀ {watched}, sim.watched = some watched → ∀ w ∈ watched, w.2 < n.signals.size

namespace Simulation

variable {sim : Simulation} {n : Netlist} {l : LevelizedNetlist} {level : GateId → Nat}

theorem resolve_yields {name : String} :
    Yields SimError.IsRefusal (sim.resolve name) fun _ => True :=
  yields_of_error fun _ => resolve_error

theorem wordBus_yields {name : String} :
    Yields SimError.IsRefusal (sim.wordBus name) fun _ => True :=
  yields_of_error fun _ => wordBus_error

theorem exportVcd_yields {names : Option (List String)} :
    Yields SimError.IsRefusal (sim.exportVcd names) fun _ => True :=
  (yields_of_error fun _ => exported_error).bind fun _ _ _ => trivial

theorem kernel_below (h : l.Sorted n level) (hw : n.Wellformed) (kind : KernelKind) :
    ∃ k, Kernel.ofLevelized l kind = .ok k ∧ k.Below n.signals.size := by
  obtain ⟨k, hk, hruns⟩ := h.kernel_ok kind
  exact ⟨k, hk, hruns.below (fun _ => h.wires_below hw) hw.flop_lt⟩

/-- A simulation of a netlist with levels always starts. -/
theorem start_inRange (h : l.Sorted n level) (hn : n.Numbered) (hw : n.Wellformed)
    (config : SimConfig) : ∃ sim, start l config = .ok sim ∧ sim.InRange n l := by
  obtain ⟨k, hk, hbelow⟩ := kernel_below h hw config.kernel
  have hstart : start l config = .ok {
      levelized := l, config, kernel := k
      store := (Store.new n.signals.size).putAll ((Store.initiallyOne n).map (·, true)) } := by
    rw [start, h.forNetlist_eq, Store.forNetlist_ok hn hw, hk]
    rfl
  refine ⟨_, hstart, rfl, (Store.new_sizedFor _).putAll _, hbelow, ?_⟩
  intro watched h
  cases h

namespace InRange

theorem withStore (h : sim.InRange n l) {store : Store} (hs : store.SizedFor n.signals.size) :
    ({ sim with store } : Simulation).InRange n l :=
  ⟨h.levelized_eq, hs, h.below, h.watched_lt⟩

/-- An action that stays within the store changes nothing but the store. -/
theorem act (h : sim.InRange n l) {α : Type} {x : StoreM α} {Q : α → Prop}
    (hx : Store.Within n.signals.size x Q) :
    Yields SimError.IsRefusal (sim.act x) fun r => Q r.1 ∧ r.2.InRange n l := by
  obtain ⟨a, store, hrun, hsized, ha⟩ := hx sim.store h.sized
  exact yields_of_eq (act_ok hrun) ⟨ha, h.withStore hsized⟩

/-! ## Values -/

theorem set (h : sim.InRange n l) (hs : l.Sorted n level) (hw : n.Wellformed) (name : String)
    (value : Bool) : Yields SimError.IsRefusal (sim.set name value) (InRange · n l) := by
  apply resolve_yields.bind
  intro id hid _
  apply (h.act (Store.write_within (resolve_lt h.levelized_eq hs hw hid) value)).bind
  exact fun _ _ hr => hr.2

theorem get (h : sim.InRange n l) (hs : l.Sorted n level) (hw : n.Wellformed) (name : String) :
    Yields SimError.IsRefusal (sim.get name) fun _ => True := by
  apply resolve_yields.bind
  intro id hid _
  apply (h.act (Store.read_within (resolve_lt h.levelized_eq hs hw hid))).bind
  exact fun _ _ _ => trivial

theorem poke (h : sim.InRange n l) (hs : l.Sorted n level) (hw : n.Wellformed) (name : String)
    (value : UInt64) : Yields SimError.IsRefusal (sim.poke name value) (InRange · n l) := by
  apply wordBus_yields.bind
  intro bits hbits _
  dsimp only
  split
  · exact fun _ => nofun
  · apply (h.act (Store.writeBits_within (wordBus_lt h.levelized_eq hs hw hbits) value)).bind
    exact fun _ _ hr => hr.2

theorem peek (h : sim.InRange n l) (hs : l.Sorted n level) (hw : n.Wellformed) (name : String) :
    Yields SimError.IsRefusal (sim.peek name) fun _ => True := by
  apply wordBus_yields.bind
  intro bits hbits _
  apply (h.act (Store.readBits_within (wordBus_lt h.levelized_eq hs hw hbits))).bind
  exact fun _ _ _ => trivial

/-! ## Recording -/

theorem sampleValues (h : sim.InRange n l) {watched : List (String × SignalId)}
    (hwatched : ∀ w ∈ watched, w.2 < n.signals.size) (values : NameMap Bool) :
    Yields SimError.IsRefusal (sim.sampleValues values watched) fun _ => True := by
  induction watched generalizing values with
  | nil => trivial
  | cons w rest ih =>
    rw [List.forall_mem_cons] at hwatched
    apply (h.act (Store.read_within hwatched.1)).bind
    exact fun _ _ _ => ih hwatched.2 _

theorem snapshot (h : sim.InRange n l) :
    Yields SimError.IsRefusal sim.snapshot (InRange · n l) := by
  unfold Simulation.snapshot
  split
  · exact h
  · next watched hwatched =>
    apply (h.sampleValues (h.watched_lt hwatched) {}).bind
    exact fun _ _ _ => ⟨h.levelized_eq, h.sized, h.below, h.watched_lt⟩

theorem record (h : sim.InRange n l) {watched : List (String × SignalId)}
    (hwatched : ∀ w ∈ watched, w.2 < n.signals.size) :
    Yields SimError.IsRefusal (sim.record watched) (InRange · n l) := by
  have hempty : ({ sim with samples := #[], watched := some watched } : Simulation).InRange n l :=
    ⟨h.levelized_eq, h.sized, h.below, fun heq => Option.some.inj heq ▸ hwatched⟩
  exact hempty.snapshot

/-- Names that are resolved, resolve to signals. -/
theorem resolveAll_yields (h : sim.InRange n l) (hs : l.Sorted n level) (hw : n.Wellformed)
    (names : List String) :
    Yields SimError.IsRefusal (names.mapM fun name => do return (name, ← sim.resolve name))
      fun watched => ∀ w ∈ watched, w.2 < n.signals.size := by
  apply Yields.mapM
  intro name _
  apply resolve_yields.bind
  exact fun id hid _ => resolve_lt h.levelized_eq hs hw hid

theorem startRecording (h : sim.InRange n l) (hs : l.Sorted n level) (hw : n.Wellformed)
    (names : List String) :
    Yields SimError.IsRefusal (sim.startRecording names) (InRange · n l) := by
  apply (h.resolveAll_yields hs hw names).bind
  exact fun watched _ hlt => h.record hlt

theorem startRecordingAll (h : sim.InRange n l) (hs : l.Sorted n level) (hw : n.Wellformed) :
    Yields SimError.IsRefusal sim.startRecordingAll (InRange · n l) := by
  apply h.record
  intro w hmem
  rw [h.levelized_eq, hs.netlist_eq] at hmem
  exact hw.name_lt (Std.TreeMap.mem_toList_iff_getElem?_eq_some.1 hmem)

/-! ## Clocking and reset -/

theorem evaluate (h : sim.InRange n l) :
    Yields SimError.IsRefusal sim.evaluate (InRange · n l) := by
  apply (h.act h.below.evaluate).bind
  exact fun _ _ hr => hr.2

theorem step (h : sim.InRange n l) : Yields SimError.IsRefusal sim.step (InRange · n l) := by
  apply (h.act h.below.cycle).bind
  rintro ⟨kernel, next⟩ - ⟨hkernel, hnext⟩
  have hready : ({ next with kernel } : Simulation).InRange n l :=
    ⟨hnext.levelized_eq, hnext.sized, hkernel, hnext.watched_lt⟩
  exact hready.snapshot

theorem run (h : sim.InRange n l) (cycles : Nat) :
    Yields SimError.IsRefusal (sim.run cycles) (InRange · n l) := by
  induction cycles generalizing sim with
  | zero => exact h
  | succ cycles ih =>
    apply h.step.bind
    exact fun next _ hnext => ih hnext

theorem reset (h : sim.InRange n l) (hs : l.Sorted n level) (hn : n.Numbered)
    (hw : n.Wellformed) : Yields SimError.IsRefusal sim.reset (InRange · n l) := by
  obtain ⟨k, hk, hbelow⟩ := kernel_below hs hw sim.config.kernel
  have hreset : sim.reset = .ok { sim with
      store := (Store.new n.signals.size).putAll ((Store.initiallyOne n).map (·, true))
      kernel := k } := by
    rw [Simulation.reset, h.levelized_eq, hs.forNetlist_eq, Store.forNetlist_ok hn hw, hk]
    rfl
  exact yields_of_eq hreset ⟨h.levelized_eq, (Store.new_sizedFor _).putAll _, hbelow, h.watched_lt⟩

/-! ## Any operation -/

/-- An operation is carried out or refused, and no word and no gate is missing on the way. -/
theorem perform (h : sim.InRange n l) (hs : l.Sorted n level) (hn : n.Numbered)
    (hw : n.Wellformed) (op : SimOp) :
    Yields SimError.IsRefusal (sim.perform op) fun r => r.2.InRange n l := by
  cases op with
  | set name value => exact (h.set hs hw name value).map fun _ hnext => hnext
  | get name => exact (h.get hs hw name).map fun _ _ => h
  | poke name value => exact (h.poke hs hw name value).map fun _ hnext => hnext
  | peek name => exact (h.peek hs hw name).map fun _ _ => h
  | evaluate => exact h.evaluate.map fun _ hnext => hnext
  | step => exact h.step.map fun _ hnext => hnext
  | run cycles => exact (h.run cycles).map fun _ hnext => hnext
  | reset => exact (h.reset hs hn hw).map fun _ hnext => hnext
  | startRecording names => exact (h.startRecording hs hw names).map fun _ hnext => hnext
  | startRecordingAll => exact (h.startRecordingAll hs hw).map fun _ hnext => hnext
  | stopRecording => exact ⟨h.levelized_eq, h.sized, h.below, nofun⟩
  | exportVcd names => exact exportVcd_yields.map fun _ _ => h

theorem withStop (h : sim.InRange n l) (stopRequested : Bool) :
    ({ sim with stopRequested } : Simulation).InRange n l :=
  ⟨h.levelized_eq, h.sized, h.below, h.watched_lt⟩

/-- Whoever gets the reports may ask for a stop whenever they like. -/
theorem runInBatches (h : sim.InRange n l) (total batch : Nat) (wantsStop : Nat → Nat → Bool) :
    Yields SimError.IsRefusal (sim.runInBatches total batch wantsStop) fun r =>
      r.sim.InRange n l := by
  unfold Simulation.runInBatches
  generalize sim.batchSize batch = size, 0 = done
  fun_induction batchesFrom wantsStop total size done sim with
  | case1 done sim _ _ => exact h.withStop false
  | case2 done sim _ _ _ ih =>
    apply (h.run _).bind
    intro next _ hnext
    apply (ih next (hnext.withStop _)).bind
    exact fun _ _ hrest => hrest
  | case3 done sim _ => exact h

end InRange

/-! ## Reached simulations -/

/-- One thing that is done to a simulation: an operation, a request to stop or a run in batches. -/
inductive Next (sim : Simulation) : Simulation → Prop where
  | perform {op answer next} : sim.perform op = .ok (answer, next) → Next sim next
  | requestStop : Next sim sim.requestStop
  | runInBatches {total batch wantsStop r} :
      sim.runInBatches total batch wantsStop = .ok r → Next sim r.sim

/-- What becomes of a simulation by any number of things that are done to it. -/
abbrev Reaches : Simulation → Simulation → Prop := Relation.ReflTransGen Next

theorem InRange.next {next : Simulation} (h : sim.InRange n l) (hs : l.Sorted n level)
    (hn : n.Numbered) (hw : n.Wellformed) (hnext : sim.Next next) : next.InRange n l := by
  cases hnext with
  | @perform op _ _ hop => exact (hop ▸ h.perform hs hn hw op : Yields _ (.ok _) _)
  | requestStop => exact h.withStop true
  | @runInBatches total batch wantsStop _ hrun =>
    exact (hrun ▸ h.runInBatches total batch wantsStop : Yields _ (.ok _) _)

theorem InRange.reaches {next : Simulation} (h : sim.InRange n l) (hs : l.Sorted n level)
    (hn : n.Numbered) (hw : n.Wellformed) (hreach : sim.Reaches next) : next.InRange n l := by
  induction hreach with
  | refl => exact h
  | tail _ hnext ih => exact ih.next hs hn hw hnext

end Simulation

end NandHdl
