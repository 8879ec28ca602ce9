-- SUMMARY: What a step of elaboration adds to a draft (`Fragment`, `Draft.Gains`), and steps that add a given fragment or fail (`Elab.Commits`).
import NandHdl.Proofs.Kernel.Object
import NandHdl.Proofs.Renaming.Programs
import NandHdl.Proofs.Elaboration.Drivers

/-!
# Fragments

A step of elaboration adds signals, gates and flip-flops to a draft, and it takes the right to drive
some signals. A fragment lists what is added. If a step is taken from two drafts, its fragments
differ in the numbers of signals alone, so a fragment can be carried over by a map of signals.

Nothing but the right to drive a signal can be refused. A step that has got its operands therefore
adds its fragment exactly if all the signals that it claims are free.
-/

namespace NandHdl

/-! ## Wires under a map of signals -/

/-- The gate on other signals. -/
def GateWires.map (f : SignalId → SignalId) (g : GateWires) : GateWires where
  in1 := f g.in1
  in2 := f g.in2
  out := f g.out

/-- The flip-flop on other signals. -/
def FlopWires.map (f : SignalId → SignalId) (g : FlopWires) : FlopWires where
  d := f g.d
  q := f g.q

/-- What a step adds to a draft. -/
structure Fragment where
  /-- How many new signals there are. -/
  count : Nat := 0
  /-- The signals that are claimed. -/
  claims : List SignalId := []
  gates : List GateWires := []
  /-- The flip-flops with the values they start with. -/
  flops : List (FlopWires × Bool) := []
  /-- The new signals with the name of the constant 1. -/
  ones : List SignalId := []

namespace Fragment

instance : Append Fragment where
  append F G :=
    { count := F.count + G.count, claims := F.claims ++ G.claims, gates := F.gates ++ G.gates
      flops := F.flops ++ G.flops, ones := F.ones ++ G.ones }

/-- The fragment on other signals. -/
def map (f : SignalId → SignalId) (F : Fragment) : Fragment where
  count := F.count
  claims := F.claims.map f
  gates := F.gates.map (·.map f)
  flops := F.flops.map fun p => (p.1.map f, p.2)
  ones := F.ones.map f

variable {F G : Fragment} {f : SignalId → SignalId}

@[simp] theorem count_append : (F ++ G).count = F.count + G.count := rfl

@[simp] theorem claims_append : (F ++ G).claims = F.claims ++ G.claims := rfl

@[simp] theorem gates_append : (F ++ G).gates = F.gates ++ G.gates := rfl

@[simp] theorem flops_append : (F ++ G).flops = F.flops ++ G.flops := rfl

@[simp] theorem ones_append : (F ++ G).ones = F.ones ++ G.ones := rfl

theorem map_append : (F ++ G).map f = F.map f ++ G.map f := by
  show Fragment.mk _ _ _ _ _ = Fragment.mk _ _ _ _ _
  simp [map]

end Fragment

/-! ## What a draft gains -/

namespace Netlist

/-- The gates of a netlist as engines see them. -/
def gateWires (n : Netlist) : List GateWires := n.gates.toList.map NandGate.wires

/-- The flip-flops of a netlist with the values they start with. -/
def flopStarts (n : Netlist) : List (FlopWires × Bool) :=
  n.dffs.toList.map fun f => (f.wires, f.initialValue)

/-- The signal has the name of the constant 1. -/
def NamedOne (n : Netlist) (i : SignalId) : Prop :=
  ∃ s, n.signals[i]? = some s ∧ s.name = oneName

theorem namedOne_addSignal {n : Netlist} {name : String} {owner : InstanceId} {i : SignalId} :
    (n.addSignal name owner).NamedOne i ↔
      n.NamedOne i ∨ (i = n.signals.size ∧ name = oneName) := by
  simp only [NamedOne, addSignal, Array.getElem?_push]
  split
  · next heq =>
    subst heq
    simp
  · next hne => simp [hne]

end Netlist

namespace Draft

/-- The right to drive the signal has been taken. -/
def Taken (d : Draft) (i : SignalId) : Prop := d.driven[i]? = some true

/-- All the signals can be claimed one after the other. -/
def Clear (d : Draft) (ids : List SignalId) : Prop := ids.Nodup ∧ ∀ i ∈ ids, ¬d.Taken i

/-- The draft `d` is `b` with the fragment added. -/
structure Gains (b d : Draft) (F : Fragment) : Prop where
  size_eq : d.netlist.signals.size = b.netlist.signals.size + F.count
  driven_size : d.driven.size = d.netlist.signals.size
  clear : b.Clear F.claims
  taken : ∀ i, d.Taken i ↔ b.Taken i ∨ i ∈ F.claims
  gates : d.netlist.gateWires = b.netlist.gateWires ++ F.gates
  flops : d.netlist.flopStarts = b.netlist.flopStarts ++ F.flops
  ones : ∀ i, d.netlist.NamedOne i ↔ b.netlist.NamedOne i ∨ i ∈ F.ones
  outputs : d.netlist.primaryOutputs = b.netlist.primaryOutputs

/-- Moreover no name has been bound, and no bit of a bus has got a name. -/
structure Emits (b d : Draft) (F : Fragment) : Prop extends b.Gains d F where
  scope_eq : d.scope = b.scope
  indexed : ∀ name, ¬Unindexed name → d.netlist.signalId? name = b.netlist.signalId? name

variable {b d e : Draft} {F G : Fragment} {ids ids' : List SignalId}

theorem clear_nil (d : Draft) : d.Clear [] := ⟨.nil, nofun⟩

/-- Signals can be claimed in a row if the first can and then the others. -/
theorem clear_append (htaken : ∀ i, d.Taken i ↔ b.Taken i ∨ i ∈ ids) :
    b.Clear (ids ++ ids') ↔ b.Clear ids ∧ d.Clear ids' := by
  simp only [Clear, List.nodup_append, List.mem_append, htaken, not_or]
  constructor
  · rintro ⟨⟨hids, hids', hne⟩, hfree⟩
    refine ⟨⟨hids, fun i hi => hfree i (.inl hi)⟩, hids', fun i hi => ⟨hfree i (.inr hi), ?_⟩⟩
    exact fun hi' => hne i hi' i hi rfl
  · rintro ⟨⟨hids, hfree⟩, hids', hfree'⟩
    refine ⟨⟨hids, hids', ?_⟩, fun i hi => hi.elim (hfree i) fun hi => (hfree' i hi).1⟩
    rintro i hi j hj rfl
    exact (hfree' i hj).2 hi

theorem Gains.refl (hd : d.driven.size = d.netlist.signals.size) : d.Gains d {} where
  size_eq := rfl
  driven_size := hd
  clear := d.clear_nil
  taken _ := (or_iff_left List.not_mem_nil).symm
  gates := (List.append_nil _).symm
  flops := (List.append_nil _).symm
  ones _ := (or_iff_left List.not_mem_nil).symm
  outputs := rfl

theorem Gains.trans (h : b.Gains d F) (h' : d.Gains e G) : b.Gains e (F ++ G) where
  size_eq := by rw [h'.size_eq, h.size_eq, Fragment.count_append, Nat.add_assoc]
  driven_size := h'.driven_size
  clear := (clear_append h.taken).2 ⟨h.clear, h'.clear⟩
  taken i := by rw [h'.taken, h.taken, Fragment.claims_append, List.mem_append, or_assoc]
  gates := by rw [h'.gates, h.gates, Fragment.gates_append, List.append_assoc]
  flops := by rw [h'.flops, h.flops, Fragment.flops_append, List.append_assoc]
  ones i := by rw [h'.ones, h.ones, Fragment.ones_append, List.mem_append, or_assoc]
  outputs := h'.outputs.trans h.outputs

theorem Emits.refl (hd : d.driven.size = d.netlist.signals.size) : d.Emits d {} :=
  ⟨.refl hd, rfl, fun _ _ => rfl⟩

theorem Emits.trans (h : b.Emits d F) (h' : d.Emits e G) : b.Emits e (F ++ G) :=
  ⟨h.toGains.trans h'.toGains, h'.scope_eq.trans h.scope_eq,
    fun name hname => (h'.indexed name hname).trans (h.indexed name hname)⟩

theorem taken_lt {i : SignalId} (hd : d.driven.size = d.netlist.signals.size) (h : d.Taken i) :
    i < d.netlist.signals.size :=
  hd ▸ (Array.getElem?_eq_some_iff.1 h).1

/-! ## The primitives -/

/-- A new signal is free. -/
theorem gains_addSignal (hd : d.driven.size = d.netlist.signals.size) (name : String)
    (owner : InstanceId) :
    d.Gains (d.addSignal name owner)
      { count := 1, ones := if name = oneName then [d.netlist.signals.size] else [] } where
  size_eq := Array.size_push ..
  driven_size := by simp [addSignal, Netlist.addSignal, hd]
  clear := d.clear_nil
  taken i := by
    rw [or_iff_left List.not_mem_nil, Taken, Taken, addSignal, Array.getElem?_push]
    split
    · next heq => simp [heq]
    · rfl
  gates := (List.append_nil _).symm
  flops := (List.append_nil _).symm
  ones i := by
    refine Netlist.namedOne_addSignal.trans (or_congr_right ?_)
    split
    · next h => simp [h]
    · next h => simp [h]
  outputs := rfl

/-- A new signal whose name is that of no bit and not that of the constant 1. -/
theorem emits_addSignal (hd : d.driven.size = d.netlist.signals.size) {name : String}
    (hname : Unindexed name) (hone : name ≠ oneName) (owner : InstanceId) :
    d.Emits (d.addSignal name owner) { count := 1 } := by
  have h := gains_addSignal hd name owner
  rw [if_neg hone] at h
  refine ⟨h, rfl, fun other hother => ?_⟩
  have hne : name ≠ other := by
    rintro rfl
    exact hother hname
  exact (Netlist.signalId?_addSignal ..).trans (by rw [if_neg hne, Option.or_none])

theorem emits_claim (hd : d.driven.size = d.netlist.signals.size) {i : SignalId}
    (hfree : d.driven[i]? = some false) : d.Emits (d.claim i) { claims := [i] } where
  size_eq := rfl
  driven_size := Array.size_modify.trans hd
  clear := by
    refine ⟨List.nodup_singleton i, List.forall_mem_singleton.2 fun htaken => ?_⟩
    exact nomatch hfree.symm.trans htaken
  taken j := by
    rw [List.mem_singleton, Taken, claim, Array.getElem?_modify]
    split
    · next heq =>
      subst heq
      simp [hfree]
    · next hne => simp [Taken, Ne.symm hne]
  gates := (List.append_nil _).symm
  flops := (List.append_nil _).symm
  ones _ := (or_iff_left List.not_mem_nil).symm
  outputs := rfl
  scope_eq := rfl
  indexed _ _ := rfl

theorem emits_addNand (hd : d.driven.size = d.netlist.signals.size) (in1 in2 out : SignalId) :
    d.Emits { d with netlist := d.netlist.addNand in1 in2 out } { gates := [⟨in1, in2, out⟩] } where
  size_eq := rfl
  driven_size := hd
  clear := d.clear_nil
  taken _ := (or_iff_left List.not_mem_nil).symm
  gates := by simp [Netlist.gateWires, Netlist.addNand, NandGate.wires]
  flops := (List.append_nil _).symm
  ones _ := (or_iff_left List.not_mem_nil).symm
  outputs := rfl
  scope_eq := rfl
  indexed _ _ := rfl

theorem emits_addDff (hd : d.driven.size = d.netlist.signals.size) {a clk q : SignalId}
    {initial : Bool} {n : Netlist} (hn : d.netlist.addDff a clk q initial = .ok n) :
    d.Emits { d with netlist := n } { flops := [(⟨a, q⟩, initial)] } := by
  obtain ⟨signals, hsignals, hn⟩ := Except.bind_eq_ok.1 hn
  obtain ⟨-, rfl⟩ := Checked.modify_eq_ok.1 hsignals
  cases hn
  refine ⟨?_, rfl, fun _ _ => rfl⟩
  constructor
  case size_eq => exact Array.size_modify
  case driven_size => exact hd.trans Array.size_modify.symm
  case clear => exact d.clear_nil
  case taken => exact fun _ => (or_iff_left List.not_mem_nil).symm
  case gates => exact (List.append_nil _).symm
  case flops => simp [Netlist.flopStarts, Dff.wires]
  case ones =>
    intro i
    rw [or_iff_left List.not_mem_nil, Netlist.NamedOne, Netlist.NamedOne]
    simp only [Array.getElem?_modify]
    split
    · simp [Option.map_eq_some_iff]
    · rfl
  case outputs => rfl

end Draft

end NandHdl
