-- SUMMARY: Drafts in which every signal has at most one driver (`Draft.Accounted`), and the changes that keep them so (`Draft.Onward`).
import NandHdl.Proofs.Elaboration.Drafts

/-!
# Drivers of a draft

A signal that is handed out is known: if something drives it, the table of drivers says so. Hence
the right to drive a known signal is given only to signals that nothing drives yet. The table may
say more than is true, as it does for a moment whenever a signal is claimed, but never less.

The signal between the two gates of a copy is not in the table. It is not handed out either, so it
cannot be claimed later.
-/

namespace NandHdl

/-! ## Drivers and references of netlists -/

namespace Netlist

/-- The signals with a driver, once for each driver: the constants, the inputs of the circuit and
the outputs of flip-flops and gates. -/
def drivers (n : Netlist) : List SignalId :=
  zeroId :: oneId :: (n.primaryInputs.toList ++ n.drivenSignals)

/-- Every signal that the netlist refers to has a number below `count`. -/
structure RefersBelow (n : Netlist) (count : Nat) : Prop where
  gate_lt : ∀ g ∈ n.gates, g.in1 < count ∧ g.in2 < count ∧ g.out < count
  dff_lt : ∀ f ∈ n.dffs, f.d < count ∧ f.clk < count ∧ f.q < count
  port_lt : ∀ s, s ∈ n.primaryInputs ∨ s ∈ n.primaryOutputs → s < count
  name_lt : ∀ name s, n.signalId? name = some s → s < count
  clock_lt : ∀ s, n.clock = some s → s < count

/-- The signal is marked as the output of a flip-flop. -/
def Marked (n : Netlist) (i : SignalId) : Prop :=
  ∃ s, n.signals[i]? = some s ∧ s.isDffOutput = true

variable {n n' : Netlist}

theorem drivers_addNand (n : Netlist) (in1 in2 out : SignalId) :
    (n.addNand in1 in2 out).drivers.Perm (out :: n.drivers) := by
  have hlist : (n.addNand in1 in2 out).drivers = n.drivers ++ [out] := by
    simp [drivers, drivenSignals, addNand]
  rw [hlist]
  exact List.perm_append_singleton out _

namespace RefersBelow

variable {count : Nat}

theorem mono (h : n.RefersBelow count) {count' : Nat} (hle : count ≤ count') :
    n.RefersBelow count' where
  gate_lt g hg :=
    (h.gate_lt g hg).imp (Nat.lt_of_lt_of_le · hle) (And.imp (Nat.lt_of_lt_of_le · hle)
      (Nat.lt_of_lt_of_le · hle))
  dff_lt f hf :=
    (h.dff_lt f hf).imp (Nat.lt_of_lt_of_le · hle) (And.imp (Nat.lt_of_lt_of_le · hle)
      (Nat.lt_of_lt_of_le · hle))
  port_lt s hs := Nat.lt_of_lt_of_le (h.port_lt s hs) hle
  name_lt name s hs := Nat.lt_of_lt_of_le (h.name_lt name s hs) hle
  clock_lt s hs := Nat.lt_of_lt_of_le (h.clock_lt s hs) hle

theorem addAlias (h : n.RefersBelow count) (name : String) {id : SignalId} (hid : id < count) :
    (n.addAlias name id).RefersBelow count where
  gate_lt := h.gate_lt
  dff_lt := h.dff_lt
  port_lt := h.port_lt
  name_lt k s hk := by
    rw [signalId?_addAlias, Option.or_eq_some_iff] at hk
    rcases hk with hk | ⟨-, hk⟩
    · exact h.name_lt k s hk
    · split at hk
      · cases hk
        exact hid
      · exact nomatch hk
  clock_lt := h.clock_lt

theorem addSignal (h : n.RefersBelow n.signals.size) (name : String) (owner : InstanceId) :
    (n.addSignal name owner).RefersBelow (n.addSignal name owner).signals.size := by
  have hsize : (n.addSignal name owner).signals.size = n.signals.size + 1 := Array.size_push ..
  rw [hsize]
  obtain ⟨hgate, hdff, hport, hname, hclock⟩ :=
    (h.mono (Nat.le_succ _)).addAlias name (Nat.lt_succ_self _)
  exact ⟨hgate, hdff, hport, hname, hclock⟩

theorem addNand (h : n.RefersBelow count) {in1 in2 out : SignalId} (h1 : in1 < count)
    (h2 : in2 < count) (hout : out < count) : (n.addNand in1 in2 out).RefersBelow count where
  gate_lt g hg := by
    rcases Array.mem_push.1 hg with hg | rfl
    · exact h.gate_lt g hg
    · exact ⟨h1, h2, hout⟩
  dff_lt := h.dff_lt
  port_lt := h.port_lt
  name_lt := h.name_lt
  clock_lt := h.clock_lt

theorem addInstance (h : n.RefersBelow count) (moduleName : String) (parent : InstanceId)
    (namePrefix : String) : (n.addInstance moduleName parent namePrefix).RefersBelow count :=
  ⟨h.gate_lt, h.dff_lt, h.port_lt, h.name_lt, h.clock_lt⟩

end RefersBelow

/-! ## Marks -/

/-- A change of signals that leaves their marks alone. -/
theorem Marked.of_modify {k i : SignalId} {f : Signal → Signal}
    (hf : ∀ s, (f s).isDffOutput = s.isDffOutput) (hsignals : n'.signals = n.signals.modify k f)
    (h : n'.Marked i) : n.Marked i := by
  obtain ⟨s, hs, hmark⟩ := h
  rw [hsignals, Array.getElem?_modify] at hs
  split at hs
  · obtain ⟨s', hs', rfl⟩ := Option.map_eq_some_iff.1 hs
    exact ⟨s', hs', (hf s').symm.trans hmark⟩
  · exact ⟨s, hs, hmark⟩

theorem Marked.of_addSignal {name : String} {owner : InstanceId} {i : SignalId}
    (h : (n.addSignal name owner).Marked i) : n.Marked i := by
  obtain ⟨s, hs, hmark⟩ := h
  simp only [addSignal, Array.getElem?_push] at hs
  split at hs
  · cases hs
    exact absurd hmark Bool.false_ne_true
  · exact ⟨s, hs, hmark⟩

/-! ## Operations that may fail -/

theorem addDff_ok (h : n.RefersBelow n.signals.size) {d clk q : SignalId} (hd : d < n.signals.size)
    (hclk : clk < n.signals.size) (hq : q < n.signals.size) (initial : Bool) :
    ∃ n', n.addDff d clk q initial = .ok n' ∧ n'.signals.size = n.signals.size ∧
      n'.RefersBelow n.signals.size ∧ n'.drivers.Perm (q :: n.drivers) ∧
      ((∀ i, n.Marked i → i ∈ n.dffs.toList.map Dff.q) →
        ∀ i, n'.Marked i → i ∈ n'.dffs.toList.map Dff.q) := by
  refine ⟨_, by rw [addDff, Checked.modify_ok hq]; rfl, Array.size_modify, ?_, ?_, ?_⟩
  · refine ⟨h.gate_lt, fun f hf => ?_, h.port_lt, h.name_lt, h.clock_lt⟩
    rcases Array.mem_push.1 hf with hf | rfl
    · exact h.dff_lt f hf
    · exact ⟨hd, hclk, hq⟩
  · have hperm := @List.perm_middle _ q
      (zeroId :: oneId :: (n.primaryInputs.toList ++ n.dffs.toList.map Dff.q))
      (n.gates.toList.map NandGate.out)
    simpa [drivers, drivenSignals] using hperm
  · rintro hmarked i ⟨s, hs, hmark⟩
    simp only [Array.getElem?_modify] at hs
    simp only [Array.toList_push, List.map_append, List.mem_append]
    split at hs
    · next heq => exact .inr (by simp [heq])
    · exact .inl (hmarked i ⟨s, hs, hmark⟩)

theorem addPrimaryInput_ok (h : n.RefersBelow n.signals.size) {id : SignalId}
    (hid : id < n.signals.size) :
    ∃ n', n.addPrimaryInput id = .ok n' ∧ n'.signals.size = n.signals.size ∧
      n'.RefersBelow n.signals.size ∧ n'.drivers.Perm (id :: n.drivers) ∧ n'.dffs = n.dffs ∧
      ∀ i, n'.Marked i → n.Marked i := by
  refine ⟨_, by rw [addPrimaryInput, Checked.modify_ok hid]; rfl, Array.size_modify, ?_⟩
  refine ⟨⟨h.gate_lt, h.dff_lt, fun s hs => ?_, h.name_lt, h.clock_lt⟩, ?_, rfl,
    fun i hi => hi.of_modify (f := fun s => { s with isPrimaryInput := true }) (fun _ => rfl) rfl⟩
  · rcases hs with hs | hs
    · rcases Array.mem_push.1 hs with hs | rfl
      · exact h.port_lt s (.inl hs)
      · exact hid
    · exact h.port_lt s (.inr hs)
  · have hperm := @List.perm_middle _ id (zeroId :: oneId :: n.primaryInputs.toList)
      n.drivenSignals
    simpa [drivers, drivenSignals] using hperm

theorem addPrimaryOutput_ok (h : n.RefersBelow n.signals.size) {id : SignalId}
    (hid : id < n.signals.size) :
    ∃ n', n.addPrimaryOutput id = .ok n' ∧ n'.signals.size = n.signals.size ∧
      n'.RefersBelow n.signals.size ∧ n'.drivers = n.drivers ∧ n'.dffs = n.dffs ∧
      ∀ i, n'.Marked i → n.Marked i := by
  refine ⟨_, by rw [addPrimaryOutput, Checked.modify_ok hid]; rfl, Array.size_modify, ?_⟩
  refine ⟨⟨h.gate_lt, h.dff_lt, fun s hs => ?_, h.name_lt, h.clock_lt⟩, rfl, rfl,
    fun i hi => hi.of_modify (f := fun s => { s with isPrimaryOutput := true }) (fun _ => rfl) rfl⟩
  rcases hs with hs | hs
  · exact h.port_lt s (.inl hs)
  · rcases Array.mem_push.1 hs with hs | rfl
    · exact h.port_lt s (.inr hs)
    · exact hid

end Netlist

/-! ## Accounted drafts -/

/-- Every signal that is bound in the scope is as `P` says. -/
def Scope.All (P : SignalId → Prop) (s : Scope) : Prop :=
  ∀ name id, s.lookup? name = some id → P id

namespace Draft

/-- The signal is there, and if something drives it, the table says so. -/
structure Known (d : Draft) (id : SignalId) : Prop where
  lt : id < d.netlist.signals.size
  driven : id ∈ d.netlist.drivers → d.driven[id]? = some true

/-- No signal has two drivers, no reference dangles, and all bound signals are known. -/
structure Accounted (d : Draft) : Prop where
  driven_size : d.driven.size = d.netlist.signals.size
  refers : d.netlist.RefersBelow d.netlist.signals.size
  drivers_lt : ∀ i ∈ d.netlist.drivers, i < d.netlist.signals.size
  drivers_nodup : d.netlist.drivers.Nodup
  zero_driven : d.driven[zeroId]? = some true
  one_driven : d.driven[oneId]? = some true
  marked : ∀ i, d.netlist.Marked i → i ∈ d.netlist.dffs.toList.map Dff.q
  scope_known : d.scope.All d.Known

/-- What every step leads to: all is accounted for again, and what was known still is. -/
structure Onward (d d' : Draft) : Prop where
  accounted : d'.Accounted
  known : ∀ {id}, d.Known id → d'.Known id

/-- The draft with one more signal, which nothing drives. -/
def addSignal (d : Draft) (name : String) (owner : InstanceId) : Draft :=
  { d with netlist := d.netlist.addSignal name owner, driven := d.driven.push false }

/-- The draft after a signal was claimed. -/
def claim (d : Draft) (id : SignalId) : Draft :=
  { d with driven := d.driven.modify id fun _ => true }

variable {d d' d'' : Draft}

theorem driven_addSignal (name : String) (owner : InstanceId) {id : SignalId}
    (h : d.driven[id]? = some true) : (d.addSignal name owner).driven[id]? = some true := by
  have hlt := (Array.getElem?_eq_some_iff.1 h).1
  rw [addSignal, Array.getElem?_push_lt hlt, ← Array.getElem?_eq_getElem hlt, h]

/-- A known signal that is still free has no driver. -/
theorem Known.not_mem_drivers {id : SignalId} (hid : d.Known id)
    (hfree : d.driven[id]? = some false) : id ∉ d.netlist.drivers := by
  intro hmem
  exact nomatch (hid.driven hmem).symm.trans hfree

theorem Onward.trans (h : d.Onward d') (h' : d'.Onward d'') : d.Onward d'' :=
  ⟨h'.accounted, fun hid => h'.known (h.known hid)⟩

theorem Onward.known_all (h : d.Onward d') {bits : Bits} (hbits : ∀ id ∈ bits, d.Known id) :
    ∀ id ∈ bits, d'.Known id :=
  fun id hid => h.known (hbits id hid)

theorem Onward.known_scope (h : d.Onward d') {s : Scope} (hs : s.All d.Known) : s.All d'.Known :=
  fun name id hid => h.known (hs name id hid)

namespace Accounted

theorem onward_self (hd : d.Accounted) : d.Onward d := ⟨hd, fun hid => hid⟩

theorem zero_known (hd : d.Accounted) : d.Known zeroId :=
  ⟨hd.drivers_lt zeroId List.mem_cons_self, fun _ => hd.zero_driven⟩

theorem one_known (hd : d.Accounted) : d.Known oneId :=
  ⟨hd.drivers_lt oneId (List.mem_cons_of_mem _ List.mem_cons_self), fun _ => hd.one_driven⟩

/-- A change that gives no signal a driver. The tables may grow, and the table of drivers may say
more. -/
theorem onward_undriven (hd : d.Accounted) (hscope : d'.scope = d.scope)
    (hsize : d.netlist.signals.size ≤ d'.netlist.signals.size)
    (hdriven_size : d'.driven.size = d'.netlist.signals.size)
    (hdriven : ∀ {i : SignalId}, d.driven[i]? = some true → d'.driven[i]? = some true)
    (hdrivers : d'.netlist.drivers = d.netlist.drivers)
    (hdffs : d'.netlist.dffs = d.netlist.dffs)
    (hrefers : d'.netlist.RefersBelow d'.netlist.signals.size)
    (hmarked : ∀ i, d'.netlist.Marked i → d.netlist.Marked i) : d.Onward d' := by
  have hknown : ∀ {id}, d.Known id → d'.Known id := fun hid =>
    ⟨Nat.lt_of_lt_of_le hid.lt hsize, fun hmem => hdriven (hid.driven (hdrivers ▸ hmem))⟩
  refine ⟨?_, hknown⟩
  constructor
  case driven_size => exact hdriven_size
  case refers => exact hrefers
  case drivers_lt => exact hdrivers ▸ fun i hi => Nat.lt_of_lt_of_le (hd.drivers_lt i hi) hsize
  case drivers_nodup => exact hdrivers ▸ hd.drivers_nodup
  case zero_driven => exact hdriven hd.zero_driven
  case one_driven => exact hdriven hd.one_driven
  case marked => exact fun i hi => hdffs ▸ hd.marked i (hmarked i hi)
  case scope_known => exact fun name id hid => hknown (hd.scope_known name id (hscope ▸ hid))

/-- Changes of names, marks and instances. -/
theorem onward_netlist (hd : d.Accounted) {n : Netlist}
    (hsize : n.signals.size = d.netlist.signals.size) (hdrivers : n.drivers = d.netlist.drivers)
    (hdffs : n.dffs = d.netlist.dffs) (hrefers : n.RefersBelow d.netlist.signals.size)
    (hmarked : ∀ i, n.Marked i → d.netlist.Marked i) : d.Onward { d with netlist := n } :=
  hd.onward_undriven rfl (Nat.le_of_eq hsize.symm) (hd.driven_size.trans hsize.symm)
    (fun hi => hi) hdrivers hdffs (hsize ▸ hrefers) hmarked

theorem onward_scope (hd : d.Accounted) {s : Scope} (hs : s.All d.Known) :
    d.Onward { d with scope := s } :=
  ⟨⟨hd.driven_size, hd.refers, hd.drivers_lt, hd.drivers_nodup, hd.zero_driven, hd.one_driven,
    hd.marked, fun name id hid => ⟨(hs name id hid).lt, (hs name id hid).driven⟩⟩,
    fun hid => ⟨hid.lt, hid.driven⟩⟩

/-- A new signal is known, since nothing drives it. -/
theorem onward_addSignal (hd : d.Accounted) (name : String) (owner : InstanceId) :
    d.Onward (d.addSignal name owner) ∧
      (d.addSignal name owner).Known d.netlist.signals.size := by
  have hsize : (d.addSignal name owner).netlist.signals.size = d.netlist.signals.size + 1 :=
    Array.size_push ..
  have hdriven_size : (d.addSignal name owner).driven.size = d.netlist.signals.size + 1 := by
    rw [← hd.driven_size, addSignal, Array.size_push]
  constructor
  · exact hd.onward_undriven rfl (hsize ▸ Nat.le_succ _) (hdriven_size.trans hsize.symm)
      (driven_addSignal name owner) rfl rfl (hd.refers.addSignal name owner)
      fun _ hi => hi.of_addSignal
  · refine ⟨hsize ▸ Nat.lt_succ_self _, fun hmem => ?_⟩
    exact absurd (hd.drivers_lt _ hmem) (Nat.lt_irrefl _)

/-- To claim a signal makes the table say more. -/
theorem onward_claim (hd : d.Accounted) {id : SignalId} (hid : id < d.netlist.signals.size) :
    d.Onward (d.claim id) ∧ (d.claim id).driven[id]? = some true := by
  have hdriven : ∀ {i : SignalId}, d.driven[i]? = some true →
      (d.claim id).driven[i]? = some true := by
    intro i hi
    rw [claim, Array.getElem?_modify]
    split
    · rw [hi]
      rfl
    · exact hi
  constructor
  · exact hd.onward_undriven rfl (Nat.le_refl _) (Array.size_modify.trans hd.driven_size) hdriven
      rfl rfl hd.refers fun _ hi => hi
  · have hlt : id < d.driven.size := hd.driven_size ▸ hid
    rw [claim, Array.getElem?_modify, if_pos rfl, Array.getElem?_eq_getElem hlt]
    rfl

/-- A free signal gets a driver in a draft `d'` on the way from `d`. Either it has been claimed, or
it was made on the way and is handed out nowhere. -/
theorem onward_driver (hd : d.Accounted) (h : d.Onward d') {n : Netlist} {out : SignalId}
    (hscope : d'.scope = d.scope) (hsize : n.signals.size = d'.netlist.signals.size)
    (hrefers : n.RefersBelow d'.netlist.signals.size)
    (hmarked : ∀ i, n.Marked i → i ∈ n.dffs.toList.map Dff.q)
    (hdrivers : n.drivers.Perm (out :: d'.netlist.drivers)) (hfree : out ∉ d'.netlist.drivers)
    (hlt : out < d'.netlist.signals.size)
    (hout : d'.driven[out]? = some true ∨ d.netlist.signals.size ≤ out) :
    d.Onward { d' with netlist := n } := by
  have hd' := h.accounted
  have hknown : ∀ {id}, d.Known id → Known { d' with netlist := n } id := by
    intro id hid
    have hid' := h.known hid
    refine ⟨hsize ▸ hid'.lt, fun hmem => ?_⟩
    rcases List.mem_cons.1 (hdrivers.mem_iff.1 hmem) with rfl | hmem
    -- A signal that was made on the way is too new to have been known at its start.
    · exact hout.elim (fun hclaimed => hclaimed) fun hge => absurd hid.lt (Nat.not_lt.2 hge)
    · exact hid'.driven hmem
  refine ⟨?_, hknown⟩
  constructor
  case driven_size => exact hd'.driven_size.trans hsize.symm
  case refers => exact hsize ▸ hrefers
  case drivers_lt =>
    intro i hi
    rcases List.mem_cons.1 (hdrivers.mem_iff.1 hi) with rfl | hi
    · exact hsize ▸ hlt
    · exact hsize ▸ hd'.drivers_lt i hi
  case drivers_nodup => exact hdrivers.nodup_iff.2 (List.nodup_cons.2 ⟨hfree, hd'.drivers_nodup⟩)
  case zero_driven => exact hd'.zero_driven
  case one_driven => exact hd'.one_driven
  case marked => exact hmarked
  case scope_known => exact fun name id hid => hknown (hd.scope_known name id (hscope ▸ hid))

theorem onward_addNand (hd : d.Accounted) (h : d.Onward d') (hscope : d'.scope = d.scope)
    {in1 in2 out : SignalId} (h1 : in1 < d'.netlist.signals.size)
    (h2 : in2 < d'.netlist.signals.size) (hfree : out ∉ d'.netlist.drivers)
    (hlt : out < d'.netlist.signals.size)
    (hout : d'.driven[out]? = some true ∨ d.netlist.signals.size ≤ out) :
    d.Onward { d' with netlist := d'.netlist.addNand in1 in2 out } :=
  hd.onward_driver h hscope rfl (h.accounted.refers.addNand h1 h2 hlt) h.accounted.marked
    (Netlist.drivers_addNand ..) hfree hlt hout

/-- The numbers and drivers of an accounted draft are those of a well-formed netlist. -/
theorem wellformed (hd : d.Accounted) : d.netlist.Wellformed := by
  have hdriven : d.netlist.drivenSignals.Nodup :=
    hd.drivers_nodup.of_cons.of_cons.of_append_right
  constructor
  case gate_lt => exact hd.refers.gate_lt
  case dff_lt => exact hd.refers.dff_lt
  case port_lt => exact hd.refers.port_lt
  case name_lt => exact hd.refers.name_lt _ _
  case clock_lt => exact hd.refers.clock_lt
  case driven_nodup => exact hdriven
  case unmarked =>
    intro g hg s hs
    by_contra hmark
    have hq := hd.marked g.out ⟨s, hs, by simpa using hmark⟩
    obtain ⟨f, hf, heq⟩ := List.mem_map.1 hq
    exact (Netlist.drivenSignals_nodup_iff.1 hdriven).2.2 f (Array.mem_toList_iff.1 hf) g hg heq.symm

end Accounted

end Draft

/-! ## Scopes -/

namespace Scope

variable {P : SignalId → Prop} {s : Scope}

theorem All.addPort (h : s.All P) (name : String) : (s.addPort name).All P := h

/-- An inlined body can read what its caller can read. -/
theorem All.child (h : s.All P) (moduleName namePrefix : String) (owner : InstanceId) :
    (s.child moduleName namePrefix owner).All P := h

theorem All.bits? (h : s.All P) {name : String} {bits : Bits} (hbits : s.bits? name = some bits) :
    ∀ id ∈ bits, P id := by
  intro id hid
  cases hbus : s.buses[name]? with
  | none =>
    rw [bits?_of_scalar hbus, Option.map_eq_some_iff] at hbits
    obtain ⟨found, hfound, rfl⟩ := hbits
    exact h name id (List.mem_singleton.1 hid ▸ hfound)
  | some width =>
    obtain ⟨i, hi⟩ := List.getElem?_of_mem hid
    obtain ⟨hlength, hlookup⟩ := (bits?_eq_some_of_bus hbus).1 hbits
    have hlt : i < width := hlength ▸ (List.getElem?_eq_some_iff.1 hi).1
    exact h (bitName name i) id ((hlookup i hlt).trans hi)

theorem all_insert {signals : NameMap SignalId} {name : String} {id : SignalId}
    (h : ∀ (x : String) (id : SignalId), signals[x]? = some id → P id) (hid : P id) (x : String)
    (id' : SignalId) (hx : (signals.insert name id)[x]? = some id') : P id' := by
  rw [Std.TreeMap.getElem?_insert] at hx
  split at hx
  · cases hx
    exact hid
  · exact h x id' hx

theorem all_bindFrom {signals : NameMap SignalId} {name : String} {start : Nat} {bits : Bits}
    (h : ∀ (x : String) (id : SignalId), signals[x]? = some id → P id) (hbits : ∀ id ∈ bits, P id) :
    ∀ (x : String) (id : SignalId), (bindFrom name signals start bits)[x]? = some id → P id := by
  induction bits generalizing signals start with
  | nil => exact h
  | cons id rest ih =>
    rw [List.forall_mem_cons] at hbits
    exact ih (all_insert h hbits.1) hbits.2

theorem All.bind (h : s.All P) (name : String) {bits : Bits} (hbits : ∀ id ∈ bits, P id) :
    (s.bind name bits).All P := by
  match bits with
  | [] => exact h
  | [id] => exact all_insert h (hbits id List.mem_cons_self)
  | id :: id' :: rest => exact all_insert (all_bindFrom h hbits) (hbits id List.mem_cons_self)

end Scope

end NandHdl
