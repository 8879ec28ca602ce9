-- SUMMARY: What the steps of elaboration add to a draft (`Draft.Adds`), and that a wired signal copies its source (`Elab.wire_spec`).
import NandHdl.Elaboration.Draft
import NandHdl.Proofs.Elaboration.Names
import NandHdl.Proofs.Settling

/-!
# Growing drafts

Elaboration only adds to a netlist. Hence what is true of a valuation in which the gates of a draft
have settled stays true when the draft grows, and every step can be judged when it is made.
-/

namespace NandHdl

/-! ## Netlists that grow -/

namespace Netlist

/-- The gates, flip-flops and instances of `n` are in `n'` as well. -/
structure Extends (n n' : Netlist) : Prop where
  gate : ∀ g ∈ n.gates, g ∈ n'.gates
  dff : ∀ f ∈ n.dffs, f ∈ n'.dffs
  inst : ∀ {i : Nat} {inst : Instance}, n.instances[i]? = some inst → n'.instances[i]? = some inst

variable {n n' n'' : Netlist} {v : Valuation}

theorem Extends.refl (n : Netlist) : n.Extends n := ⟨fun _ h => h, fun _ h => h, fun h => h⟩

theorem Extends.trans (h : n.Extends n') (h' : n'.Extends n'') : n.Extends n'' where
  gate g hg := h'.gate g (h.gate g hg)
  dff f hf := h'.dff f (h.dff f hf)
  inst hi := h'.inst (h.inst hi)

/-- Growing by signals and names alone. -/
theorem Extends.of_eq (hgates : n'.gates = n.gates) (hdffs : n'.dffs = n.dffs)
    (hinstances : n'.instances = n.instances) : n.Extends n' where
  gate _ hg := hgates ▸ hg
  dff _ hf := hdffs ▸ hf
  inst hi := hinstances ▸ hi

theorem Extends.addNand (n : Netlist) (in1 in2 out : SignalId) :
    n.Extends (n.addNand in1 in2 out) where
  gate _ hg := Array.mem_push_of_mem _ hg
  dff _ hf := hf
  inst hi := hi

/-- The gates have settled, and the constants hold their values. -/
structure AtRest (n : Netlist) (v : Valuation) : Prop where
  settled : n.Settled v
  zero : v zeroId = false
  one : v oneId = true

theorem AtRest.of_extends (hv : n'.AtRest v) (h : n.Extends n') : n.AtRest v :=
  ⟨fun g hg => hv.settled g (h.gate g hg), hv.zero, hv.one⟩

/-- Past the only bit of a value. -/
theorem AtRest.past (hv : n.AtRest v) (id : SignalId) (k : Nat) :
    v ([id].getD (k + 1) zeroId) = false :=
  hv.zero

theorem AtRest.constantBit (hv : n.AtRest v) (b : Bool) : v (constantBit b) = b := by
  cases b with
  | false => exact hv.zero
  | true => exact hv.one

end Netlist

/-! ## Drafts that grow -/

namespace Draft

/-- The numbering is by position, the drivers are known for every signal, and no gate drives a
constant. -/
structure Lawful (d : Draft) : Prop where
  numbered : d.netlist.Numbered
  driven_size : d.driven.size = d.netlist.signals.size
  zero_driven : d.driven[zeroId]? = some true
  one_driven : d.driven[oneId]? = some true
  gate_out : ∀ g ∈ d.netlist.gates, oneId < g.out

/-- What every step of elaboration leads to. -/
structure Extends (d d' : Draft) : Prop where
  netlist : d.netlist.Extends d'.netlist
  lawful : d'.Lawful

/-- What a step does that opens no instance and leaves the scope `s`. -/
structure Rebinds (d d' : Draft) (s : Scope) : Prop extends d.Extends d' where
  scope_eq : d'.scope = s
  instances_eq : d'.netlist.instances = d.netlist.instances

/-- What a step does that neither opens an instance nor binds a name. -/
abbrev Adds (d d' : Draft) : Prop := d.Rebinds d' d.scope

variable {d d' d'' : Draft}

theorem Lawful.extends_self (hd : d.Lawful) : d.Extends d := ⟨.refl _, hd⟩

theorem Extends.trans (h : d.Extends d') (h' : d'.Extends d'') : d.Extends d'' :=
  ⟨h.netlist.trans h'.netlist, h'.lawful⟩

theorem Lawful.adds_self (hd : d.Lawful) : d.Adds d := ⟨hd.extends_self, rfl, rfl⟩

theorem Rebinds.trans {s s' : Scope} (h : d.Rebinds d' s) (h' : d'.Rebinds d'' s') :
    d.Rebinds d'' s' where
  toExtends := h.toExtends.trans h'.toExtends
  scope_eq := h'.scope_eq
  instances_eq := h'.instances_eq.trans h.instances_eq

theorem Rebinds.adds {s : Scope} (h : d.Rebinds d' s) (h' : d'.Adds d'') : d.Rebinds d'' s where
  toExtends := h.toExtends.trans h'.toExtends
  scope_eq := h'.scope_eq.trans h.scope_eq
  instances_eq := h'.instances_eq.trans h.instances_eq

theorem Adds.trans (h : d.Adds d') (h' : d'.Adds d'') : d.Adds d'' := Rebinds.adds h h'

/-- A new table of signals and names, with the gates, flip-flops and instances of the old one. -/
theorem Lawful.adds_netlist (hd : d.Lawful) {n : Netlist} (hn : n.Numbered)
    (hsize : n.signals.size = d.netlist.signals.size) (hgates : n.gates = d.netlist.gates)
    (hdffs : n.dffs = d.netlist.dffs) (hinstances : n.instances = d.netlist.instances) :
    d.Adds { d with netlist := n } where
  netlist := .of_eq hgates hdffs hinstances
  lawful := ⟨hn, hd.driven_size.trans hsize.symm, hd.zero_driven, hd.one_driven,
    hgates ▸ hd.gate_out⟩
  scope_eq := rfl
  instances_eq := hinstances

theorem Lawful.rebinds_self (hd : d.Lawful) (s : Scope) : d.Rebinds { d with scope := s } s where
  netlist := .refl _
  lawful := ⟨hd.numbered, hd.driven_size, hd.zero_driven, hd.one_driven, hd.gate_out⟩
  scope_eq := rfl
  instances_eq := rfl

/-- A signal that is still without a driver is no constant. -/
theorem Lawful.one_lt (hd : d.Lawful) {id : SignalId} (h : d.driven[id]? = some false) :
    oneId < id := by
  rcases Nat.lt_trichotomy id oneId with hlt | rfl | hlt
  · obtain rfl : id = zeroId := Nat.lt_one_iff.1 hlt
    exact nomatch hd.zero_driven.symm.trans h
  · exact nomatch hd.one_driven.symm.trans h
  · exact hlt

theorem Lawful.one_lt_size (hd : d.Lawful) : oneId < d.netlist.signals.size := by
  rw [← hd.driven_size]
  exact (Array.getElem?_eq_some_iff.1 hd.one_driven).1

end Draft

/-! ## Runs -/

namespace Elab

variable {α β : Type} {d d' : Draft}

theorem bind_eq_ok {x : Elab α} {f : α → Elab β} {b : β} :
    (x >>= f).run d = .ok (b, d') ↔
      ∃ a d₁, x.run d = .ok (a, d₁) ∧ (f a).run d₁ = .ok (b, d') := by
  rw [StateT.run_bind, Except.bind_eq_ok, Prod.exists]

theorem pure_eq_ok {a b : α} :
    (pure a : Elab α).run d = .ok (b, d') ↔ b = a ∧ d' = d := by
  rw [StateT.run_pure]
  simp [pure, Except.pure, eq_comm]

theorem discard_eq_ok {x : Elab α} {u : PUnit} (h : (discard x).run d = .ok (u, d')) :
    ∃ a, x.run d = .ok (a, d') := by
  have hmap : (discard x).run d = x.run d >>= fun r => pure (PUnit.unit, r.2) := rfl
  rw [hmap, Except.bind_eq_ok] at h
  obtain ⟨r, hr, hresult⟩ := h
  cases hresult
  exact ⟨r.1, hr⟩

theorem throw_ne_ok {e : ElabError} {a : α} : ¬(throw e : Elab α).run d = .ok (a, d') :=
  nofun

theorem scope_run : scope.run d = .ok (d.scope, d) := rfl

theorem modifyScope_eq_ok {f : Scope → Scope} {u : Unit} :
    (modifyScope f).run d = .ok (u, d') ↔ d' = { d with scope := f d.scope } :=
  ⟨fun h => by cases h; rfl, fun h => by cases h; rfl⟩

theorem modifyNetlist_eq_ok {f : Netlist → Netlist} {u : Unit} :
    (modifyNetlist f).run d = .ok (u, d') ↔ d' = { d with netlist := f d.netlist } :=
  ⟨fun h => by cases h; rfl, fun h => by cases h; rfl⟩

theorem ofChecked_eq_ok {c : Checked α} {a : α} :
    (ofChecked c).run d = .ok (a, d') ↔ c = .ok a ∧ d' = d := by
  cases c with
  | error f => exact ⟨nofun, nofun⟩
  | ok b =>
    rw [ofChecked, pure_eq_ok]
    simp [eq_comm]

theorem unknownSignal_ne_ok {name : String} {a : α} :
    ¬(unknownSignal name : Elab α).run d = .ok (a, d') :=
  nofun

theorem bitsOf_eq_ok {name : String} {bits : Bits} :
    (bitsOf name).run d = .ok (bits, d') ↔ d.scope.bits? name = some bits ∧ d' = d := by
  unfold bitsOf
  rw [bind_eq_ok]
  simp only [scope_run, Except.ok.injEq, Prod.mk.injEq]
  constructor
  · rintro ⟨s, d₁, ⟨rfl, rfl⟩, h⟩
    cases hbits : d.scope.bits? name with
    | none =>
      rw [hbits] at h
      exact absurd h unknownSignal_ne_ok
    | some found =>
      rw [hbits] at h
      obtain ⟨rfl, rfl⟩ := pure_eq_ok.1 h
      exact ⟨rfl, rfl⟩
  · rintro ⟨h, rfl⟩
    refine ⟨_, _, ⟨rfl, rfl⟩, ?_⟩
    rw [h]
    rfl

theorem bitsOf_error {name : String} (h : d.scope.bits? name = none) :
    ∃ e, (bitsOf name).run d = .error e := by
  refine ⟨.unknownSignal name d.scope.moduleName, ?_⟩
  unfold bitsOf
  rw [StateT.run_bind, scope_run, Except.ok_bind, h]
  rfl

/-! ## Signals and gates -/

theorem newSignal_spec (hd : d.Lawful) {name : String} {owner : InstanceId} {id : SignalId}
    (h : (newSignal name owner).run d = .ok (id, d')) :
    d.Adds d' ∧ id = d.netlist.signals.size := by
  cases h
  refine ⟨⟨⟨.of_eq rfl rfl rfl, ?_⟩, rfl, rfl⟩, rfl⟩
  have hold : ∀ {i : SignalId}, d.driven[i]? = some true →
      (d.driven.push false)[i]? = some true := by
    intro i hi
    have hlt := (Array.getElem?_eq_some_iff.1 hi).1
    rw [Array.getElem?_push_lt hlt, ← Array.getElem?_eq_getElem hlt, hi]
  refine ⟨hd.numbered.addSignal name owner, ?_, hold hd.zero_driven, hold hd.one_driven,
    hd.gate_out⟩
  simp [Netlist.addSignal, hd.driven_size]

theorem length_newSignals {owner : InstanceId} {names : List String} {bits : Bits}
    (h : (newSignals owner names).run d = .ok (bits, d')) : bits.length = names.length := by
  induction names generalizing d bits with
  | nil =>
    obtain ⟨rfl, rfl⟩ := pure_eq_ok.1 h
    rfl
  | cons name rest ih =>
    obtain ⟨id, d₁, -, h⟩ := bind_eq_ok.1 h
    obtain ⟨ids, d₂, hids, h⟩ := bind_eq_ok.1 h
    obtain ⟨rfl, rfl⟩ := pure_eq_ok.1 h
    exact congrArg (· + 1) (ih hids)

theorem newSignals_spec (hd : d.Lawful) {owner : InstanceId} {names : List String} {bits : Bits}
    (h : (newSignals owner names).run d = .ok (bits, d')) :
    d.Adds d' ∧ bits.length = names.length := by
  refine ⟨?_, length_newSignals h⟩
  induction names generalizing d bits with
  | nil =>
    obtain ⟨-, rfl⟩ := pure_eq_ok.1 h
    exact hd.adds_self
  | cons name rest ih =>
    obtain ⟨id, d₁, hid, h⟩ := bind_eq_ok.1 h
    obtain ⟨ids, d₂, hids, h⟩ := bind_eq_ok.1 h
    obtain ⟨-, rfl⟩ := pure_eq_ok.1 h
    obtain ⟨hadds, -⟩ := newSignal_spec hd hid
    exact hadds.trans (ih hadds.lawful hids)

theorem length_bitNames (name : String) (width : Nat) : (bitNames name width).length = width := by
  unfold bitNames
  split
  · next h => simp [h]
  · simp

theorem ne_nil_of_length {bits : Bits} {width : Nat} (h : bits.length = max 1 width) : bits ≠ [] := by
  rintro rfl
  have hpos := Nat.le_max_left 1 width
  rw [← h] at hpos
  exact absurd hpos (by decide)

/-- A declared name is bound to new signals, at least one. -/
theorem declare_eq_ok {name : String} {width : Nat} {bits : Bits}
    (h : (declare name width).run d = .ok (bits, d')) :
    bits.length = max 1 width ∧ ∃ names d₁,
      (newSignals d.scope.owner names).run d = .ok (bits, d₁) ∧
        d' = { d₁ with scope := d₁.scope.bind name bits } := by
  obtain ⟨_, _, hscope, h⟩ := bind_eq_ok.1 h
  cases hscope
  obtain ⟨_, d₁, hnew, h⟩ := bind_eq_ok.1 h
  obtain ⟨_, d₂, hbind, h⟩ := bind_eq_ok.1 h
  obtain rfl := modifyScope_eq_ok.1 hbind
  obtain ⟨rfl, rfl⟩ := pure_eq_ok.1 h
  refine ⟨?_, _, d₁, hnew, rfl⟩
  rw [length_newSignals hnew, List.length_map, length_bitNames]

theorem declare_spec (hd : d.Lawful) {name : String} {width : Nat} {bits : Bits}
    (h : (declare name width).run d = .ok (bits, d')) :
    d.Rebinds d' (d.scope.bind name bits) ∧ bits.length = max 1 width := by
  obtain ⟨hlength, names, d₁, hnew, rfl⟩ := declare_eq_ok h
  obtain ⟨hadds, -⟩ := newSignals_spec hd hnew
  refine ⟨?_, hlength⟩
  rw [← hadds.scope_eq]
  exact Draft.Rebinds.trans hadds (hadds.lawful.rebinds_self _)

theorem claimDriver_eq_ok {id : SignalId} {u : Unit} (h : (claimDriver id).run d = .ok (u, d')) :
    d.driven[id]? = some false ∧ d' = { d with driven := d.driven.modify id fun _ => true } := by
  obtain ⟨_, _, hget, h⟩ := bind_eq_ok.1 h
  cases hget
  obtain ⟨taken, _, htaken, h⟩ := bind_eq_ok.1 h
  obtain ⟨htaken, rfl⟩ := ofChecked_eq_ok.1 htaken
  cases taken with
  | true =>
    obtain ⟨_, _, _, hthrow⟩ := bind_eq_ok.1 h
    exact absurd hthrow throw_ne_ok
  | false =>
    cases h
    exact ⟨Checked.get_eq_ok.1 htaken, rfl⟩

theorem claimDriver_spec (hd : d.Lawful) {id : SignalId} {u : Unit}
    (h : (claimDriver id).run d = .ok (u, d')) : d.Adds d' ∧ oneId < id := by
  obtain ⟨hfree, rfl⟩ := claimDriver_eq_ok h
  have hlt := hd.one_lt hfree
  have hzero : id ≠ zeroId := Nat.ne_of_gt (Nat.lt_trans Nat.one_pos hlt)
  refine ⟨⟨⟨.refl _, hd.numbered, ?_, ?_, ?_, hd.gate_out⟩, rfl, rfl⟩, hlt⟩
  · simp [hd.driven_size]
  · rw [Array.getElem?_modify, if_neg hzero, hd.zero_driven]
  · rw [Array.getElem?_modify, if_neg (Nat.ne_of_gt hlt), hd.one_driven]

/-- A gate may drive any signal but a constant. -/
theorem addNand_spec (hd : d.Lawful) {in1 in2 out : SignalId} {u : Unit} (hout : oneId < out)
    (h : (addNand in1 in2 out).run d = .ok (u, d')) :
    d.Adds d' ∧ ∀ v, d'.netlist.Settled v → v out = !(v in1 && v in2) := by
  obtain rfl := modifyNetlist_eq_ok.1 h
  refine ⟨⟨⟨.addNand _ _ _ _, ?_⟩, rfl, rfl⟩, fun v hv => hv _ Array.mem_push_self⟩
  refine ⟨hd.numbered.addNand in1 in2 out, hd.driven_size, hd.zero_driven, hd.one_driven, ?_⟩
  intro g hg
  rcases Array.mem_push.1 hg with hg | rfl
  · exact hd.gate_out g hg
  · exact hout

theorem newGateOutput_spec (hd : d.Lawful) {out : SignalId}
    (h : newGateOutput.run d = .ok (out, d')) : d.Adds d' ∧ oneId < out := by
  obtain ⟨_, _, hget, h⟩ := bind_eq_ok.1 h
  cases hget
  obtain ⟨hadds, rfl⟩ := newSignal_spec hd h
  exact ⟨hadds, hd.one_lt_size⟩

theorem emitNand_spec (hd : d.Lawful) {a b out : SignalId}
    (h : (emitNand a b).run d = .ok (out, d')) :
    d.Adds d' ∧ ∀ v, d'.netlist.Settled v → v out = !(v a && v b) := by
  obtain ⟨id, d₁, hout, h⟩ := bind_eq_ok.1 h
  obtain ⟨_, d₂, hclaim, h⟩ := bind_eq_ok.1 h
  obtain ⟨_, d₃, hgate, h⟩ := bind_eq_ok.1 h
  obtain ⟨rfl, rfl⟩ := pure_eq_ok.1 h
  obtain ⟨hnew, -⟩ := newGateOutput_spec hd hout
  obtain ⟨hclaimed, hlt⟩ := claimDriver_spec hnew.lawful hclaim
  obtain ⟨hadded, hvalue⟩ := addNand_spec hclaimed.lawful hlt hgate
  exact ⟨(hnew.trans hclaimed).trans hadded, hvalue⟩

theorem addDff_spec {n n' : Netlist} {d clk q : SignalId} {b : Bool}
    (h : n.addDff d clk q b = .ok n') :
    n.Extends n' ∧ n'.gates = n.gates ∧ n'.signals.size = n.signals.size ∧
      n'.instances = n.instances ∧ ∃ f ∈ n'.dffs, f.d = d ∧ f.clk = clk ∧ f.q = q := by
  obtain ⟨signals, hsignals, hn⟩ := Except.bind_eq_ok.1 h
  obtain ⟨-, rfl⟩ := Checked.modify_eq_ok.1 hsignals
  cases hn
  refine ⟨⟨fun _ hg => hg, fun _ hf => Array.mem_push_of_mem _ hf, fun hi => hi⟩, rfl,
    Array.size_modify, rfl, ?_⟩
  exact ⟨_, Array.mem_push_self, rfl, rfl, rfl⟩

theorem emitDff_eq_ok {a clk q : SignalId} (h : (emitDff a clk).run d = .ok (q, d')) :
    ∃ name d₁ d₂ n, (newSignal name d.scope.owner).run d = .ok (q, d₁) ∧
      (claimDriver q).run d₁ = .ok ((), d₂) ∧ d₂.netlist.addDff a clk q false = .ok n ∧
        d' = { d₂ with netlist := n } := by
  obtain ⟨_, _, hget, hemit⟩ := bind_eq_ok.1 h
  cases hget
  obtain ⟨id, d₁, hq, hemit⟩ := bind_eq_ok.1 hemit
  obtain ⟨_, d₂, hclaim, hemit⟩ := bind_eq_ok.1 hemit
  obtain ⟨_, _, hget', hemit⟩ := bind_eq_ok.1 hemit
  cases hget'
  obtain ⟨netlist, _, hchecked, hset⟩ := bind_eq_ok.1 hemit
  obtain ⟨hnetlist, rfl⟩ := ofChecked_eq_ok.1 hchecked
  obtain ⟨_, d₃, hmodify, hdone⟩ := bind_eq_ok.1 hset
  obtain rfl := modifyNetlist_eq_ok.1 hmodify
  obtain ⟨rfl, rfl⟩ := pure_eq_ok.1 hdone
  exact ⟨_, d₁, _, netlist, hq, hclaim, hnetlist, rfl⟩

theorem emitDff_spec (hd : d.Lawful) {a clk q : SignalId}
    (h : (emitDff a clk).run d = .ok (q, d')) :
    d.Adds d' ∧ ∃ f ∈ d'.netlist.dffs, f.d = a ∧ f.clk = clk ∧ f.q = q := by
  obtain ⟨name, d₁, d₂, n, hq, hclaim, hnetlist, rfl⟩ := emitDff_eq_ok h
  obtain ⟨hnew, -⟩ := newSignal_spec hd hq
  obtain ⟨hclaimed, -⟩ := claimDriver_spec hnew.lawful hclaim
  obtain ⟨hextends, hgates, hsize, hinstances, hdff⟩ := addDff_spec hnetlist
  have hlawful := hclaimed.lawful
  refine ⟨(hnew.trans hclaimed).trans ⟨⟨hextends, ?_⟩, rfl, hinstances⟩, hdff⟩
  exact ⟨hlawful.numbered.addDff hnetlist, hlawful.driven_size.trans hsize.symm,
    hlawful.zero_driven, hlawful.one_driven, hgates ▸ hlawful.gate_out⟩

/-! ## Wiring -/

/-- Two inverters in a row copy a signal. -/
theorem wireInto_spec (hd : d.Lawful) {src dst : SignalId} {u : Unit}
    (h : (wireInto src dst).run d = .ok (u, d')) :
    d.Adds d' ∧ ∀ v, d'.netlist.Settled v → v dst = v src := by
  unfold wireInto at h
  split at h
  · next heq =>
    obtain ⟨-, rfl⟩ := pure_eq_ok.1 h
    exact ⟨hd.adds_self, fun v _ => by rw [heq]⟩
  · obtain ⟨_, d₁, hclaim, h⟩ := bind_eq_ok.1 h
    obtain ⟨t, d₂, ht, h⟩ := bind_eq_ok.1 h
    obtain ⟨_, d₃, hfirst, h⟩ := bind_eq_ok.1 h
    obtain ⟨hclaimed, hdst⟩ := claimDriver_spec hd hclaim
    obtain ⟨hnew, htlt⟩ := newGateOutput_spec hclaimed.lawful ht
    obtain ⟨hadded, hinvert⟩ := addNand_spec hnew.lawful htlt hfirst
    obtain ⟨hadded', hback⟩ := addNand_spec hadded.lawful hdst h
    refine ⟨((hclaimed.trans hnew).trans hadded).trans hadded', fun v hv => ?_⟩
    have hv₃ : d₃.netlist.Settled v := fun g hg => hv g (hadded'.netlist.gate g hg)
    rw [hback v hv, hinvert v hv₃]
    simp

/-- Every bit of a wired target copies its source. A missing source is 0. -/
theorem wire_spec (hd : d.Lawful) {src dst : Bits} {u : Unit}
    (h : (wire src dst).run d = .ok (u, d')) :
    d.Adds d' ∧ ∀ v, d'.netlist.Settled v → ∀ k id, dst[k]? = some id →
      v id = v (src.getD k zeroId) := by
  induction dst generalizing d src with
  | nil =>
    cases src <;>
    · obtain ⟨-, rfl⟩ := pure_eq_ok.1 h
      exact ⟨hd.adds_self, by simp⟩
  | cons id rest ih =>
    -- The two ways to go on differ in the source of the first bit only.
    have hstep : ∃ d₁, (wireInto (src.getD 0 zeroId) id).run d = .ok ((), d₁) ∧
        (wire src.tail rest).run d₁ = .ok (u, d') := by
      cases src <;>
      · obtain ⟨_, d₁, hfirst, hrest⟩ := bind_eq_ok.1 h
        exact ⟨d₁, hfirst, hrest⟩
    obtain ⟨d₁, hfirst, hrest⟩ := hstep
    obtain ⟨hadds, hcopy⟩ := wireInto_spec hd hfirst
    obtain ⟨hadds', hcopies⟩ := ih hadds.lawful hrest
    refine ⟨hadds.trans hadds', fun v hv k id' hk => ?_⟩
    cases k with
    | zero =>
      cases hk
      exact hcopy v fun g hg => hv g (hadds'.netlist.gate g hg)
    | succ k =>
      rw [hcopies v hv k id' hk]
      cases src <;> simp

end Elab

theorem length_resize (bits : Bits) (width : Nat) : (resize bits width).length = width := by
  simp [resize]

end NandHdl
