-- SUMMARY: What a step of elaboration leads to: a postcondition for its answer, or a refusal of the program (`Elab.Meets`), with every signal accounted for (`Elab.Safe`).
import NandHdl.Proofs.Elaboration.Drivers

/-!
# Steps of elaboration

A step of elaboration either answers and goes on with a new draft, or it refuses the program. Errors
that would blame the elaborator itself, a defect of the finished netlist or an access past the end
of a table, are no refusals.

There is one rule for each primitive and one for steps in a row. Gates, flip-flops, copies and
declarations are judged once, and what uses them need not look into them.
-/

namespace NandHdl

/-- The error blames the program, not the elaborator. -/
def ElabError.IsRefusal : ElabError → Prop
  | .netlist _ => False
  | .fault _ => False
  | _ => True

namespace Elab

variable {α β : Type} {d : Draft}

/-- From the draft `d` the step leads to an answer and a draft as asked for, or it refuses. -/
def Meets (x : Elab α) (d : Draft) (Q : α → Draft → Prop) : Prop :=
  match x.run d with
  | .ok (a, d') => Q a d'
  | .error e => e.IsRefusal

theorem Meets.mono {x : Elab α} {P Q : α → Draft → Prop} (hx : x.Meets d P)
    (h : ∀ a d', P a d' → Q a d') : x.Meets d Q := by
  unfold Meets at hx ⊢
  split at hx
  · exact h _ _ hx
  · exact hx

/-- If it succeeds, it has led to what was asked for. -/
theorem Meets.of_run {x : Elab α} {Q : α → Draft → Prop} {a : α} {d' : Draft} (hx : x.Meets d Q)
    (h : x.run d = .ok (a, d')) : Q a d' := by
  unfold Meets at hx
  rw [h] at hx
  exact hx

/-- Steps in a row: the second one starts from whatever the first one may lead to. -/
theorem Meets.bind {x : Elab α} {f : α → Elab β} {P : α → Draft → Prop} {Q : β → Draft → Prop}
    (hx : x.Meets d P) (hf : ∀ a d', P a d' → (f a).Meets d' Q) : (x >>= f).Meets d Q := by
  unfold Meets at hx ⊢
  rw [StateT.run_bind]
  split at hx
  · next a d' heq =>
    rw [heq]
    exact hf a d' hx
  · next e heq =>
    rw [heq]
    exact hx

/-! ## Primitives -/

theorem meets_of_run {x : Elab α} {a : α} {d' : Draft} {Q : α → Draft → Prop}
    (h : x.run d = .ok (a, d')) (hQ : Q a d') : x.Meets d Q := by
  unfold Meets
  rw [h]
  exact hQ

theorem meets_pure {a : α} {Q : α → Draft → Prop} (h : Q a d) : (pure a : Elab α).Meets d Q := h

theorem meets_throw {e : ElabError} {Q : α → Draft → Prop} (h : e.IsRefusal) :
    (throw e : Elab α).Meets d Q := h

theorem meets_throw_bind {e : ElabError} {f : α → Elab β} {Q : β → Draft → Prop}
    (h : e.IsRefusal) : (throw e >>= f).Meets d Q := h

theorem meets_get_bind {f : Draft → Elab α} {Q : α → Draft → Prop} (h : (f d).Meets d Q) :
    (get >>= f).Meets d Q := h

theorem meets_scope_bind {f : Scope → Elab α} {Q : α → Draft → Prop} (h : (f d.scope).Meets d Q) :
    (scope >>= f).Meets d Q := h

theorem meets_modifyScope {f : Scope → Scope} {Q : Unit → Draft → Prop}
    (h : Q () { d with scope := f d.scope }) : (modifyScope f).Meets d Q := h

theorem meets_modifyNetlist {f : Netlist → Netlist} {Q : Unit → Draft → Prop}
    (h : Q () { d with netlist := f d.netlist }) : (modifyNetlist f).Meets d Q := h

theorem meets_ofChecked_bind {c : Checked α} {a : α} {f : α → Elab β} {Q : β → Draft → Prop}
    (hc : c = .ok a) (h : (f a).Meets d Q) : (ofChecked c >>= f).Meets d Q := by
  subst hc
  exact h

theorem meets_unknownSignal {name : String} {Q : α → Draft → Prop} :
    (unknownSignal name : Elab α).Meets d Q := trivial

/-! ## Safe steps -/

/-- From the draft `d` the step goes onward to an answer as asked for, or it refuses. -/
def Safe (x : Elab α) (d : Draft) (Q : α → Draft → Prop) : Prop :=
  x.Meets d fun a d' => d.Onward d' ∧ Q a d'

theorem Safe.bind {x : Elab α} {f : α → Elab β} {P : α → Draft → Prop} {Q : β → Draft → Prop}
    (hx : x.Safe d P) (hf : ∀ a d', d.Onward d' → P a d' → (f a).Safe d' Q) :
    (x >>= f).Safe d Q := by
  apply Meets.bind hx
  rintro a d' ⟨h, ha⟩
  apply (hf a d' h ha).mono
  rintro b d'' ⟨h', hb⟩
  exact ⟨h.trans h', hb⟩

/-- As `Safe.bind`, for steps that are judged together. -/
theorem Safe.meets_bind {x : Elab α} {f : α → Elab β} {P : α → Draft → Prop}
    {Q : β → Draft → Prop} (hx : x.Safe d P)
    (hf : ∀ a d', d.Onward d' → P a d' → (f a).Meets d' fun b d'' => d.Onward d'' ∧ Q b d'') :
    (x >>= f).Safe d Q :=
  Meets.bind hx fun a d' ha => hf a d' ha.1 ha.2

theorem Safe.mono {x : Elab α} {P Q : α → Draft → Prop} (hx : x.Safe d P)
    (h : ∀ a d', P a d' → Q a d') : x.Safe d Q :=
  Meets.mono hx fun a d' ha => ⟨ha.1, h a d' ha.2⟩

theorem safe_pure (hd : d.Accounted) {a : α} {Q : α → Draft → Prop} (h : Q a d) :
    (pure a : Elab α).Safe d Q :=
  meets_pure ⟨hd.onward_self, h⟩

theorem modifyNetlist_safe {f : Netlist → Netlist}
    (h : d.Onward { d with netlist := f d.netlist }) : (modifyNetlist f).Safe d fun _ _ => True :=
  meets_modifyNetlist ⟨h, trivial⟩

theorem safe_discard {x : Elab α} {P : α → Draft → Prop} (hx : x.Safe d P) :
    (discard x).Safe d fun _ _ => True := by
  have hbind : discard x = x >>= fun _ => pure .unit := rfl
  rw [hbind]
  apply hx.bind
  intro _ d₁ h₁ _
  exact safe_pure h₁.accounted trivial

/-! ## Signals and gates -/

theorem newSignal_safe (hd : d.Accounted) (name : String) (owner : InstanceId) :
    (newSignal name owner).Safe d fun id d' =>
      d'.Known id ∧ id = d.netlist.signals.size ∧ d' = d.addSignal name owner := by
  obtain ⟨honward, hknown⟩ := hd.onward_addSignal name owner
  exact ⟨honward, hknown, rfl, rfl⟩

theorem newSignals_safe (hd : d.Accounted) (owner : InstanceId) (names : List String) :
    (newSignals owner names).Safe d fun bits d' => ∀ id ∈ bits, d'.Known id := by
  induction names generalizing d with
  | nil => exact safe_pure hd nofun
  | cons name rest ih =>
    apply (newSignal_safe hd name owner).bind
    rintro id d₁ h₁ ⟨hid, -⟩
    apply (ih h₁.accounted).bind
    intro ids d₂ h₂ hids
    exact safe_pure h₂.accounted (List.forall_mem_cons.2 ⟨h₂.known hid, hids⟩)

theorem claimDriver_meets {id : SignalId} (hdriven : id < d.driven.size)
    (hsignal : id < d.netlist.signals.size) :
    (claimDriver id).Meets d fun _ d' => d' = d.claim id ∧ d.driven[id]? = some false := by
  apply meets_get_bind
  apply meets_ofChecked_bind (Checked.get_eq_ok.2 (Array.getElem?_eq_getElem hdriven))
  split
  · apply meets_ofChecked_bind (Checked.get_eq_ok.2 (Array.getElem?_eq_getElem hsignal))
    exact meets_throw_bind trivial
  · next hfree =>
    have hfree' : d.driven[id]? = some false := by simpa [hdriven] using hfree
    exact ⟨rfl, hfree'⟩

/-- A known signal can be claimed only if nothing drives it. -/
theorem claimDriver_safe (hd : d.Accounted) {id : SignalId} (hid : d.Known id) :
    (claimDriver id).Safe d fun _ d' =>
      d' = d.claim id ∧ id ∉ d.netlist.drivers ∧ d'.driven[id]? = some true := by
  obtain ⟨honward, hclaimed⟩ := hd.onward_claim hid.lt
  apply (claimDriver_meets (hd.driven_size ▸ hid.lt) hid.lt).mono
  rintro - d' ⟨rfl, hfree⟩
  exact ⟨honward, rfl, hid.not_mem_drivers hfree, hclaimed⟩

/-- A gate may drive a signal that was claimed and has no driver. -/
theorem addNand_safe (hd : d.Accounted) {in1 in2 out : SignalId} (h1 : d.Known in1)
    (h2 : d.Known in2) (hout : d.Known out) (hfree : out ∉ d.netlist.drivers)
    (hclaimed : d.driven[out]? = some true) :
    (addNand in1 in2 out).Safe d fun _ _ => True := by
  apply modifyNetlist_safe
  exact hd.onward_addNand hd.onward_self rfl h1.lt h2.lt hfree hout.lt (.inl hclaimed)

theorem newGateOutput_safe (hd : d.Accounted) :
    newGateOutput.Safe d fun id d' => d'.Known id ∧ id = d.netlist.signals.size ∧
      ∃ name owner, d' = d.addSignal name owner := by
  apply meets_get_bind
  apply (newSignal_safe hd _ _).mono
  rintro id d' ⟨hid, hsize, hd'⟩
  exact ⟨hid, hsize, _, _, hd'⟩

theorem emitNand_safe (hd : d.Accounted) {a b : SignalId} (ha : d.Known a) (hb : d.Known b) :
    (emitNand a b).Safe d fun out d' => d'.Known out := by
  apply (newGateOutput_safe hd).bind
  rintro out d₁ h₁ ⟨hout, -⟩
  apply (claimDriver_safe h₁.accounted hout).bind
  rintro - d₂ h₂ ⟨rfl, hfree, hclaimed⟩
  apply (addNand_safe h₂.accounted (h₂.known (h₁.known ha)) (h₂.known (h₁.known hb))
    (h₂.known hout) hfree hclaimed).bind
  rintro - d₃ h₃ -
  exact safe_pure h₃.accounted (h₃.known (h₂.known hout))

theorem emitDff_safe (hd : d.Accounted) {a clk : SignalId} (ha : d.Known a) (hclk : d.Known clk) :
    (emitDff a clk).Safe d fun q d' => d'.Known q := by
  apply meets_get_bind
  apply (newSignal_safe hd _ _).bind
  rintro q d₁ h₁ ⟨hq, -⟩
  apply (claimDriver_safe h₁.accounted hq).bind
  rintro - d₂ h₂ ⟨rfl, hfree, hclaimed⟩
  have hd₂ := h₂.accounted
  obtain ⟨n, hn, hsize, hrefers, hdrivers, hmarked⟩ := Netlist.addDff_ok hd₂.refers
    (h₂.known (h₁.known ha)).lt (h₂.known (h₁.known hclk)).lt (h₂.known hq).lt false
  have honward := hd₂.onward_driver hd₂.onward_self rfl hsize hrefers (hmarked hd₂.marked) hdrivers
    hfree (h₂.known hq).lt (.inl hclaimed)
  apply meets_get_bind
  apply meets_ofChecked_bind hn
  exact ⟨honward, honward.known (h₂.known hq)⟩

/-! ## Wiring -/

/-- The signal between the two gates of a copy is new. Nothing known before the copy is driven by
its first gate, and its second gate drives the signal that was claimed. -/
theorem wireInto_safe (hd : d.Accounted) {src dst : SignalId} (hsrc : d.Known src)
    (hdst : d.Known dst) : (wireInto src dst).Safe d fun _ _ => True := by
  unfold wireInto
  split
  · exact safe_pure hd trivial
  · apply (claimDriver_safe hd hdst).bind
    rintro - d₁ h₁ ⟨rfl, hfree, hclaimed⟩
    apply (newGateOutput_safe h₁.accounted).meets_bind
    rintro t d₂ h₂ ⟨ht, rfl, name, owner, rfl⟩
    have hsrc₂ := h₂.known (h₁.known hsrc)
    have hdst₂ := h₂.known (h₁.known hdst)
    -- The table does not learn that the new signal is driven, but nobody else gets to see it.
    have hfresh : d.netlist.signals.size ∉ d.netlist.drivers := fun hmem =>
      Nat.lt_irrefl _ (hd.drivers_lt _ hmem)
    have h₃ := h₁.accounted.onward_addNand h₂ rfl hsrc₂.lt hsrc₂.lt hfresh ht.lt
      (.inr (Nat.le_refl _))
    have hfree' : dst ∉ ((d.netlist.addSignal name owner).addNand src src
        d.netlist.signals.size).drivers := by
      rw [(Netlist.drivers_addNand ..).mem_iff, List.mem_cons, not_or]
      exact ⟨Nat.ne_of_lt hdst.lt, hfree⟩
    have h₄ := h₃.accounted.onward_addNand h₃.accounted.onward_self rfl ht.lt ht.lt hfree' hdst₂.lt
      (.inl (Draft.driven_addSignal name owner hclaimed))
    exact ⟨h₃.trans h₄, trivial⟩

/-- Copying known signals into known signals is safe, however many there are of each. -/
theorem wire_safe (hd : d.Accounted) {src dst : Bits} (hsrc : ∀ id ∈ src, d.Known id)
    (hdst : ∀ id ∈ dst, d.Known id) : (wire src dst).Safe d fun _ _ => True := by
  induction dst generalizing d src with
  | nil =>
    cases src with
    | nil => exact safe_pure hd trivial
    | cons _ _ => exact safe_pure hd trivial
  | cons id rest ih =>
    rw [List.forall_mem_cons] at hdst
    cases src with
    | nil =>
      apply (wireInto_safe hd hd.zero_known hdst.1).bind
      rintro - d₁ h₁ -
      exact ih h₁.accounted nofun (h₁.known_all hdst.2)
    | cons first more =>
      rw [List.forall_mem_cons] at hsrc
      apply (wireInto_safe hd hsrc.1 hdst.1).bind
      rintro - d₁ h₁ -
      exact ih h₁.accounted (h₁.known_all hsrc.2) (h₁.known_all hdst.2)

/-! ## Names -/

theorem bitsOf_safe (hd : d.Accounted) (name : String) :
    (bitsOf name).Safe d fun bits d' => ∀ id ∈ bits, d'.Known id := by
  apply meets_scope_bind
  split
  · next bits hbits => exact safe_pure hd (hd.scope_known.bits? hbits)
  · exact meets_unknownSignal

theorem modifyScope_safe (hd : d.Accounted) {f : Scope → Scope} (hf : (f d.scope).All d.Known) :
    (modifyScope f).Safe d fun _ _ => True :=
  meets_modifyScope ⟨hd.onward_scope hf, trivial⟩

theorem declare_safe (hd : d.Accounted) (name : String) (width : Nat) :
    (declare name width).Safe d fun bits d' => ∀ id ∈ bits, d'.Known id := by
  apply meets_scope_bind
  apply (newSignals_safe hd _ _).bind
  intro bits d₁ h₁ hbits
  apply (modifyScope_safe h₁.accounted (h₁.accounted.scope_known.bind name hbits)).bind
  rintro - d₂ h₂ -
  exact safe_pure h₂.accounted (h₂.known_all hbits)

theorem addAlias_safe (hd : d.Accounted) (name : String) {id : SignalId} (hid : d.Known id) :
    (modifyNetlist (·.addAlias name id)).Safe d fun _ _ => True :=
  modifyNetlist_safe <|
    hd.onward_netlist rfl rfl rfl (hd.refers.addAlias name hid.lt) fun _ hi => hi

theorem addInstance_safe (hd : d.Accounted) (moduleName : String) (parent : InstanceId)
    (namePrefix : String) :
    (modifyNetlist (·.addInstance moduleName parent namePrefix)).Safe d fun _ _ => True :=
  modifyNetlist_safe <| hd.onward_netlist rfl rfl rfl (hd.refers.addInstance ..) fun _ hi => hi

end Elab

end NandHdl
