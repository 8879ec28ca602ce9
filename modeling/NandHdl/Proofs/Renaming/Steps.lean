-- SUMMARY: Steps of elaboration that are taken together from two drafts (`Elab.Together`): they answer the same and make the same signals and gates, under whatever names, or both fail.
import NandHdl.Proofs.Renaming.Scopes
import NandHdl.Proofs.Elaboration.Steps

/-!
# Steps taken together

A program and its renamed version are elaborated side by side. The two netlists are the same but
for the names of their signals, the same signals are driven, and the scopes answer alike up to the
renaming. A judgement on a pair of steps says that both lead on to such drafts, or that both fail;
the errors may differ, since they may mention names.
-/

namespace NandHdl

/-! ## Netlists without names -/

namespace Netlist

/-- The netlist without the names of its signals. -/
def unnamed (n : Netlist) : Netlist :=
  { n with signals := n.signals.map fun s => { s with name := "" }, names := {} }

variable {n n' : Netlist}

theorem unnamed_addSignal (n : Netlist) (name : String) (owner : InstanceId) :
    (n.addSignal name owner).unnamed = (n.unnamed.addSignal "" owner).unnamed := by
  simp [unnamed, addSignal, Function.comp_def]

theorem size_unnamed (n : Netlist) : n.unnamed.signals.size = n.signals.size := Array.size_map

/-- Marking a signal has nothing to do with its name. -/
theorem modify_unnamed (n : Netlist) (id : SignalId) {f : Signal → Signal}
    (hf : ∀ s : Signal, { f s with name := "" } = f { s with name := "" }) :
    (Checked.modify n.signals id f).map (·.map fun s => { s with name := "" }) =
      Checked.modify n.unnamed.signals id f := by
  unfold Checked.modify
  rw [size_unnamed]
  split
  · refine congrArg Except.ok (Array.ext (by simp [unnamed]) fun i _ _ => ?_)
    simp only [unnamed, Array.getElem_map, Array.getElem_modify]
    split
    · exact hf _
    · rfl
  · rfl

/-- An operation that pays no attention to names. -/
def Nameless (op : Netlist → Checked Netlist) : Prop :=
  ∀ n, (op n).map unnamed = op n.unnamed

/-- Marking a signal and noting it pays no attention to names. -/
theorem nameless_of_modify {op : Netlist → Checked Netlist} {id : SignalId} {f : Signal → Signal}
    (note : Netlist → Array Signal → Netlist)
    (hop : ∀ n, op n = (Checked.modify n.signals id f).bind fun signals => .ok (note n signals))
    (hf : ∀ s : Signal, { f s with name := "" } = f { s with name := "" })
    (hnote : ∀ n signals, (note n signals).unnamed =
      note n.unnamed (signals.map fun s => { s with name := "" })) : Nameless op := by
  intro n
  rw [hop, hop, ← modify_unnamed n id hf]
  cases Checked.modify n.signals id f with
  | error _ => rfl
  | ok signals => exact congrArg Except.ok (hnote n signals)

theorem nameless_addDff (d clk q : SignalId) (initialValue : Bool) :
    Nameless (·.addDff d clk q initialValue) :=
  nameless_of_modify
    (fun n signals => { n with
      signals, dffs := n.dffs.push { id := n.dffs.size, d, clk, q, initialValue } })
    (fun _ => rfl) (fun _ => rfl) fun _ _ => rfl

theorem nameless_addPrimaryInput (id : SignalId) : Nameless (·.addPrimaryInput id) :=
  nameless_of_modify
    (fun n signals => { n with signals, primaryInputs := n.primaryInputs.push id })
    (fun _ => rfl) (fun _ => rfl) fun _ _ => rfl

theorem nameless_addPrimaryOutput (id : SignalId) : Nameless (·.addPrimaryOutput id) :=
  nameless_of_modify
    (fun n signals => { n with signals, primaryOutputs := n.primaryOutputs.push id })
    (fun _ => rfl) (fun _ => rfl) fun _ _ => rfl

end Netlist

/-! ## Drafts -/

namespace Draft

/-- The drafts are the same but for names. -/
structure Alike (d d' : Draft) : Prop where
  netlist : d.netlist.unnamed = d'.netlist.unnamed
  driven : d.driven = d'.driven

/-- The drafts are the same but for names, and their scopes answer alike up to the renaming. -/
structure Renamed (ρ : Renaming) (v : View) (seen : Ref → Prop) (d d' : Draft) : Prop
    extends d.Alike d' where
  scope : d.scope.Renamed ρ v seen d'.scope

/-- The answers are the same, and the drafts are the same but for names. -/
def Agree {α : Type} (ρ : Renaming) (v : View) (seen : Ref → Prop) (a a' : α)
    (d d' : Draft) : Prop :=
  a = a' ∧ d.Renamed ρ v seen d'

variable {ρ : Renaming} {v : View} {seen : Ref → Prop} {d d' : Draft}

theorem Alike.size_signals (h : d.Alike d') : d.netlist.signals.size = d'.netlist.signals.size := by
  rw [← d.netlist.size_unnamed, h.netlist, d'.netlist.size_unnamed]

theorem Alike.instances_eq (h : d.Alike d') : d.netlist.instances = d'.netlist.instances :=
  congrArg (·.instances) h.netlist

theorem Renamed.congr (h : d.Renamed ρ v seen d') {seen' : Ref → Prop}
    (hseen : ∀ r : Ref, r.name = ρ.old → (seen r ↔ seen' r)) : d.Renamed ρ v seen' d' :=
  ⟨h.toAlike, h.scope.congr hseen⟩

end Draft

/-! ## Judgements -/

namespace Elab

/-- From drafts as `P` asks both steps answer and lead to drafts as `Q` asks, or both fail. -/
def Together {α β : Type} (P : Draft → Draft → Prop) (x : Elab α) (y : Elab β)
    (Q : α → β → Draft → Draft → Prop) : Prop :=
  ∀ d d', P d d' →
    (∃ a b e e', x.run d = .ok (a, e) ∧ y.run d' = .ok (b, e') ∧ Q a b e e') ∨
      ∃ err err', x.run d = .error err ∧ y.run d' = .error err'

/-- The steps give the same answer to drafts that are the same but for names, and keep them so. -/
abbrev Lockstep {α : Type} (ρ : Renaming) (v : View) (seen seen' : Ref → Prop)
    (x y : Elab α) : Prop :=
  Together (Draft.Renamed ρ v seen) x y (Draft.Agree ρ v seen')

/-- Steps in lockstep that moreover answer as `A` asks. -/
abbrev LockstepTo {α : Type} (ρ : Renaming) (v : View) (seen seen' : Ref → Prop)
    (A : α → Prop) (x y : Elab α) : Prop :=
  Together (Draft.Renamed ρ v seen) x y fun a a' d d' => A a ∧ d.Agree ρ v seen' a a' d'

section

variable {α β γ δ : Type} {P P' : Draft → Draft → Prop} {ρ : Renaming} {v : View}
  {seen seen' : Ref → Prop}

theorem Together.mono {x : Elab α} {y : Elab β} {Q Q' : α → β → Draft → Draft → Prop}
    (h : Together P x y Q) (hpre : ∀ d d', P' d d' → P d d')
    (hpost : ∀ a b d d', Q a b d d' → Q' a b d d') : Together P' x y Q' := by
  intro d d' hd
  rcases h d d' (hpre d d' hd) with ⟨a, b, e, e', hx, hy, hQ⟩ | hfail
  · exact .inl ⟨a, b, e, e', hx, hy, hpost a b e e' hQ⟩
  · exact .inr hfail

/-- What is known without the drafts may be used for the steps. -/
theorem together_of_and {A : Prop} {x : Elab α} {y : Elab β} {Q : α → β → Draft → Draft → Prop}
    (h : A → Together P x y Q) : Together (fun d d' => A ∧ P d d') x y Q :=
  fun d d' hd => h hd.1 d d' hd.2

theorem Together.bind {x : Elab α} {y : Elab β} {f : α → Elab γ} {g : β → Elab δ}
    {Q : α → β → Draft → Draft → Prop} {R : γ → δ → Draft → Draft → Prop}
    (hx : Together P x y Q) (hf : ∀ a b, Together (Q a b) (f a) (g b) R) :
    Together P (x >>= f) (y >>= g) R := by
  intro d d' hd
  rw [StateT.run_bind, StateT.run_bind]
  rcases hx d d' hd with ⟨a, b, e, e', hx, hy, hQ⟩ | ⟨err, err', hx, hy⟩
  · rw [hx, hy]
    exact hf a b e e' hQ
  · rw [hx, hy]
    exact .inr ⟨err, err', rfl, rfl⟩

theorem together_pure {a : α} {b : β} {Q : α → β → Draft → Draft → Prop}
    (h : ∀ d d', P d d' → Q a b d d') : Together P (pure a : Elab α) (pure b : Elab β) Q :=
  fun d d' hd => .inl ⟨a, b, d, d', rfl, rfl, h d d' hd⟩

theorem together_throw {e e' : ElabError} {Q : α → β → Draft → Draft → Prop} :
    Together P (throw e : Elab α) (throw e' : Elab β) Q :=
  fun _ _ _ => .inr ⟨e, e', rfl, rfl⟩

theorem together_throw_bind {e e' : ElabError} {f : α → Elab γ} {g : β → Elab δ}
    {Q : γ → δ → Draft → Draft → Prop} :
    Together P ((throw e : Elab α) >>= f) ((throw e' : Elab β) >>= g) Q :=
  fun _ _ _ => .inr ⟨e, e', rfl, rfl⟩

theorem together_unknownSignal {name name' : String} {Q : α → β → Draft → Draft → Prop} :
    Together P (unknownSignal name : Elab α) (unknownSignal name' : Elab β) Q :=
  fun _ _ _ => .inr ⟨_, _, rfl, rfl⟩

/-- The same answer goes on to both sides. -/
theorem Lockstep.bind {x y : Elab α} {f g : α → Elab β} {Q : β → β → Draft → Draft → Prop}
    (hx : Lockstep ρ v seen seen' x y)
    (hf : ∀ a, Together (Draft.Renamed ρ v seen') (f a) (g a) Q) :
    Together (Draft.Renamed ρ v seen) (x >>= f) (y >>= g) Q := by
  refine Together.bind hx fun a b => together_of_and ?_
  rintro rfl
  exact hf a

/-- It only matters what is seen of the old name. -/
theorem Lockstep.congr {x y : Elab α} (h : Lockstep ρ v seen seen' x y)
    {seen'' : Ref → Prop} (hseen : ∀ r : Ref, r.name = ρ.old → (seen' r ↔ seen'' r)) :
    Lockstep ρ v seen seen'' x y :=
  h.mono (fun _ _ hd => hd) fun _ _ _ _ hagree => ⟨hagree.1, hagree.2.congr hseen⟩

/-- As `Lockstep.bind`, with what is known of the answer. -/
theorem LockstepTo.bind {A : α → Prop} {x y : Elab α} {f g : α → Elab β}
    {Q : β → β → Draft → Draft → Prop} (hx : LockstepTo ρ v seen seen' A x y)
    (hf : ∀ a, A a → Together (Draft.Renamed ρ v seen') (f a) (g a) Q) :
    Together (Draft.Renamed ρ v seen) (x >>= f) (y >>= g) Q := by
  refine Together.bind hx fun a b => together_of_and fun ha => together_of_and ?_
  rintro rfl
  exact hf a ha

theorem lockstepTo_pure {A : α → Prop} {a : α} (ha : A a) :
    LockstepTo ρ v seen seen A (pure a : Elab α) (pure a) :=
  together_pure fun _ _ hd => ⟨ha, rfl, hd⟩

theorem lockstep_pure (a : α) : Lockstep ρ v seen seen (pure a : Elab α) (pure a) :=
  together_pure fun _ _ hd => ⟨rfl, hd⟩

/-- The steps may depend on drafts that are the same but for names. -/
theorem together_get_bind {f g : Draft → Elab α} {Q : α → α → Draft → Draft → Prop}
    (h : ∀ e e', e.Renamed ρ v seen e' → Together (Draft.Renamed ρ v seen) (f e) (g e') Q) :
    Together (Draft.Renamed ρ v seen) (get >>= f) (get >>= g) Q :=
  fun d d' hd => h d d' hd d d' hd

/-- The steps may depend on scopes that answer alike. -/
theorem together_scope_bind {f g : Scope → Elab α} {Q : α → α → Draft → Draft → Prop}
    (h : ∀ s s', s.Renamed ρ v seen s' → Together (Draft.Renamed ρ v seen) (f s) (g s') Q) :
    Together (Draft.Renamed ρ v seen) (scope >>= f) (scope >>= g) Q :=
  fun d d' hd => h d.scope d'.scope hd.scope d d' hd

theorem lockstep_modifyScope {f g : Scope → Scope}
    (h : ∀ s s', s.Renamed ρ v seen s' → (f s).Renamed ρ v seen' (g s')) :
    Lockstep ρ v seen seen' (modifyScope f) (modifyScope g) :=
  fun _ _ hd => .inl ⟨_, _, _, _, rfl, rfl, rfl, ⟨hd.netlist, hd.driven⟩, h _ _ hd.scope⟩

/-- The steps go on in other scopes that answer alike. -/
theorem together_enter {s s' : Scope} {w : View} (h : s.Renamed ρ w seen' s') :
    Together (Draft.Renamed ρ v seen) (modifyScope fun _ => s) (modifyScope fun _ => s')
      fun _ _ => Draft.Renamed ρ w seen' :=
  fun _ _ hd => .inl ⟨_, _, _, _, rfl, rfl, ⟨hd.netlist, hd.driven⟩, h⟩

theorem lockstep_modifyNetlist {f g : Netlist → Netlist}
    (h : ∀ n n', n.unnamed = n'.unnamed → (f n).unnamed = (g n').unnamed) :
    Lockstep ρ v seen seen (modifyNetlist f) (modifyNetlist g) :=
  fun _ _ hd => .inl ⟨_, _, _, _, rfl, rfl, rfl, ⟨h _ _ hd.netlist, hd.driven⟩, hd.scope⟩

/-- A table that is the same for both is asked. -/
theorem together_ofChecked_bind {c : Checked α} {f g : α → Elab β}
    {Q : β → β → Draft → Draft → Prop} (h : ∀ a, Together P (f a) (g a) Q) :
    Together P (ofChecked c >>= f) (ofChecked c >>= g) Q := by
  cases c with
  | ok a => exact h a
  | error e => exact together_throw_bind

/-- An operation that pays no attention to names is tried on both netlists. -/
theorem together_operation {op : Netlist → Checked Netlist} (hop : Netlist.Nameless op)
    {x y : Elab α} {Q : α → α → Draft → Draft → Prop}
    (hrest : Together (Draft.Renamed ρ v seen) x y Q) :
    Together (Draft.Renamed ρ v seen)
      (do
        let netlist ← ofChecked (op (← get).netlist)
        modifyNetlist fun _ => netlist
        x)
      (do
        let netlist ← ofChecked (op (← get).netlist)
        modifyNetlist fun _ => netlist
        y) Q := by
  refine together_get_bind fun e e' he => ?_
  have htried : (op e.netlist).map Netlist.unnamed = (op e'.netlist).map Netlist.unnamed := by
    rw [hop, hop, he.netlist]
  cases hn : op e.netlist with
  | error _ =>
    cases hn' : op e'.netlist with
    | error _ => exact together_throw_bind
    | ok n' =>
      rw [hn, hn'] at htried
      exact nomatch htried
  | ok n =>
    cases hn' : op e'.netlist with
    | error _ =>
      rw [hn, hn'] at htried
      exact nomatch htried
    | ok n' =>
      rw [hn, hn'] at htried
      have htaken : Lockstep ρ v seen seen (modifyNetlist fun _ => n)
          (modifyNetlist fun _ => n') :=
        lockstep_modifyNetlist fun _ _ _ => Except.ok.inj htried
      exact htaken.bind fun _ => hrest

theorem Lockstep.discard {x y : Elab α} (h : Lockstep ρ v seen seen' x y) :
    Lockstep ρ v seen seen' (discard x) (discard y) := by
  have hbind : ∀ z : Elab α, Functor.discard z = z >>= fun _ => pure .unit := fun _ => rfl
  rw [hbind, hbind]
  exact h.bind fun _ => lockstep_pure _

end

/-! ## Signals and gates -/

variable {ρ : Renaming} {v : View} {seen : Ref → Prop}

/-- A new signal has the same number under any name. -/
theorem newSignal_lockstep (name name' : String) (owner : InstanceId) :
    Lockstep ρ v seen seen (newSignal name owner) (newSignal name' owner) := by
  intro d d' hd
  refine .inl ⟨_, _, _, _, rfl, rfl, hd.size_signals, ⟨?_, ?_⟩, hd.scope⟩
  · exact (Netlist.unnamed_addSignal ..).trans
      (hd.netlist ▸ (Netlist.unnamed_addSignal ..).symm)
  · exact congrArg (·.push false) hd.driven

/-- As many new signals are made as there are names. -/
theorem newSignals_lockstep (owner : InstanceId) {names names' : List String}
    (hlength : names.length = names'.length) :
    LockstepTo ρ v seen seen (·.length = names.length) (newSignals owner names)
      (newSignals owner names') := by
  induction names generalizing names' with
  | nil =>
    obtain rfl := List.length_eq_zero_iff.1 hlength.symm
    exact lockstepTo_pure rfl
  | cons name names ih =>
    obtain ⟨name', names', rfl⟩ := List.exists_cons_of_length_eq_add_one hlength.symm
    refine (newSignal_lockstep name name' owner).bind fun id => ?_
    exact (ih (Nat.succ.inj hlength)).bind fun bits hbits =>
      lockstepTo_pure (congrArg (· + 1) hbits)

theorem newGateOutput_lockstep : Lockstep ρ v seen seen newGateOutput newGateOutput :=
  together_get_bind fun _ _ he => he.scope.owner ▸ newSignal_lockstep _ _ _

theorem claimDriver_lockstep (id : SignalId) :
    Lockstep ρ v seen seen (claimDriver id) (claimDriver id) := by
  refine together_get_bind fun e e' he => ?_
  dsimp only
  rw [he.driven]
  refine together_ofChecked_bind fun driven => ?_
  cases driven with
  | true =>
    intro d d' _
    refine .inr ?_
    cases Checked.get e.netlist.signals id <;> cases Checked.get e'.netlist.signals id <;>
      exact ⟨_, _, rfl, rfl⟩
  | false =>
    intro d d' hd
    refine .inl ⟨_, _, _, _, rfl, rfl, rfl, ⟨hd.netlist, ?_⟩, hd.scope⟩
    exact congrArg (·.modify id fun _ => true) hd.driven

theorem addNand_lockstep (in1 in2 out : SignalId) :
    Lockstep ρ v seen seen (addNand in1 in2 out) (addNand in1 in2 out) :=
  lockstep_modifyNetlist fun _ _ h => congrArg (·.addNand in1 in2 out) h

theorem emitNand_lockstep (a b : SignalId) :
    Lockstep ρ v seen seen (emitNand a b) (emitNand a b) :=
  newGateOutput_lockstep.bind fun out => (claimDriver_lockstep out).bind fun _ =>
    (addNand_lockstep a b out).bind fun _ => lockstep_pure out

theorem emitDff_lockstep (a clk : SignalId) :
    Lockstep ρ v seen seen (emitDff a clk) (emitDff a clk) := by
  refine together_get_bind fun e e' he => ?_
  rw [he.scope.owner]
  refine (newSignal_lockstep _ _ _).bind fun q => (claimDriver_lockstep q).bind fun _ => ?_
  exact together_operation (Netlist.nameless_addDff a clk q false) (lockstep_pure q)

/-! ## Wiring -/

theorem wireInto_lockstep (src dst : SignalId) :
    Lockstep ρ v seen seen (wireInto src dst) (wireInto src dst) := by
  unfold wireInto
  split
  · exact lockstep_pure ()
  · exact (claimDriver_lockstep dst).bind fun _ => newGateOutput_lockstep.bind fun t =>
      (addNand_lockstep src src t).bind fun _ => addNand_lockstep t t dst

theorem wire_lockstep (src dst : Bits) :
    Lockstep ρ v seen seen (wire src dst) (wire src dst) := by
  induction dst generalizing src with
  | nil => cases src <;> exact lockstep_pure ()
  | cons id rest ih =>
    cases src with
    | nil => exact (wireInto_lockstep zeroId id).bind fun _ => ih []
    | cons first more => exact (wireInto_lockstep first id).bind fun _ => ih more

/-! ## Names -/

theorem bitsOf_lockstep {r : Ref} (hr : r.Readable ρ seen) :
    Lockstep ρ v seen seen (bitsOf r.text) (bitsOf (ρ.ref v.active r).text) := by
  refine together_scope_bind fun s s' hs => ?_
  rw [(hs.same r hr).bits?_eq]
  split
  · exact lockstep_pure _
  · exact together_unknownSignal

theorem namedBit_lockstep {r : Ref} (hr : r.Readable ρ seen) (k : Nat) :
    Lockstep ρ v seen seen (namedBit r.text k) (namedBit (ρ.ref v.active r).text k) := by
  refine together_scope_bind fun s s' hs => ?_
  have hsame := hs.same r hr
  rw [← hsame.isBus_eq, ← hsame.widthOf_eq]
  cases hbus : s.buses[r.text]? with
  | none =>
    have hscalar : ¬s.isBus r.text = true := by
      rw [Scope.isBus, Std.TreeMap.contains_eq_isSome_getElem?, hbus]
      exact Bool.false_ne_true
    rw [if_neg hscalar, if_neg hscalar, ← hsame.scalar hbus]
    split
    · split <;> exact lockstep_pure _
    · exact together_unknownSignal
  | some w =>
    have hwidth : s.widthOf r.text = w := by
      rw [Scope.widthOf, Std.TreeMap.getD_eq_getD_getElem?, hbus, Option.getD_some]
    have hisBus : s.isBus r.text = true := by
      rw [Scope.isBus, Std.TreeMap.contains_eq_isSome_getElem?, hbus, Option.isSome_some]
    rw [if_pos hisBus, if_pos hisBus, hwidth]
    split
    · exact lockstep_pure _
    · next hlt =>
      rw [← hsame.bit hbus k (Nat.not_le.1 hlt)]
      split
      · exact lockstep_pure _
      · exact together_unknownSignal

/-- A name is declared on both sides with the same width. -/
theorem declare_lockstep {x : String} (hx : Ref.Bindable ρ v { name := x }) (width : Nat) :
    Lockstep ρ v seen (fun r => seen r ∨ r = { name := x }) (declare x width)
      (declare (ρ.name v.active x) width) := by
  have hbind : ∀ {bits : Bits}, bits ≠ [] →
      Lockstep ρ v seen (fun r => seen r ∨ r = { name := x })
        (do modifyScope (·.bind x bits); return bits)
        (do modifyScope (·.bind (ρ.name v.active x) bits); return bits) := by
    intro bits hne
    exact (lockstep_modifyScope fun s s' hs => hs.bind hx hne).bind fun _ => lockstep_pure bits
  refine together_scope_bind fun s s' hs => ?_
  rw [← hs.owner]
  have hlength : ∀ (f : String → String) (y : String),
      ((bitNames y (max 1 width)).map f).length = max 1 width := by
    intro f y
    rw [List.length_map, length_bitNames]
  refine (newSignals_lockstep s.owner ((hlength _ _).trans (hlength _ _).symm)).bind ?_
  intro bits hbits
  rw [hlength] at hbits
  exact hbind (ne_nil_of_length hbits)

/-- A name other than the old one is the same on both sides. -/
theorem declare_kept_lockstep {x : String} (hx : PlainName x) (hnew : x ≠ ρ.new) (hold : x ≠ ρ.old)
    (width : Nat) : Lockstep ρ v seen seen (declare x width) (declare x width) := by
  have h : Lockstep ρ v seen (fun r => seen r ∨ r = { name := x }) (declare x width)
      (declare (ρ.name v.active x) width) :=
    declare_lockstep ⟨⟨hx, nofun⟩, hnew, fun _ => hold⟩ width
  rw [Renaming.name_of_ne hold] at h
  refine h.congr fun r hr => or_iff_left ?_
  rintro rfl
  exact hold hr

end Elab

end NandHdl
