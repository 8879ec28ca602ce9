-- SUMMARY: Elaboration builds netlists by the operations on netlists alone (`elaborate_grows`), so signals and gates are numbered by position and names are never taken away.
import NandHdl.Proofs.Elaboration.Relations
import NandHdl.Proofs.Elaboration.Runs
import Mathlib.Logic.Relation

/-!
# Growing netlists

Whatever elaboration does to its netlist, it does by adding signals, gates, flip-flops, names,
instances and ports, and by noting the clock. What each of these operations keeps is therefore kept
by all of elaboration, whatever the program looks like.
-/

namespace NandHdl

namespace Netlist

/-- One operation leads from a netlist to another. -/
inductive Step : Netlist → Netlist → Prop
  | named (n : Netlist) (name : String) (id : SignalId) : Step n (n.addAlias name id)
  | signal (n : Netlist) (name : String) (owner : InstanceId) : Step n (n.addSignal name owner)
  | gate (n : Netlist) (in1 in2 out : SignalId) : Step n (n.addNand in1 in2 out)
  | flop {n n' : Netlist} {d clk q : SignalId} {b : Bool} (h : n.addDff d clk q b = .ok n') :
      Step n n'
  | inst (n : Netlist) (moduleName : String) (parent : InstanceId) (namePrefix : String) :
      Step n (n.addInstance moduleName parent namePrefix)
  | input {n n' : Netlist} {id : SignalId} (h : n.addPrimaryInput id = .ok n') : Step n n'
  | output {n n' : Netlist} {id : SignalId} (h : n.addPrimaryOutput id = .ok n') : Step n n'
  | clock (n : Netlist) (id : Option SignalId) : Step n { n with clock := id }

/-- Operations lead from a netlist to another. -/
abbrev Grows : Netlist → Netlist → Prop := Relation.ReflTransGen Step

variable {n n' : Netlist}

theorem Step.numbered (h : Step n n') (hn : n.Numbered) : n'.Numbered := by
  cases h with
  | named name id => exact hn.addAlias name id
  | signal name owner => exact hn.addSignal name owner
  | gate in1 in2 out => exact hn.addNand in1 in2 out
  | flop h => exact hn.addDff h
  | inst moduleName parent namePrefix => exact hn.addInstance moduleName parent namePrefix
  | input h => exact hn.addPrimaryInput h
  | output h => exact hn.addPrimaryOutput h
  | clock id => exact ⟨hn.signal, hn.gate⟩

/-- A name keeps its signal. -/
theorem Step.signalId? (h : Step n n') {name : String} {id : SignalId}
    (hid : n.signalId? name = some id) : n'.signalId? name = some id := by
  cases h with
  | named name' id' => rw [signalId?_addAlias, hid, Option.some_or]
  | signal name' owner => rw [signalId?_addSignal, hid, Option.some_or]
  | flop h | input h | output h =>
    obtain ⟨signals, -, hn'⟩ := Except.bind_eq_ok.1 h
    cases hn'
    exact hid
  | gate | inst | clock => exact hid

/-- No instance is taken away. -/
theorem Step.instances_le (h : Step n n') : n.instances.size ≤ n'.instances.size := by
  cases h with
  | inst moduleName parent namePrefix =>
    rw [addInstance, Array.size_push]
    exact Nat.le_succ _
  | flop h | input h | output h =>
    obtain ⟨signals, -, hn'⟩ := Except.bind_eq_ok.1 h
    cases hn'
    exact Nat.le_refl _
  | named | signal | gate | clock => exact Nat.le_refl _

/-- An instance stays as it is. -/
theorem Step.inst_kept (h : Step n n') {i : InstanceId} {inst : Instance}
    (hi : n.instances[i]? = some inst) : n'.instances[i]? = some inst := by
  cases h with
  | inst moduleName parent namePrefix =>
    have hlt := (Array.getElem?_eq_some_iff.1 hi).1
    rw [addInstance, Array.getElem?_push_lt hlt, ← hi, Array.getElem?_eq_getElem hlt]
  | flop h | input h | output h =>
    obtain ⟨signals, -, hn'⟩ := Except.bind_eq_ok.1 h
    cases hn'
    exact hi
  | named | signal | gate | clock => exact hi

theorem Grows.numbered (h : n.Grows n') (hn : n.Numbered) : n'.Numbered := by
  induction h with
  | refl => exact hn
  | tail _ hstep ih => exact hstep.numbered ih

theorem Grows.instances_le (h : n.Grows n') : n.instances.size ≤ n'.instances.size := by
  induction h with
  | refl => exact Nat.le_refl _
  | tail _ hstep ih => exact Nat.le_trans ih hstep.instances_le

theorem Grows.inst_kept (h : n.Grows n') {i : InstanceId} {inst : Instance}
    (hi : n.instances[i]? = some inst) : n'.instances[i]? = some inst := by
  induction h with
  | refl => exact hi
  | tail _ hstep ih => exact hstep.inst_kept ih

theorem Grows.signalId? (h : n.Grows n') {name : String} {id : SignalId}
    (hid : n.signalId? name = some id) : n'.signalId? name = some id := by
  induction h with
  | refl => exact hid
  | tail _ hstep ih => exact hstep.signalId? ih

end Netlist

/-! ## Steps of elaboration -/

/-- The netlist of one draft grows to that of the other. -/
def Draft.Grows (d d' : Draft) : Prop := d.netlist.Grows d'.netlist

instance : IsPreorder Draft Draft.Grows where
  refl _ := .refl
  trans _ _ _ h h' := Relation.ReflTransGen.trans h h'

namespace Elab

/-- If the step succeeds, it changes the netlist by operations. -/
def Grows {α : Type} (x : Elab α) : Prop :=
  ∀ (d d' : Draft) (a : α), x.run d = .ok (a, d') → d.netlist.Grows d'.netlist

variable {α β : Type}

theorem Grows.bind {x : Elab α} {f : α → Elab β} (hx : x.Grows) (hf : ∀ a, (f a).Grows) :
    (x >>= f).Grows :=
  Respects.bind (R := Draft.Grows) hx hf

theorem grows_pure (a : α) : (pure a : Elab α).Grows := respects_pure (R := Draft.Grows) a

theorem grows_get : (get : Elab Draft).Grows := respects_get (R := Draft.Grows)

theorem grows_modifyScope (f : Scope → Scope) : (modifyScope f).Grows :=
  respects_modifyScope (R := Draft.Grows) fun _ => .refl

theorem grows_modifyNetlist {f : Netlist → Netlist} (hf : ∀ n, Netlist.Step n (f n)) :
    (modifyNetlist f).Grows :=
  respects_modifyNetlist (R := Draft.Grows) fun _ => .single (hf _)

/-- An operation that may fail is tried on the netlist at hand, and its result is taken over. -/
theorem grows_operation {op : Netlist → Checked Netlist}
    (hop : ∀ {n n' : Netlist}, op n = .ok n' → Netlist.Step n n') {rest : Elab α}
    (hrest : rest.Grows) :
    Elab.Grows (do
      let netlist ← ofChecked (op (← get).netlist)
      modifyNetlist fun _ => netlist
      rest) := by
  intro d d' b h
  obtain ⟨_, _, ⟨⟩, hrun⟩ := bind_eq_ok.1 h
  obtain ⟨n, d₁, htry, hafter⟩ := bind_eq_ok.1 hrun
  obtain ⟨hn, rfl⟩ := ofChecked_eq_ok.1 htry
  obtain ⟨_, d₂, hmodify, hlast⟩ := bind_eq_ok.1 hafter
  cases modifyNetlist_eq_ok.1 hmodify
  exact .head (hop hn) (hrest _ _ _ hlast)

/-! ## Signals and gates -/

theorem newSignal_grows (name : String) (owner : InstanceId) : (newSignal name owner).Grows := by
  rintro d d' id ⟨⟩
  exact .single (.signal _ name owner)

theorem claimDriver_grows (id : SignalId) : (claimDriver id).Grows := by
  intro d d' u h
  obtain ⟨-, rfl⟩ := claimDriver_eq_ok h
  exact .refl

theorem addNand_grows (in1 in2 out : SignalId) : (addNand in1 in2 out).Grows :=
  grows_modifyNetlist fun n => .gate n in1 in2 out

theorem respectsParts_grows : RespectsParts Draft.Grows where
  signal := newSignal_grows
  driver := claimDriver_grows
  gate := addNand_grows
  named name id := grows_modifyNetlist fun n => .named n name id

theorem emitDff_grows (d clk : SignalId) : (emitDff d clk).Grows := by
  refine grows_get.bind fun draft => (newSignal_grows _ _).bind fun q =>
    (claimDriver_grows q).bind fun _ => ?_
  exact grows_operation (fun h => .flop h) (grows_pure q)

/-- Nothing that a body does changes the netlist in another way. -/
theorem respectsAll_grows : RespectsAll Draft.Grows where
  toRespectsParts := respectsParts_grows
  dff := emitDff_grows
  scope := grows_modifyScope
  inst moduleName parent namePrefix :=
    grows_modifyNetlist fun n => .inst n moduleName parent namePrefix

end Elab

open Elab

/-! ## Instances -/

/-- The two drafts have the same instances. -/
def Draft.SameInstances (d d' : Draft) : Prop := d'.netlist.instances = d.netlist.instances

instance : IsPreorder Draft Draft.SameInstances where
  refl _ := rfl
  trans _ _ _ h h' := Eq.trans h' h

theorem respectsSteps_sameInstances : RespectsSteps Draft.SameInstances where
  signal _ _ := by
    rintro d d' id ⟨⟩
    rfl
  driver id := by
    intro d d' u h
    obtain ⟨-, rfl⟩ := claimDriver_eq_ok h
    rfl
  gate _ _ _ := respects_modifyNetlist fun _ => rfl
  named _ _ := respects_modifyNetlist fun _ => rfl
  dff a clk := by
    intro d d' q h
    obtain ⟨name, d₁, d₂, n, hq, hclaim, hn, rfl⟩ := emitDff_eq_ok h
    cases hq
    obtain ⟨-, rfl⟩ := claimDriver_eq_ok hclaim
    exact (addDff_spec hn).2.2.2.1
  scope _ := respects_modifyScope fun _ => rfl

/-- The instance is noted with its module and its caller. It is the only one that is made. -/
theorem openInstance_instances {d d' : Draft} {m : ModuleDecl} {args : List Bits}
    {target : Option String} {first : Bits} {child : Scope}
    (h : (openInstance m args target).run d = .ok ((first, child), d')) :
    d'.netlist.instances = d.netlist.instances.push (d.nextInstance m) := by
  obtain ⟨_, d₁, d₂, d₃, d₄, _, _, htarget, hfirst, hparams, hout, houts⟩ := openInstance_steps h
  have h₁ := respectsSteps_sameInstances.instanceTarget _ _ _ _ _ _ _ htarget
  have h₂ := respectsSteps_sameInstances.firstOutput _ _ _ _ _ _ hfirst
  have h₃ := respectsSteps_sameInstances.bindParams _ _ _ _ _ _ _ hparams
  have h₄ := respectsSteps_sameInstances.bindFirst _ _ _ _ _ _ _ hout
  have h₅ := respectsSteps_sameInstances.bindOutputs _ _ _ _ _ _ _ _ houts
  exact (((h₅.trans h₄).trans h₃).trans h₂).trans h₁

/-! ## Bodies -/

theorem contextAt_grows (program : Program) (limit depth : Nat) :
    (contextAt program limit depth).Respects Draft.Grows :=
  respectsAll_grows.context (respectsAll_grows.contextAt program limit depth)

theorem elaborateBody_grows (program : Program) (limit depth : Nat) (statements : List Statement) :
    (elaborateBody (contextAt program limit depth) statements).Grows :=
  respectsAll_grows.body (respectsAll_grows.contextAt program limit depth) statements

/-! ## Programs -/

theorem markInputs_grows (bits : Bits) : (markInputs bits).Grows := by
  induction bits with
  | nil => exact grows_pure _
  | cons id rest ih =>
    exact grows_operation (fun h => .input h) ((claimDriver_grows id).bind fun _ => ih)

theorem markOutputs_grows (bits : Bits) : (markOutputs bits).Grows := by
  induction bits with
  | nil => exact grows_pure _
  | cons id rest ih => exact grows_operation (fun h => .output h) ih

theorem declareInputs_grows (ports : List Port) : (declareInputs ports).Grows := by
  induction ports with
  | nil => exact grows_pure _
  | cons p rest ih =>
    have hrest : Elab.Grows (do
        Elab.modifyScope (·.addPort p.name)
        declareInputs rest) := (grows_modifyScope _).bind fun _ => ih
    have hdeclare : (Elab.declare p.name p.width).Grows := respectsAll_grows.declare p.name p.width
    refine hdeclare.bind fun bits => (markInputs_grows bits).bind fun _ => ?_
    split
    · exact (grows_modifyNetlist fun n => .clock n _).bind fun _ => hrest
    · exact hrest

theorem declareOutputs_grows (ports : List Port) : (declareOutputs ports).Grows := by
  induction ports with
  | nil => exact grows_pure _
  | cons p rest ih =>
    have hdeclare : (Elab.declare p.name p.width).Grows := respectsAll_grows.declare p.name p.width
    exact hdeclare.bind fun bits => (markOutputs_grows bits).bind fun _ =>
      (grows_modifyScope _).bind fun _ => ih

/-- An elaborated netlist grows from the two constants. -/
theorem elaborate_grows {program : Program} {top : String} {config : ElabConfig} {n : Netlist}
    (h : elaborate program top config = .ok n) : (Draft.constants top).netlist.Grows n := by
  obtain ⟨m, d, d', -, hopen, hbody, rfl⟩ := elaborate_eq_ok h
  obtain ⟨d₁, hinputs, houtputs⟩ := openTop_eq_ok hopen
  exact ((declareInputs_grows m.params _ _ _ hinputs).trans
    (declareOutputs_grows m.outputs _ _ _ houtputs)).trans
      (elaborateBody_grows _ _ _ m.statements _ _ _ hbody)

/-- Signals and gates of an elaborated netlist are numbered by their positions, and the names of
the constants stand for the first two signals. -/
theorem elaborate_numbered {program : Program} {top : String} {config : ElabConfig} {n : Netlist}
    (h : elaborate program top config = .ok n) :
    n.Numbered ∧ n.signalId? zeroName = some zeroId ∧ n.signalId? oneName = some oneId := by
  have hgrows := elaborate_grows h
  have hname : ∀ name, (Draft.constants top).netlist.signalId? name =
      (if zeroName = name then some zeroId else none).or
        (if oneName = name then some oneId else none) := by
    intro name
    have hempty : (Netlist.empty top).signalId? name = none := by
      simp [Netlist.empty, Netlist.signalId?]
    rw [Draft.constants, Netlist.signalId?_addSignal, Netlist.signalId?_addSignal, hempty,
      Option.none_or]
    rfl
  refine ⟨hgrows.numbered (Draft.lawful_constants top).numbered, hgrows.signalId? ?_,
    hgrows.signalId? ?_⟩
  · rw [hname, if_pos rfl, Option.some_or]
  · rw [hname, if_neg (by decide), if_pos rfl, Option.none_or]

end NandHdl
