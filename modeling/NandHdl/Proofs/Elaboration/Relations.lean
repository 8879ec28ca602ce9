-- SUMMARY: Relations between the drafts before and after a step (`Elab.Respects`): what gates, flip-flops and instances respect is respected by every expression (`Expr.bits_respects`), and by every body if changes of the scope respect it too (`RespectsAll.body`).
import NandHdl.Elaboration.Body
import NandHdl.Proofs.Elaboration.Drafts
import Mathlib.Order.Defs.Unbundled

/-!
# Steps and relations

Much of what is known about elaboration says how the draft after a step stands to the one before,
and the relation is reflexive and transitive. Then steps in a row respect it if each of them does.
The rules of this file lead such a relation through expressions once: an expression changes the
draft only by the gates, flip-flops and instances that it makes. A relation that does not look at
the scope is led through whole bodies, and so through the instances.
-/

namespace NandHdl

namespace Elab

/-- If the step succeeds, the drafts before and after it are related. -/
def Respects {α : Type} (R : Draft → Draft → Prop) (x : Elab α) : Prop :=
  ∀ (d d' : Draft) (a : α), x.run d = .ok (a, d') → R d d'

section

variable {α β : Type} {R S : Draft → Draft → Prop}

theorem Respects.mono {x : Elab α} (hx : x.Respects R) (h : ∀ d d', R d d' → S d d') :
    x.Respects S :=
  fun d d' a hrun => h d d' (hx d d' a hrun)

theorem respects_throw (e : ElabError) : (throw e : Elab α).Respects R :=
  fun _ _ _ h => absurd h throw_ne_ok

theorem respects_unknownSignal (name : String) : (unknownSignal name : Elab α).Respects R :=
  fun _ _ _ h => absurd h unknownSignal_ne_ok

theorem respects_modifyScope {f : Scope → Scope} (h : ∀ d, R d { d with scope := f d.scope }) :
    (modifyScope f).Respects R := by
  intro d d' u hrun
  cases modifyScope_eq_ok.1 hrun
  exact h d

theorem respects_modifyNetlist {f : Netlist → Netlist}
    (h : ∀ d, R d { d with netlist := f d.netlist }) : (modifyNetlist f).Respects R := by
  intro d d' u hrun
  cases modifyNetlist_eq_ok.1 hrun
  exact h d

theorem respects_discard {x : Elab α} (hx : x.Respects R) : (discard x).Respects R := by
  intro d d' u h
  obtain ⟨a, hrun⟩ := discard_eq_ok h
  exact hx _ _ _ hrun

variable [IsPreorder Draft R]

theorem Respects.bind {x : Elab α} {f : α → Elab β} (hx : x.Respects R)
    (hf : ∀ a, (f a).Respects R) : (x >>= f).Respects R := by
  intro d d' b h
  obtain ⟨a, d₁, hrun, hrest⟩ := bind_eq_ok.1 h
  exact IsTrans.trans _ _ _ (hx _ _ _ hrun) (hf a _ _ _ hrest)

theorem respects_pure (a : α) : (pure a : Elab α).Respects R := by
  intro d d' b h
  obtain ⟨-, rfl⟩ := pure_eq_ok.1 h
  exact refl _

theorem respects_get : (get : Elab Draft).Respects R := by
  rintro d d' a ⟨⟩
  exact refl _

theorem respects_scope : scope.Respects R := respects_get.bind fun _ => respects_pure _

theorem respects_ofChecked (c : Checked α) : (ofChecked c).Respects R := by
  intro d d' a h
  obtain ⟨-, rfl⟩ := ofChecked_eq_ok.1 h
  exact refl _

theorem bitsOf_respects (name : String) : (bitsOf name).Respects R := by
  intro d d' bits h
  obtain ⟨-, rfl⟩ := bitsOf_eq_ok.1 h
  exact refl _

end

end Elab

open Elab

/-! ## Signals, gates and names -/

/-- The right to drive a signal, gates and new outputs for them respect the relation. -/
structure RespectsGates (R : Draft → Draft → Prop) : Prop where
  output : newGateOutput.Respects R
  driver : ∀ id, (claimDriver id).Respects R
  gate : ∀ in1 in2 out, (addNand in1 in2 out).Respects R

namespace RespectsGates

variable {R : Draft → Draft → Prop} [IsPreorder Draft R] (h : RespectsGates R)

include h

theorem emitNand (a b : SignalId) : (Elab.emitNand a b).Respects R :=
  h.output.bind fun out => (h.driver out).bind fun _ =>
    (h.gate a b out).bind fun _ => respects_pure _

theorem wireInto (src dst : SignalId) : (Elab.wireInto src dst).Respects R := by
  unfold Elab.wireInto
  split
  · exact respects_pure _
  · exact (h.driver dst).bind fun _ => h.output.bind fun t =>
      (h.gate src src t).bind fun _ => h.gate t t dst

theorem wire (src dst : Bits) : (Elab.wire src dst).Respects R := by
  induction dst generalizing src with
  | nil => cases src <;> exact respects_pure _
  | cons id rest ih =>
    cases src with
    | nil => exact (h.wireInto zeroId id).bind fun _ => ih []
    | cons first more => exact (h.wireInto first id).bind fun _ => ih more

end RespectsGates

/-- New signals, the right to drive a signal, gates and further names respect the relation. -/
structure RespectsParts (R : Draft → Draft → Prop) : Prop where
  signal : ∀ name owner, (newSignal name owner).Respects R
  driver : ∀ id, (claimDriver id).Respects R
  gate : ∀ in1 in2 out, (addNand in1 in2 out).Respects R
  named : ∀ name id, (modifyNetlist (·.addAlias name id)).Respects R

namespace RespectsParts

variable {R : Draft → Draft → Prop} [IsPreorder Draft R] (h : RespectsParts R)

include h

theorem newSignals (owner : InstanceId) (names : List String) :
    (Elab.newSignals owner names).Respects R := by
  induction names with
  | nil => exact respects_pure _
  | cons name rest ih => exact (h.signal name owner).bind fun _ => ih.bind fun _ => respects_pure _

theorem gates : RespectsGates R where
  output := respects_get.bind fun _ => h.signal _ _
  driver := h.driver
  gate := h.gate

theorem emitNand (a b : SignalId) : (Elab.emitNand a b).Respects R := h.gates.emitNand a b

theorem wireInto (src dst : SignalId) : (Elab.wireInto src dst).Respects R :=
  h.gates.wireInto src dst

theorem wire (src dst : Bits) : (Elab.wire src dst).Respects R := h.gates.wire src dst

theorem aliasFrom (name : String) (start : Nat) (bits : Bits) :
    (aliasBits.aliasFrom name start bits).Respects R := by
  induction bits generalizing start with
  | nil => exact respects_pure _
  | cons id rest ih => exact (h.named _ id).bind fun _ => ih _

theorem aliasBits (name : String) (bits : Bits) : (NandHdl.aliasBits name bits).Respects R := by
  unfold NandHdl.aliasBits
  split
  · exact respects_pure _
  · exact h.named name _
  · exact h.aliasFrom name 0 bits

theorem bindParams (inst : Instance) (child : Scope) (params : List Port) (args : List Bits) :
    (NandHdl.bindParams inst child params args).Respects R := by
  induction params generalizing child args with
  | nil => exact respects_pure _
  | cons p params ih =>
    cases args with
    | nil => exact respects_pure _
    | cons arg args => exact (h.aliasBits _ _).bind fun _ => ih _ args

theorem bindFirst (m : ModuleDecl) (inst : Instance) (child : Scope) (first : Bits) :
    (NandHdl.bindFirst m inst child first).Respects R := by
  unfold NandHdl.bindFirst
  split
  · exact respects_pure _
  · exact (h.aliasBits _ _).bind fun _ => respects_pure _

end RespectsParts

/-! ## Expressions -/

/-- Gates, flip-flops and instances without a target of their own respect the relation. -/
structure Context.Respects (cx : Context) (R : Draft → Draft → Prop) : Prop where
  nand : ∀ a b, (emitNand a b).Respects R
  dff : ∀ d clk, (emitDff d clk).Respects R
  expand : ∀ expand, cx.expand = some expand → ∀ callee m, cx.program.find? callee = some m →
    ∀ args, (expand m args none).Respects R

/-- Instances for the target respect the relation. -/
def Context.RespectsFor (cx : Context) (target : Option String) (R : Draft → Draft → Prop) : Prop :=
  ∀ expand, cx.expand = some expand → ∀ callee m, cx.program.find? callee = some m →
    ∀ args, (expand m args target).Respects R

section

variable {cx : Context} {R : Draft → Draft → Prop} [IsPreorder Draft R]

theorem namedBit_respects (name : String) (k : Nat) : (namedBit name k).Respects R := by
  refine respects_scope.bind fun s => ?_
  split
  · split
    · exact respects_pure _
    · split
      · exact respects_pure _
      · exact respects_unknownSignal _
  · split
    · exact respects_pure _
    · exact respects_unknownSignal _

theorem memberOf_respects (object : Expr) (field : String) : (memberOf object field).Respects R := by
  unfold memberOf
  split
  · exact respects_pure _
  · exact respects_throw _

/-- A gate or flip-flop on the low bits of its arguments. -/
theorem primitive_respects {low : Elab Bits} (hlow : low.Respects R)
    {emit : SignalId → SignalId → Elab SignalId} (hemit : ∀ a b, (emit a b).Respects R) :
    Elab.Respects R (do
      match ← low with
      | [a, b] => return [← emit a b]
      | _ => throw (.fault .outOfRange) : Elab Bits) := by
  refine hlow.bind fun ids => ?_
  split
  · exact (hemit _ _).bind fun _ => respects_pure _
  · exact respects_throw _

/-- A call for a target, if instances for this target respect the relation. -/
theorem Context.Respects.call (hcx : cx.Respects R) (callee : String) {target : Option String}
    (htarget : cx.RespectsFor target R) (count : Nat) {low : Elab Bits} {all : Elab (List Bits)}
    (hlow : low.Respects R) (hall : all.Respects R) :
    (cx.call callee target count low all).Respects R := by
  unfold Context.call
  split
  · split
    · exact (respects_throw _).bind fun _ => primitive_respects hlow hcx.nand
    · exact primitive_respects hlow hcx.nand
  · split
    · split
      · exact (respects_throw _).bind fun _ => primitive_respects hlow hcx.dff
      · exact primitive_respects hlow hcx.dff
    · split
      · exact respects_scope.bind fun _ => respects_throw _
      · next m hm =>
        split
        · exact respects_throw _
        · next expand hsome =>
          have hrest : Elab.Respects R (do expand m (← all) target) :=
            hall.bind fun args => htarget expand hsome callee m hm args
          dsimp only
          split
          · exact (respects_throw _).bind fun _ => hrest
          · exact hrest

end

section

variable {cx : Context} {R : Draft → Draft → Prop}

mutual

theorem Expr.bits_respects [IsPreorder Draft R] (hcx : cx.Respects R) :
    ∀ e : Expr, (e.bits cx).Respects R
  | .number value => by
    rw [Expr.bits]
    exact respects_pure _
  | .ident name => by
    rw [Expr.bits]
    exact bitsOf_respects name
  | .index object position => by
    rw [Expr.bits]
    exact (Expr.bit_respects hcx object position).bind fun _ => respects_pure _
  | .slice object first last => by
    rw [Expr.bits]
    have hrest := (Expr.bits_respects hcx object).bind fun base => respects_pure (R := R)
      ((List.range (last - first + 1)).map fun i => base.getD (first + i) zeroId)
    split
    · exact (respects_throw _).bind fun _ => hrest
    · exact hrest
  | .member object field => by
    rw [Expr.bits]
    exact (memberOf_respects object field).bind fun name => bitsOf_respects name
  | .concat parts => by
    rw [Expr.bits]
    exact (Expr.bitsAll_respects hcx parts).bind fun _ => respects_pure _
  | .call callee args => by
    rw [Expr.bits]
    exact hcx.call callee hcx.expand _
      (Expr.lowBits_respects hcx args) (Expr.bitsAll_respects hcx args)

theorem Expr.bit_respects [IsPreorder Draft R] (hcx : cx.Respects R) :
    ∀ (e : Expr) (k : Nat), (e.bit cx k).Respects R
  | .number value, k => by
    rw [Expr.bit]
    exact respects_pure _
  | .ident name, k => by
    rw [Expr.bit]
    exact namedBit_respects name k
  | .index object position, k => by
    rw [Expr.bit]
    split
    · exact Expr.bit_respects hcx object position
    · exact respects_pure _
  | .slice object first last, k => by
    rw [Expr.bit]
    have hrest : Elab.Respects R (do
        if k > last - first then return zeroId
        object.bit cx (first + k)) := by
      split
      · exact respects_pure _
      · exact Expr.bit_respects hcx object _
    split
    · exact (respects_throw _).bind fun _ => hrest
    · exact hrest
  | .member object field, k => by
    rw [Expr.bit]
    exact (memberOf_respects object field).bind fun name => namedBit_respects name k
  | .concat parts, k => by
    rw [Expr.bit]
    refine respects_scope.bind fun s => ?_
    dsimp only
    split
    · exact Expr.bitOfPart_respects hcx parts _ _
    · exact respects_pure _
  | .call callee args, k => by
    rw [Expr.bit]
    exact (hcx.call callee hcx.expand _
      (Expr.lowBits_respects hcx args) (Expr.bitsAll_respects hcx args)).bind fun _ => respects_pure _

theorem Expr.bitsAll_respects [IsPreorder Draft R] (hcx : cx.Respects R) :
    ∀ es : List Expr, (Expr.bitsAll cx es).Respects R
  | [] => by
    rw [Expr.bitsAll]
    exact respects_pure _
  | e :: rest => by
    rw [Expr.bitsAll]
    exact (Expr.bits_respects hcx e).bind fun _ => (Expr.bitsAll_respects hcx rest).bind fun _ =>
      respects_pure _

theorem Expr.lowBits_respects [IsPreorder Draft R] (hcx : cx.Respects R) :
    ∀ es : List Expr, (Expr.lowBits cx es).Respects R
  | [] => by
    rw [Expr.lowBits]
    exact respects_pure _
  | e :: rest => by
    rw [Expr.lowBits]
    exact (Expr.bit_respects hcx e 0).bind fun _ => (Expr.lowBits_respects hcx rest).bind fun _ =>
      respects_pure _

theorem Expr.bitOfPart_respects [IsPreorder Draft R] (hcx : cx.Respects R) :
    ∀ (es : List Expr) (i k : Nat), (Expr.bitOfPart cx es i k).Respects R
  | [], _, _ => by
    rw [Expr.bitOfPart]
    exact respects_throw _
  | e :: _, 0, k => by
    rw [Expr.bitOfPart]
    exact Expr.bit_respects hcx e k
  | _ :: rest, i + 1, k => by
    rw [Expr.bitOfPart]
    exact Expr.bitOfPart_respects hcx rest i k

end

end

/-- The right-hand side of a statement, if instances for its target respect the relation. -/
theorem Statement.bits_respects {cx : Context} {R : Draft → Draft → Prop} [IsPreorder Draft R]
    (hcx : cx.Respects R) (s : Statement) (htarget : cx.RespectsFor (some s.target) R) :
    (s.bits cx).Respects R := by
  unfold Statement.bits
  split
  · exact hcx.call _ htarget _ (Expr.lowBits_respects hcx _) (Expr.bitsAll_respects hcx _)
  · exact Expr.bits_respects hcx _

/-! ## Bodies -/

/-- Flip-flops and changes of the scope respect the relation as well. -/
structure RespectsSteps (R : Draft → Draft → Prop) : Prop extends RespectsParts R where
  dff : ∀ d clk, (emitDff d clk).Respects R
  scope : ∀ f, (modifyScope f).Respects R

/-- New instances too, so that nothing is left that a body could do. -/
structure RespectsAll (R : Draft → Draft → Prop) : Prop extends RespectsSteps R where
  inst : ∀ moduleName parent namePrefix,
    (modifyNetlist (·.addInstance moduleName parent namePrefix)).Respects R

namespace RespectsSteps

variable {R : Draft → Draft → Prop} [IsPreorder Draft R] (h : RespectsSteps R)

include h

theorem declare (name : String) (width : Nat) : (Elab.declare name width).Respects R :=
  respects_scope.bind fun _ => (h.newSignals _ _).bind fun _ =>
    (h.scope _).bind fun _ => respects_pure _

theorem firstOutputBits (target : String) (width : Nat) (inst : Instance) :
    (NandHdl.firstOutputBits target width inst).Respects R := by
  have hwiden : ∀ (owner : InstanceId) (names : List String) (bits : Bits), Elab.Respects R (do
      let bits := bits ++ (← Elab.newSignals owner names)
      Elab.modifyScope (·.bind target bits)
      return bits : Elab Bits) := fun owner names bits =>
    (h.newSignals owner names).bind fun _ => (h.scope _).bind fun _ => respects_pure _
  unfold NandHdl.firstOutputBits
  refine (bitsOf_respects target).bind fun bits => respects_scope.bind fun s => ?_
  split
  · exact respects_pure _
  · dsimp only
    split
    · exact (h.newSignals _ _).bind fun _ => respects_pure _
    · split
      · exact (h.named _ _).bind fun _ => hwiden _ _ _
      · exact hwiden _ _ _

theorem firstOutput (m : ModuleDecl) (target : String) (inst : Instance) :
    (NandHdl.firstOutput m target inst).Respects R := by
  unfold NandHdl.firstOutput
  split
  · exact respects_pure _
  · exact h.firstOutputBits _ _ _

theorem bindOutputs (target callerPrefix : String) (inst : Instance) (child : Scope)
    (outs : List Port) : (NandHdl.bindOutputs target callerPrefix inst child outs).Respects R := by
  induction outs generalizing child with
  | nil => exact respects_pure _
  | cons out rest ih =>
    exact (h.newSignals _ _).bind fun _ => (h.aliasBits _ _).bind fun _ =>
      (h.scope _).bind fun _ => ih _

theorem instanceTarget (m : ModuleDecl) (id : InstanceId) (width : Nat) (target : Option String) :
    (NandHdl.instanceTarget m id width target).Respects R := by
  cases target with
  | some target => exact respects_pure _
  | none => exact (respects_discard (h.declare _ _)).bind fun _ => respects_pure _

theorem declareTargets (widths : NameMap Nat) (declared : NameSet) (statements : List Statement) :
    (NandHdl.declareTargets widths declared statements).Respects R := by
  induction statements generalizing declared with
  | nil => exact respects_pure _
  | cons s rest ih =>
    refine respects_scope.bind fun scope => ?_
    split
    · exact ih declared
    · exact (respects_discard (h.declare s.target _)).bind fun _ => ih _

theorem declareBody (cx : Context) (statements : List Statement) :
    (NandHdl.declareBody cx statements).Respects R :=
  respects_scope.bind fun _ => h.declareTargets _ {} statements

end RespectsSteps

namespace RespectsAll

variable {R : Draft → Draft → Prop} [IsPreorder Draft R] (h : RespectsAll R)

include h

theorem openInstance (m : ModuleDecl) (args : List Bits) (target : Option String) :
    (NandHdl.openInstance m args target).Respects R := by
  refine respects_scope.bind fun caller => respects_get.bind fun draft => ?_
  refine (h.inst _ _ _).bind fun _ => (h.instanceTarget m _ _ target).bind fun target => ?_
  refine (h.firstOutput m target _).bind fun first => respects_scope.bind fun s => ?_
  refine (h.bindParams _ _ m.params args).bind fun child => ?_
  refine (h.bindFirst m _ child first).bind fun child => ?_
  exact (h.bindOutputs target _ _ child _).bind fun child => respects_pure _

theorem instantiate (m : ModuleDecl) (args : List Bits) (target : Option String) {body : Elab Unit}
    (hbody : body.Respects R) : (NandHdl.instantiate m args target body).Respects R :=
  (h.openInstance m args target).bind fun _ => respects_scope.bind fun _ =>
    (h.scope _).bind fun _ => hbody.bind fun _ => (h.scope _).bind fun _ => respects_pure _

section

variable {cx : Context} (hcx : ∀ expand, cx.expand = some expand → ∀ m args target,
  (expand m args target).Respects R)

include hcx

theorem context : cx.Respects R :=
  ⟨h.emitNand, h.dff, fun expand hexpand _ m _ args => hcx expand hexpand m args none⟩

theorem statement (s : Statement) : (elaborateStatement cx s).Respects R := by
  have hvalue := s.bits_respects (h.context hcx) fun expand hexpand _ m _ args =>
    hcx expand hexpand m args (some s.target)
  exact hvalue.bind fun src => (bitsOf_respects s.target).bind fun dst => h.wire src dst

theorem statements (statements : List Statement) :
    (elaborateStatements cx statements).Respects R := by
  induction statements with
  | nil => exact respects_pure _
  | cons s rest ih => exact (h.statement hcx s).bind fun _ => ih

theorem body (statements : List Statement) : (elaborateBody cx statements).Respects R :=
  (h.declareBody cx statements).bind fun _ => h.statements hcx statements

end

/-- Nested bodies are as the ones that they are nested in. -/
theorem contextAt (program : Program) (limit depth : Nat) :
    ∀ expand, (NandHdl.contextAt program limit depth).expand = some expand →
      ∀ m args target, (expand m args target).Respects R := by
  induction depth with
  | zero => exact nofun
  | succ depth ih =>
    rintro expand ⟨⟩ m args target
    exact h.instantiate m args target (h.body ih m.statements)

end RespectsAll

end NandHdl
