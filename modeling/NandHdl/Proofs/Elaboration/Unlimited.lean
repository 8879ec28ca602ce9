-- SUMMARY: Steps that never end at the limit of nesting (`Elab.Unlimited`): everything but the expansion of a call.
import NandHdl.Elaboration.Body
import NandHdl.Proofs.Elaboration.Drafts

/-!
# Steps that cannot meet the limit

Elaboration ends at the limit of nesting where a call is to be expanded and no level is left. No other
step refuses a program with this error. Each step is put together from smaller ones, and steps in a row
do not meet the limit if none of them does.
-/

namespace NandHdl

namespace Elab

variable {α β : Type} {d : Draft}

/-- From the draft `d` the step ends at the limit of nesting. -/
def AtLimit (x : Elab α) (d : Draft) : Prop :=
  ∃ name limit, x.run d = .error (.recursionLimit name limit)

/-- The step does not end at the limit of nesting, whatever the draft is. -/
def Unlimited (x : Elab α) : Prop := ∀ d, ¬ x.AtLimit d

/-- Steps in a row meet the limit in the first one, or in the second one after the first. -/
theorem atLimit_bind {x : Elab α} {f : α → Elab β} : (x >>= f).AtLimit d ↔
    x.AtLimit d ∨ ∃ a d', x.run d = .ok (a, d') ∧ (f a).AtLimit d' := by
  unfold AtLimit
  rw [StateT.run_bind]
  cases x.run d with
  | error e =>
    constructor
    · rintro ⟨name, limit, h⟩
      cases h
      exact .inl ⟨name, limit, rfl⟩
    · rintro (⟨name, limit, h⟩ | ⟨_, _, h, -⟩)
      · cases h
        exact ⟨name, limit, rfl⟩
      · cases h
  | ok r =>
    constructor
    · exact fun h => .inr ⟨r.1, r.2, rfl, h⟩
    · rintro (⟨_, _, h⟩ | ⟨a, d', h, hrest⟩)
      · cases h
      · cases h
        exact hrest

theorem Unlimited.bind {x : Elab α} {f : α → Elab β} (hx : x.Unlimited)
    (hf : ∀ a, (f a).Unlimited) : (x >>= f).Unlimited := by
  intro d h
  rcases atLimit_bind.1 h with h | ⟨a, d', -, h⟩
  · exact hx d h
  · exact hf a d' h

/-- Steps that always succeed. -/
theorem unlimited_of_ok {x : Elab α} (h : ∀ d, ∃ r, x.run d = .ok r) : x.Unlimited := by
  rintro d ⟨name, limit, hrun⟩
  obtain ⟨r, hr⟩ := h d
  cases hr.symm.trans hrun

theorem unlimited_pure (a : α) : (pure a : Elab α).Unlimited := unlimited_of_ok fun d => ⟨(a, d), rfl⟩

theorem unlimited_throw {e : ElabError} (h : ∀ name limit, e ≠ .recursionLimit name limit) :
    (throw e : Elab α).Unlimited := by
  rintro d ⟨name, limit, hrun⟩
  exact h name limit (Except.error.inj hrun)

theorem unlimited_get : (get : Elab Draft).Unlimited := unlimited_of_ok fun d => ⟨(d, d), rfl⟩

theorem unlimited_scope : scope.Unlimited := unlimited_get.bind fun _ => unlimited_pure _

theorem unlimited_modify (f : Draft → Draft) : (modify f : Elab Unit).Unlimited :=
  unlimited_of_ok fun d => ⟨((), f d), rfl⟩

theorem unlimited_discard {x : Elab α} (hx : x.Unlimited) : (discard x).Unlimited :=
  hx.bind fun _ => unlimited_pure PUnit.unit

theorem unlimited_ofChecked (c : Checked α) : (ofChecked c).Unlimited := by
  cases c with
  | ok a => exact unlimited_pure a
  | error f => exact unlimited_throw fun _ _ h => ElabError.noConfusion h

theorem unlimited_unknownSignal (name : String) : (unknownSignal name : Elab α).Unlimited :=
  unlimited_scope.bind fun _ => unlimited_throw fun _ _ h => ElabError.noConfusion h

/-! ## Signals and gates -/

theorem newSignal_unlimited (name : String) (owner : InstanceId) : (newSignal name owner).Unlimited :=
  unlimited_of_ok fun _ => ⟨_, rfl⟩

theorem newSignals_unlimited (owner : InstanceId) (names : List String) :
    (newSignals owner names).Unlimited := by
  induction names with
  | nil => exact unlimited_pure _
  | cons name rest ih =>
    exact (newSignal_unlimited _ _).bind fun _ => ih.bind fun _ => unlimited_pure _

theorem claimDriver_unlimited (id : SignalId) : (claimDriver id).Unlimited := by
  refine unlimited_get.bind fun d => (unlimited_ofChecked _).bind fun driven => ?_
  dsimp only
  split
  · exact (unlimited_ofChecked _).bind fun _ =>
      (unlimited_throw fun _ _ h => ElabError.noConfusion h).bind fun _ => unlimited_modify _
  · exact unlimited_modify _

theorem emitNand_unlimited (a b : SignalId) : (emitNand a b).Unlimited :=
  (unlimited_get.bind fun _ => newSignal_unlimited _ _).bind fun _ =>
    (claimDriver_unlimited _).bind fun _ => (unlimited_modify _).bind fun _ => unlimited_pure _

theorem emitDff_unlimited (a clk : SignalId) : (emitDff a clk).Unlimited :=
  unlimited_get.bind fun _ => (newSignal_unlimited _ _).bind fun _ =>
    (claimDriver_unlimited _).bind fun _ => unlimited_get.bind fun _ =>
      (unlimited_ofChecked _).bind fun _ => (unlimited_modify _).bind fun _ => unlimited_pure _

theorem wireInto_unlimited (src dst : SignalId) : (wireInto src dst).Unlimited := by
  unfold wireInto
  split
  · exact unlimited_pure _
  · exact (claimDriver_unlimited _).bind fun _ =>
      (unlimited_get.bind fun _ => newSignal_unlimited _ _).bind fun _ =>
        (unlimited_modify _).bind fun _ => unlimited_modify _

theorem wire_unlimited (src dst : Bits) : (wire src dst).Unlimited := by
  induction dst generalizing src with
  | nil =>
    cases src with
    | nil | cons => exact unlimited_pure _
  | cons id rest ih =>
    cases src with
    | nil | cons => exact (wireInto_unlimited _ _).bind fun _ => ih _

/-! ## Names -/

theorem bitsOf_unlimited (name : String) : (bitsOf name).Unlimited := by
  refine unlimited_scope.bind fun s => ?_
  split
  · exact unlimited_pure _
  · exact unlimited_unknownSignal _

theorem declare_unlimited (name : String) (width : Nat) : (declare name width).Unlimited :=
  unlimited_scope.bind fun _ => (newSignals_unlimited _ _).bind fun _ =>
    (unlimited_modify _).bind fun _ => unlimited_pure _

theorem namedBit_unlimited (name : String) (k : Nat) : (namedBit name k).Unlimited := by
  refine unlimited_scope.bind fun s => ?_
  split
  · split
    · exact unlimited_pure _
    · split
      · exact unlimited_pure _
      · exact unlimited_unknownSignal _
  · split
    · exact unlimited_pure _
    · exact unlimited_unknownSignal _

theorem memberOf_unlimited (object : Expr) (field : String) : (memberOf object field).Unlimited := by
  unfold memberOf
  split
  · exact unlimited_pure _
  · exact unlimited_throw fun _ _ h => ElabError.noConfusion h

/-! ## Instances -/

theorem aliasFrom_unlimited (name : String) (start : Nat) (bits : Bits) :
    (aliasBits.aliasFrom name start bits).Unlimited := by
  induction bits generalizing start with
  | nil => exact unlimited_pure _
  | cons id rest ih => exact (unlimited_modify _).bind fun _ => ih _

theorem aliasBits_unlimited (name : String) (bits : Bits) : (aliasBits name bits).Unlimited := by
  unfold aliasBits
  split
  · exact unlimited_pure _
  · exact unlimited_modify _
  · exact aliasFrom_unlimited _ _ _

theorem firstOutputBits_unlimited (target : String) (width : Nat) (inst : Instance) :
    (firstOutputBits target width inst).Unlimited := by
  have hwiden : ∀ (owner : InstanceId) (names : List String) (bits : Bits), Unlimited (do
      let bits := bits ++ (← newSignals owner names)
      modifyScope (·.bind target bits)
      return bits : Elab Bits) := fun owner names bits =>
    (newSignals_unlimited owner names).bind fun _ => (unlimited_modify _).bind fun _ =>
      unlimited_pure _
  unfold firstOutputBits
  refine (bitsOf_unlimited target).bind fun bits => unlimited_scope.bind fun s => ?_
  split
  · exact unlimited_pure _
  · dsimp only
    split
    · exact (newSignals_unlimited _ _).bind fun _ => unlimited_pure _
    · split
      · exact (unlimited_modify _).bind fun _ => hwiden _ _ _
      · exact hwiden _ _ _

theorem bindParams_unlimited (inst : Instance) (child : Scope) (params : List Port)
    (args : List Bits) : (bindParams inst child params args).Unlimited := by
  induction params generalizing child args with
  | nil => exact unlimited_pure _
  | cons q rest ih =>
    cases args with
    | nil => exact unlimited_pure _
    | cons arg args => exact (aliasBits_unlimited _ _).bind fun _ => ih _ _

theorem bindOutputs_unlimited (target callerPrefix : String) (inst : Instance) (child : Scope)
    (outs : List Port) : (bindOutputs target callerPrefix inst child outs).Unlimited := by
  induction outs generalizing child with
  | nil => exact unlimited_pure _
  | cons out rest ih =>
    exact (newSignals_unlimited _ _).bind fun _ => (aliasBits_unlimited _ _).bind fun _ =>
      (unlimited_modify _).bind fun _ => ih _

theorem openInstance_unlimited (m : ModuleDecl) (args : List Bits) (target : Option String) :
    (openInstance m args target).Unlimited := by
  have htarget : ∀ id width, (instanceTarget m id width target).Unlimited := fun id width => by
    cases target with
    | some target => exact unlimited_pure _
    | none => exact (unlimited_discard (declare_unlimited _ _)).bind fun _ => unlimited_pure _
  have hfirst : ∀ name inst, (firstOutput m name inst).Unlimited := fun name inst => by
    unfold firstOutput
    split
    · exact unlimited_pure _
    · exact firstOutputBits_unlimited _ _ _
  have hbind : ∀ inst child first, (bindFirst m inst child first).Unlimited :=
    fun inst child first => by
      unfold bindFirst
      split
      · exact unlimited_pure _
      · exact (aliasBits_unlimited _ _).bind fun _ => unlimited_pure _
  refine unlimited_scope.bind fun caller => unlimited_get.bind fun draft => ?_
  refine (unlimited_modify _).bind fun _ => (htarget _ _).bind fun name => ?_
  refine (hfirst name _).bind fun first => unlimited_scope.bind fun s => ?_
  refine (bindParams_unlimited _ _ m.params args).bind fun child => ?_
  refine (hbind _ child first).bind fun child => ?_
  exact (bindOutputs_unlimited name _ _ child _).bind fun child => unlimited_pure _

/-! ## Declarations -/

theorem declareBody_unlimited (cx : Context) (statements : List Statement) :
    (declareBody cx statements).Unlimited := by
  refine unlimited_scope.bind fun s => ?_
  generalize inferWidths s cx.program statements = widths
  generalize ({} : NameSet) = declared
  induction statements generalizing declared with
  | nil => exact unlimited_pure _
  | cons s rest ih =>
    refine unlimited_scope.bind fun scope => ?_
    split
    · exact ih declared
    · exact (unlimited_discard (declare_unlimited s.target _)).bind fun _ => ih _

theorem declareConstant_unlimited (name : String) : (declareConstant name).Unlimited :=
  (newSignal_unlimited _ _).bind fun _ => (claimDriver_unlimited _).bind fun _ => unlimited_modify _

theorem markInputs_unlimited (bits : Bits) : (markInputs bits).Unlimited := by
  induction bits with
  | nil => exact unlimited_pure _
  | cons id rest ih =>
    exact unlimited_get.bind fun _ => (unlimited_ofChecked _).bind fun _ =>
      (unlimited_modify _).bind fun _ => (claimDriver_unlimited _).bind fun _ => ih

theorem markOutputs_unlimited (bits : Bits) : (markOutputs bits).Unlimited := by
  induction bits with
  | nil => exact unlimited_pure _
  | cons id rest ih =>
    exact unlimited_get.bind fun _ => (unlimited_ofChecked _).bind fun _ =>
      (unlimited_modify _).bind fun _ => ih

theorem declareInputs_unlimited (ports : List Port) : (declareInputs ports).Unlimited := by
  induction ports with
  | nil => exact unlimited_pure _
  | cons q rest ih =>
    have hrest : Unlimited (do modifyScope (·.addPort q.name); declareInputs rest) :=
      (unlimited_modify _).bind fun _ => ih
    refine (declare_unlimited _ _).bind fun bits => (markInputs_unlimited bits).bind fun _ => ?_
    dsimp only
    split
    · exact (unlimited_modify _).bind fun _ => hrest
    · exact hrest

theorem declareOutputs_unlimited (ports : List Port) : (declareOutputs ports).Unlimited := by
  induction ports with
  | nil => exact unlimited_pure _
  | cons q rest ih =>
    exact (declare_unlimited _ _).bind fun _ => (markOutputs_unlimited _).bind fun _ =>
      (unlimited_modify _).bind fun _ => ih

theorem openTop_unlimited (m : ModuleDecl) : (openTop m).Unlimited :=
  (declareConstant_unlimited _).bind fun _ => (declareConstant_unlimited _).bind fun _ =>
    (declareInputs_unlimited _).bind fun _ => declareOutputs_unlimited _

end Elab

end NandHdl
