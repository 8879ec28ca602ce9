-- SUMMARY: The name of a target does not matter (`elaborate_renameIn`), unless it is mixed up with the names of a caller, and then it may (`elaborate_renameIn_leak`).
import NandHdl.Proofs.Renaming.Bodies
import NandHdl.Proofs.Elaboration.SingleDrivers

/-!
# Programs up to a renaming

A program and its renamed version are elaborated from the same empty draft, so both lead to a
netlist or neither does, and the netlists are the same but for the names of their signals.

A name that is asked for before it is bound stands for whatever the caller has bound to it. If the
caller has a bus of that name, the statement that asks for it gets the width of that bus, and other
gates than it gets under another name.
-/

namespace NandHdl

open Elab

variable {ρ : Renaming} {v : View} {active : Bool} {seen : Ref → Prop} {p : Program} {i : Nat}
  {cx cx' : Context} {m : ModuleDecl}

/-! ## Top modules -/

theorem Draft.renamed_empty (top : String) : (Draft.empty top).Renamed ρ v seen (.empty top) := by
  have hbus : ∀ x : String, (Draft.empty top).scope.buses[x]? = none := by
    intro x
    simp [Draft.empty, Scope.top]
  have hsignal : ∀ x, (Draft.empty top).scope.lookup? x = none := by
    intro x
    simp [Draft.empty, Scope.top, Scope.lookup?]
  have hport : ∀ x, ¬(Draft.empty top).scope.isPort x = true := by
    intro x
    simp [Draft.empty, Scope.top, Scope.isPort]
  refine ⟨⟨rfl, rfl⟩, rfl, rfl, fun x _ => iff_of_false (hport _) (hport _),
    fun h => absurd h (hport _), fun r _ => ?_, fun _ => ?_⟩
  · refine ⟨(hbus _).trans (hbus _).symm, fun _ => (hsignal _).trans (hsignal _).symm, fun hw => ?_⟩
    rw [hbus] at hw
    cases hw
  · exact ⟨fun r _ _ => ⟨hbus _, hsignal _⟩, fun r _ _ => ⟨hbus _, hsignal _⟩⟩

theorem declareConstant_lockstep {start : Prop} (hv : v.clear → start) {x : String}
    (hx : PlainName x) (hstart : start → x ≠ ρ.old ∧ x ≠ ρ.new) :
    Lockstep ρ v (fun _ => start) (fun _ => start) (declareConstant x) (declareConstant x) :=
  (newSignal_lockstep x x 0).bind fun id => (claimDriver_lockstep id).bind fun _ =>
    lockstep_modifyScope fun _ _ hs => hs.bindConstant hv hx hstart (List.cons_ne_nil id [])

theorem markInputs_lockstep (bits : Bits) :
    Lockstep ρ v seen seen (markInputs bits) (markInputs bits) := by
  induction bits with
  | nil => exact lockstep_pure ()
  | cons id rest ih =>
    exact together_operation (Netlist.nameless_addPrimaryInput id)
      ((claimDriver_lockstep id).bind fun _ => ih)

theorem markOutputs_lockstep (bits : Bits) :
    Lockstep ρ v seen seen (markOutputs bits) (markOutputs bits) := by
  induction bits with
  | nil => exact lockstep_pure ()
  | cons id rest ih => exact together_operation (Netlist.nameless_addPrimaryOutput id) ih

section

variable {q : Port} (hq : q.ref.Bindable ρ v ∧ ρ.name v.active q.name = q.name)

include hq

theorem declarePort_lockstep :
    Lockstep ρ v seen (fun r => seen r ∨ r = q.ref) (declare q.name q.width)
      (declare q.name q.width) := by
  have h : Lockstep ρ v seen (fun r => seen r ∨ r = q.ref) (declare q.name q.width)
      (declare (ρ.name v.active q.name) q.width) := declare_lockstep hq.1 q.width
  rwa [hq.2] at h

theorem addPort_lockstep (hseen : seen q.ref) :
    Lockstep ρ v seen seen (modifyScope (·.addPort q.name)) (modifyScope (·.addPort q.name)) :=
  lockstep_modifyScope fun _ _ hs => hs.addPort hq.1.ne_new hq.2 hseen

end

theorem declareInputs_lockstep {ports : List Port}
    (hports : ∀ q ∈ ports, q.ref.Bindable ρ v ∧ ρ.name v.active q.name = q.name) :
    Lockstep ρ v seen (fun r => seen r ∨ r ∈ ports.map Port.ref) (declareInputs ports)
      (declareInputs ports) := by
  induction ports generalizing seen with
  | nil => exact (lockstep_pure ()).congr fun _ _ => (or_iff_left List.not_mem_nil).symm
  | cons q rest ih =>
    rw [List.forall_mem_cons] at hports
    have hrest : Lockstep ρ v (fun r => seen r ∨ r = q.ref)
        (fun r => seen r ∨ r ∈ (q :: rest).map Port.ref)
        (do modifyScope (·.addPort q.name); declareInputs rest)
        (do modifyScope (·.addPort q.name); declareInputs rest) := by
      refine (addPort_lockstep hports.1 (.inr rfl)).bind fun _ => (ih hports.2).congr fun r _ => ?_
      rw [List.map_cons, List.mem_cons, or_assoc]
    refine (declarePort_lockstep hports.1).bind fun bits => (markInputs_lockstep bits).bind
      fun _ => ?_
    split
    · refine Lockstep.bind (lockstep_modifyNetlist fun _ _ h => ?_) fun _ => hrest
      exact congrArg (fun n => { n with clock := bits.head? }) h
    · exact hrest

theorem declareOutputs_lockstep {ports : List Port}
    (hports : ∀ q ∈ ports, q.ref.Bindable ρ v ∧ ρ.name v.active q.name = q.name) :
    Lockstep ρ v seen (fun r => seen r ∨ r ∈ ports.map Port.ref) (declareOutputs ports)
      (declareOutputs ports) := by
  induction ports generalizing seen with
  | nil => exact (lockstep_pure ()).congr fun _ _ => (or_iff_left List.not_mem_nil).symm
  | cons q rest ih =>
    rw [List.forall_mem_cons] at hports
    refine (declarePort_lockstep hports.1).bind fun bits => (markOutputs_lockstep bits).bind
      fun _ => (addPort_lockstep hports.1 (.inr rfl)).bind fun _ => (ih hports.2).congr fun r _ => ?_
    rw [List.map_cons, List.mem_cons, or_assoc]

theorem openTop_lockstep (hm : m.Fits ρ active p) :
    Lockstep ρ (p.view ρ m active) (fun _ => p.StartsClear ρ m) (p.SeenFirst ρ m) (openTop m)
      (openTop (m.rename (ρ.name active))) := by
  have hclear : (p.view ρ m active).clear → p.StartsClear ρ m := And.left
  have hzero : p.StartsClear ρ m → zeroName ≠ ρ.old ∧ zeroName ≠ ρ.new := fun h =>
    ⟨fun heq => h.1 (.inl heq.symm), fun heq => h.2 (.inl heq.symm)⟩
  have hone : p.StartsClear ρ m → oneName ≠ ρ.old ∧ oneName ≠ ρ.new := fun h =>
    ⟨fun heq => h.1 (.inr (.inl heq.symm)), fun heq => h.2 (.inr (.inl heq.symm))⟩
  refine (declareConstant_lockstep hclear (by decide) hzero).bind fun _ =>
    (declareConstant_lockstep hclear (by decide) hone).bind fun _ => ?_
  refine (declareInputs_lockstep fun q hq => hm.ports q (List.mem_append_left _ hq)).bind
    fun _ => ?_
  refine (declareOutputs_lockstep fun q hq => hm.ports q (List.mem_append_right _ hq)).congr
    fun r _ => ?_
  rw [Program.SeenFirst, ModuleDecl.isPortRef_iff, List.map_append, List.mem_append, or_assoc]

theorem elaborateTop_lockstep (hcx : cx.Renamed ρ p i cx') (hm : m.Fits ρ active p) :
    Lockstep ρ (p.view ρ m active) (fun _ => p.StartsClear ρ m) (m.Seen p ρ m.statements)
      (elaborateTop cx m) (elaborateTop cx' (m.rename (ρ.name active))) :=
  (openTop_lockstep hm).bind fun _ => elaborateBody_lockstep hcx hm

/-! ## Programs -/

/-- The name of a target does not matter, as long as it is kept apart from the names of others:
elaboration leads to netlists that are the same but for the names of their signals, or it fails
before and after the renaming. -/
theorem elaborate_renameIn (h : p.Renames i ρ) (hsep : p.Separates ρ) (top : String)
    (config : ElabConfig) :
    (∃ n n', elaborate p top config = .ok n ∧ elaborate (p.renameIn i ρ) top config = .ok n' ∧
        n.unnamed = n'.unnamed) ∨
      ∃ e e', elaborate p top config = .error e ∧
        elaborate (p.renameIn i ρ) top config = .error e' := by
  rcases p.find?_renameIn i ρ top with ⟨hnone, hnone'⟩ | ⟨m, active, hfind, hfind', hactive⟩
  · refine .inr ⟨.missingTopModule top, .missingTopModule top, ?_, ?_⟩
    · rw [elaborate, hnone]
      rfl
    · rw [elaborate, hnone']
      rfl
  · have hcx := contextAt_renamed (fun hm hon => h.fits hsep hm hon) config.maxInlineDepth
      config.maxInlineDepth
    have hm := h.fits hsep (Program.find?_eq_some hfind).1 hactive
    rcases elaborateTop_lockstep hcx hm _ _ (Draft.renamed_empty top) with
      ⟨_, _, d, d', hrun, hrun', -, hd⟩ | ⟨e, e', hrun, hrun'⟩
    · exact .inl ⟨d.netlist, d'.netlist, (elaborate_of_run hfind hrun).2,
        (elaborate_of_run hfind' hrun').2, hd.netlist⟩
    · exact .inr ⟨e, e', elaborate_of_run_error hfind hrun, elaborate_of_run_error hfind' hrun'⟩

/-- A module with a target `z` and a copy `y` of it, which is taken as the higher bit of a value. Its
caller has a bus `z` of its own. -/
def sharedName (copyFirst : Bool) : Program :=
  let negation : Statement :=
    { target := "z", expr := .call nandName [.ident "a", .ident "a"] }
  let copy : Statement := { target := "y", expr := .ident "z" }
  { modules := [
      { name := "child"
        params := [{ name := "a" }]
        outputs := [{ name := "o" }]
        statements := (if copyFirst then [copy, negation] else [negation, copy]) ++ [
          { target := "w", expr := .concat [.ident "a", .ident "y"] },
          { target := "o", expr := .index (.ident "w") 1 }] },
      { name := "top"
        params := [{ name := "x" }]
        outputs := [{ name := "o" }]
        statements := [
          { target := "z", expr := .concat [.ident "x", .ident "x", .ident "x"] },
          { target := "o", expr := .call "child" [.ident "x"] }] }] }

/-- The name `t` for `z`. -/
def sharedName.rename : Renaming := { old := "z", new := "t", new_plain := by decide }

/-- In either order the module reads its own names only. -/
theorem sharedName.renames : ∀ copyFirst, (sharedName copyFirst).Renames 0 rename := by
  intro copyFirst
  refine ⟨?_, ⟨_, rfl, ?_, ?_⟩, ?_, Program.not_madeUp (by decide)⟩
  all_goals
    revert copyFirst
    decide +kernel

theorem elaborate_renameIn_sharedName :
    (sharedName false).Renames 0 sharedName.rename ∧
    (sharedName false).Separates sharedName.rename ∧
    ∃ n n', elaborate (sharedName false) "top" {} = .ok n ∧
      elaborate ((sharedName false).renameIn 0 sharedName.rename) "top" {} = .ok n' ∧
      n.unnamed = n'.unnamed := by
  have hseparates : (sharedName false).Separates sharedName.rename := by
    have hfirst : ∀ m ∈ (sharedName false).modules, m.BindsFirst (sharedName false) "z" := by
      decide +kernel
    refine ⟨?_, Program.not_madeUp (by decide), fun m hm _ => hfirst m hm⟩
    decide +kernel
  have hok : (elaborate (sharedName false) "top" {}).toBool = true := by decide +kernel
  refine ⟨sharedName.renames false, hseparates,
    (elaborate_renameIn (sharedName.renames false) hseparates "top" {}).resolve_right ?_⟩
  rintro ⟨e, -, he, -⟩
  rw [he] at hok
  exact nomatch hok

/-- If the copy comes first, the caller's bus makes it three bits wide. With another name for the
target it is one bit wide. -/
theorem elaborate_renameIn_leak :
    (sharedName true).Renames 0 sharedName.rename ∧
    ∃ n n', elaborate (sharedName true) "top" {} = .ok n ∧
      elaborate ((sharedName true).renameIn 0 sharedName.rename) "top" {} = .ok n' ∧
      n.gates.size = 25 ∧ n'.gates.size = 17 := by
  have hsizes : (match elaborate (sharedName true) "top" {},
        elaborate ((sharedName true).renameIn 0 sharedName.rename) "top" {} with
      | .ok n, .ok n' => decide (n.gates.size = 25 ∧ n'.gates.size = 17)
      | _, _ => false) = true := by decide +kernel
  refine ⟨sharedName.renames true, ?_⟩
  split at hsizes
  · next n n' he he' => exact ⟨n, n', he, he', of_decide_eq_true hsizes⟩
  · exact nomatch hsizes

end NandHdl
