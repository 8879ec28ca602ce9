-- SUMMARY: A module and its renamed version are instantiated in lockstep (`instantiate_lockstep`), if their bodies are elaborated in lockstep.
import NandHdl.Elaboration.Body
import NandHdl.Proofs.Renaming.Values

/-!
# Instances up to a renaming

The caller and the called module may be renamed independently: it is the name of the target that the
caller has changed, and it is the names of the body that the called module has changed. Whatever the
caller has bound, the body starts with its ports as all that has been seen of the old name.
-/

namespace NandHdl

open Elab

variable {ρ : Renaming} {v w : View} {seen : Ref → Prop} {p : Program} {m : ModuleDecl}

/-! ## Names of the netlist -/

theorem addAlias_lockstep (name name' : String) (id : SignalId) :
    Lockstep ρ v seen seen (modifyNetlist (·.addAlias name id))
      (modifyNetlist (·.addAlias name' id)) :=
  lockstep_modifyNetlist fun _ _ h => h

theorem aliasFrom_lockstep (name name' : String) (start : Nat) (bits : Bits) :
    Lockstep ρ v seen seen (aliasBits.aliasFrom name start bits)
      (aliasBits.aliasFrom name' start bits) := by
  induction bits generalizing start with
  | nil => exact lockstep_pure ()
  | cons id rest ih => exact (addAlias_lockstep _ _ id).bind fun _ => ih _

/-- The names for the bits of a value leave no trace but themselves. -/
theorem aliasBits_lockstep (name name' : String) (bits : Bits) :
    Lockstep ρ v seen seen (aliasBits name bits) (aliasBits name' bits) := by
  match bits with
  | [] => exact lockstep_pure ()
  | [id] => exact addAlias_lockstep name name' id
  | id :: id' :: rest => exact aliasFrom_lockstep name name' 0 (id :: id' :: rest)

/-! ## Outputs -/

theorem length_missingBitNames (target : String) (start width : Nat) :
    (missingBitNames target start width).length = width - start := by
  rw [missingBitNames, List.length_map, List.length_range]

/-- A target that is no port is widened by as many bits on both sides. -/
theorem widenTarget_lockstep {x : String} (hx : Ref.Assignable ρ v seen { name := x }) {bits : Bits}
    {owner : InstanceId} {names names' : List String} (hlength : names.length = names'.length)
    (hnames : 0 < names.length) :
    LockstepTo ρ v seen seen (· ≠ [])
      (do
        let bits := bits ++ (← newSignals owner names)
        modifyScope (·.bind x bits)
        return bits)
      (do
        let bits := bits ++ (← newSignals owner names')
        modifyScope (·.bind (ρ.name v.active x) bits)
        return bits) := by
  refine (newSignals_lockstep owner hlength).bind fun more hmore => ?_
  have hne : bits ++ more ≠ [] :=
    List.append_ne_nil_of_right_ne_nil _ (List.ne_nil_of_length_pos (hmore ▸ hnames))
  have hbind : Lockstep ρ v seen seen (modifyScope (·.bind x (bits ++ more)))
      (modifyScope (·.bind (ρ.name v.active x) (bits ++ more))) := by
    refine lockstep_modifyScope fun s s' hs => ?_
    refine (hs.bind hx.toBindable hne).congr fun r hold => ?_
    refine or_iff_left_of_imp ?_
    rintro rfl
    exact hx.seen hold
  exact hbind.bind fun _ => lockstepTo_pure hne

/-- The first output of an instance has the same signals on both sides. -/
theorem firstOutputBits_lockstep {x : String} (hx : Ref.Assignable ρ v seen { name := x })
    {width : Nat} (hwidth : 0 < width) (inst : Instance) :
    LockstepTo ρ v seen seen (· ≠ []) (firstOutputBits x width inst)
      (firstOutputBits (ρ.name v.active x) width inst) := by
  refine (bitsOf_lockstep hx.toReadable).bind fun bits => together_scope_bind fun s s' hs => ?_
  have hlength : ∀ (f : String → String) (y : String),
      ((missingBitNames y bits.length width).map f).length = width - bits.length := by
    intro f y
    rw [List.length_map, length_missingBitNames]
  have hlengths : ∀ (f g : String → String) (y z : String),
      ((missingBitNames y bits.length width).map f).length =
        ((missingBitNames z bits.length width).map g).length := by
    intro f g y z
    rw [hlength, hlength]
  split
  · next hle =>
    refine lockstepTo_pure (List.ne_nil_of_length_pos ?_)
    rw [List.length_take, Nat.min_eq_left hle]
    exact hwidth
  · next hlt =>
    have hnames : ∀ f : String → String,
        0 < ((missingBitNames x bits.length width).map f).length := by
      intro f
      rw [hlength]
      exact Nat.sub_pos_of_lt (Nat.not_le.1 hlt)
    dsimp only
    rw [← hs.owner]
    by_cases hport : s.isPort x = true
    · rw [if_pos hport, if_pos ((hs.isPort_iff x hx.ne_new).1 hport)]
      refine (newSignals_lockstep inst.id (hlengths _ _ x (ρ.name v.active x))).bind ?_
      intro more hmore
      exact lockstepTo_pure (List.append_ne_nil_of_right_ne_nil _
        (List.ne_nil_of_length_pos (hmore ▸ hnames _)))
    · rw [if_neg hport, if_neg fun hport' => hport ((hs.isPort_iff x hx.ne_new).2 hport')]
      split
      · exact (addAlias_lockstep _ _ _).bind fun _ =>
          widenTarget_lockstep hx (hlengths _ _ x (ρ.name v.active x)) (hnames _)
      · exact widenTarget_lockstep hx (hlengths _ _ x (ρ.name v.active x)) (hnames _)

/-! ## Ports of the body -/

/-- The drafts of the caller are the same but for names, and so are the scopes for the body. -/
structure Draft.Opened (ρ : Renaming) (v w : View) (seen seenIn : Ref → Prop)
    (child child' : Scope) (d d' : Draft) : Prop where
  caller : d.Renamed ρ v seen d'
  body : child.Renamed ρ w seenIn child'

/-- It only matters what is seen of the old name. -/
theorem Draft.Opened.congr {seenIn seen' seenIn' : Ref → Prop} {child child' : Scope} {d d' : Draft}
    (h : d.Opened ρ v w seen seenIn child child' d')
    (hseen : ∀ r : Ref, r.name = ρ.old → (seen r ↔ seen' r))
    (hseenIn : ∀ r : Ref, r.name = ρ.old → (seenIn r ↔ seenIn' r)) :
    d.Opened ρ v w seen' seenIn' child child' d' :=
  ⟨h.caller.congr hseen, h.body.congr hseenIn⟩

section

variable {seenIn : Ref → Prop} {child child' : Scope}

/-- What is known of the scopes for the body may be used for the steps of the caller. -/
theorem together_of_opened {α β : Type} {x : Elab α} {y : Elab β}
    {Q : α → β → Draft → Draft → Prop}
    (h : child.Renamed ρ w seenIn child' → Together (Draft.Renamed ρ v seen) x y Q) :
    Together (Draft.Opened ρ v w seen seenIn child child') x y Q :=
  fun d d' hd => h hd.body d d' hd.caller

theorem bindParams_together (inst : Instance) {params : List Port} {args : List Bits}
    (hlength : args.length = params.length)
    (hparams : ∀ q ∈ params, q.ref.Bindable ρ w ∧ ρ.name w.active q.name = q.name)
    (hchild : child.Renamed ρ w seenIn child') :
    Together (Draft.Renamed ρ v seen) (bindParams inst child params args)
      (bindParams inst child' params args)
      (Draft.Opened ρ v w seen fun r => seenIn r ∨ r ∈ params.map Port.ref) := by
  induction params generalizing child child' args seenIn with
  | nil =>
    unfold bindParams
    exact together_pure fun _ _ hd =>
      ⟨hd, hchild.congr fun _ _ => (or_iff_left List.not_mem_nil).symm⟩
  | cons q params ih =>
    obtain ⟨arg, args, rfl⟩ := List.exists_cons_of_length_eq_add_one hlength
    rw [List.forall_mem_cons] at hparams
    obtain ⟨⟨hplain, hkept⟩, hparams⟩ := hparams
    refine (aliasBits_lockstep _ _ _).bind fun _ => ?_
    have hne : resize arg (max 1 q.width) ≠ [] :=
      ne_nil_of_length (length_resize arg (max 1 q.width))
    refine (ih (Nat.succ.inj hlength) hparams (hchild.bindPort hplain hkept hne)).mono
      (fun _ _ hd => hd) fun _ _ _ _ h => h.congr (fun _ _ => Iff.rfl) fun r _ => ?_
    rw [List.map_cons, List.mem_cons, or_assoc]
    rfl

theorem bindFirst_together (inst : Instance) {first : Bits}
    (hfirst : m.outputs ≠ [] → first ≠ [])
    (hout : ∀ q ∈ m.outputs, q.ref.Bindable ρ w ∧ ρ.name w.active q.name = q.name)
    (hchild : child.Renamed ρ w seenIn child') :
    Together (Draft.Renamed ρ v seen) (bindFirst m inst child first)
      (bindFirst (m.rename (ρ.name w.active)) inst child' first)
      (Draft.Opened ρ v w seen fun r => seenIn r ∨ r ∈ (m.outputs.take 1).map Port.ref) := by
  unfold bindFirst
  rw [ModuleDecl.outputs_rename]
  cases houts : m.outputs with
  | nil =>
    exact together_pure fun _ _ hd =>
      ⟨hd, hchild.congr fun _ _ => (or_iff_left List.not_mem_nil).symm⟩
  | cons out rest =>
    have hmem : out ∈ m.outputs := houts ▸ List.mem_cons_self
    have hne : first ≠ [] := hfirst (houts ▸ List.cons_ne_nil out rest)
    refine (aliasBits_lockstep _ _ _).bind fun _ => together_pure fun _ _ hd => ⟨hd, ?_⟩
    obtain ⟨hplain, hkept⟩ := hout out hmem
    refine (hchild.bindPort hplain hkept hne).congr fun r _ => ?_
    rw [List.take_succ_cons, List.take_zero, List.map_singleton, List.mem_singleton]
    rfl

theorem bindOutputs_together {x : String} (hx : Ref.Bindable ρ v { name := x })
    (callerPrefix callerPrefix' : String) (inst : Instance) {outs : List Port}
    (houts : ∀ q ∈ outs, q.ref.Bindable ρ w ∧ ρ.name w.active q.name = q.name)
    (hchild : child.Renamed ρ w seenIn child') :
    Together (Draft.Renamed ρ v seen) (bindOutputs x callerPrefix inst child outs)
      (bindOutputs (ρ.name v.active x) callerPrefix' inst child' outs)
      (Draft.Opened ρ v w (fun r => seen r ∨ r ∈ outs.map (Port.memberRef x))
        fun r => seenIn r ∨ r ∈ outs.map Port.ref) := by
  induction outs generalizing child child' seen seenIn with
  | nil =>
    exact together_pure fun _ _ hd =>
      ⟨hd.congr fun _ _ => (or_iff_left List.not_mem_nil).symm,
        hchild.congr fun _ _ => (or_iff_left List.not_mem_nil).symm⟩
  | cons q outs ih =>
    rw [List.forall_mem_cons] at houts
    obtain ⟨⟨hplain, hkept⟩, houts⟩ := houts
    refine (newSignals_lockstep inst.id rfl).bind fun bits hbits => ?_
    have hne : bits ≠ [] := ne_nil_of_length (hbits.trans (length_bitNames _ _))
    have hmember : (q.memberRef x).Bindable ρ v := by
      refine ⟨⟨hx.plain.1, ?_⟩, hx.ne_new, hx.ne_old⟩
      rintro field ⟨⟩
      exact hplain.plain.1
    have hpublish : Lockstep ρ v seen (fun r => seen r ∨ r = q.memberRef x)
        (modifyScope (·.bind (memberName x q.name) bits))
        (modifyScope (·.bind (memberName (ρ.name v.active x) q.name) bits)) :=
      lockstep_modifyScope fun s s' hs => hs.bind hmember hne
    refine (aliasBits_lockstep _ _ bits).bind fun _ => hpublish.bind fun _ => ?_
    refine (ih houts (hchild.bindPort hplain hkept hne)).mono (fun _ _ hd => hd)
      fun _ _ _ _ h => h.congr (fun r _ => ?_) fun r _ => ?_
    · rw [List.map_cons, List.mem_cons, or_assoc]
    · rw [List.map_cons, List.mem_cons, or_assoc]
      rfl

end

/-! ## Instances -/

theorem addInstance_lockstep (moduleName : String) (parent : InstanceId) (namePrefix : String) :
    Lockstep ρ v seen seen (modifyNetlist (·.addInstance moduleName parent namePrefix))
      (modifyNetlist (·.addInstance moduleName parent namePrefix)) :=
  lockstep_modifyNetlist fun _ _ h => congrArg (·.addInstance moduleName parent namePrefix) h

/-- A target that an instance makes up is not the old name. -/
theorem instanceTarget_together (hm : m.Fits ρ w.active p) (id : InstanceId) (width : Nat)
    {target : Option String} (htarget : ∀ x ∈ target, Ref.Assignable ρ v seen { name := x }) :
    Together (Draft.Renamed ρ v seen) (instanceTarget m id width target)
      (instanceTarget (m.rename (ρ.name w.active)) id width (target.map (ρ.name v.active)))
      fun x x' d d' => (target = some x ∨ target = none ∧ x ≠ ρ.old) ∧
        Ref.Assignable ρ v seen { name := x } ∧ x' = ρ.name v.active x ∧ d.Renamed ρ v seen d' := by
  cases target with
  | some x => exact together_pure fun _ _ hd => ⟨.inl rfl, htarget x rfl, rfl, hd⟩
  | none =>
    obtain ⟨hplain, hold, hnew⟩ := hm.madeUp id
    refine (declare_kept_lockstep hplain hnew hold width).discard.bind fun _ =>
      together_pure fun _ _ hd => ⟨.inr ⟨rfl, hold⟩, ?_⟩
    exact ⟨⟨⟨⟨hplain, nofun⟩, hnew, fun h => absurd h hold⟩, fun _ => hold⟩,
      (Renaming.name_of_ne hold).symm, hd⟩

/-- The signals behind the first output, if there is one. -/
theorem firstOutput_lockstep {x : String} (hx : Ref.Assignable ρ v seen { name := x })
    (inst : Instance) :
    LockstepTo ρ v seen seen (fun first => m.outputs ≠ [] → first ≠ []) (firstOutput m x inst)
      (firstOutput (m.rename (ρ.name w.active)) (ρ.name v.active x) inst) := by
  unfold firstOutput
  rw [ModuleDecl.outputs_rename]
  cases houts : m.outputs with
  | nil => exact lockstepTo_pure fun h => absurd rfl h
  | cons out rest =>
    have hwidth : 0 < max 1 out.width := Nat.lt_of_lt_of_le Nat.one_pos (Nat.le_max_left 1 _)
    exact (firstOutputBits_lockstep hx hwidth inst).mono (fun _ _ hd => hd)
      fun _ _ _ _ h => ⟨fun _ => h.1, h.2⟩

section

variable {on : Bool} (hm : m.Fits ρ on p) (hclear : p.StartsClear ρ m → v.clear) {args : List Bits}
  (hlength : args.length = m.params.length) {target : Option String}
  (htarget : ∀ x ∈ target, Ref.Assignable ρ v seen { name := x })

include hm hclear hlength htarget

/-- An instance is opened on both sides with the same signals for its ports. -/
theorem openInstance_together :
    Together (Draft.Renamed ρ v seen) (openInstance m args target)
      (openInstance (m.rename (ρ.name on)) args (target.map (ρ.name v.active)))
      fun a b d d' => a.1 = b.1 ∧
        d.Opened ρ v (p.view ρ m on) (fun r => seen r ∨ ∃ x ∈ target, r ∈ m.memberRefs x)
          (p.SeenFirst ρ m) a.2 b.2 d' := by
  refine together_scope_bind fun s s' hs => together_get_bind fun e e' he => ?_
  dsimp only
  rw [← he.instances_eq, ← hs.owner, ← hs.namePrefix, ModuleDecl.name_rename,
    ModuleDecl.outputs_rename, ModuleDecl.params_rename]
  refine (addInstance_lockstep _ _ _).bind fun _ => ?_
  refine (instanceTarget_together (w := p.view ρ m on) hm _ _ htarget).bind fun x x' =>
    together_of_and fun hx => together_of_and fun hassign => together_of_and ?_
  rintro rfl
  refine (firstOutput_lockstep (w := p.view ρ m on) hassign _).bind fun first hfirst =>
    together_scope_bind fun t t' ht => ?_
  have hchild := ht.child (p.view ρ m on) hclear And.left m.name (s.namePrefix ++ m.name ++ "_" ++
    toString e.netlist.instances.size ++ "_") e.netlist.instances.size
  refine (bindParams_together _ hlength (fun q hq => hm.ports q (List.mem_append_left _ hq))
    hchild).bind fun child child' => together_of_opened fun hchild => ?_
  refine (bindFirst_together _ hfirst (fun q hq => hm.ports q (List.mem_append_right _ hq))
    hchild).bind fun child child' => together_of_opened fun hchild => ?_
  have hrest : ∀ q ∈ m.outputs.drop 1, q ∈ m.params ++ m.outputs := fun q hq =>
    List.mem_append_right _ (List.mem_of_mem_drop hq)
  refine (bindOutputs_together hassign.toBindable _ _ _ (fun q hq => hm.ports q (hrest q hq))
    hchild).bind fun child child' => together_pure ?_
  refine fun d d' hopened => ⟨rfl, hopened.congr (fun r hold => or_congr_right ?_) fun r _ => ?_⟩
  · rcases hx with rfl | ⟨rfl, hne⟩
    · simp only [Option.mem_some_iff, exists_eq_left', ModuleDecl.memberRefs]
    · -- The members belong to a name that the instance has made up.
      refine iff_of_false (fun hr => hne ?_) (by simp)
      obtain ⟨out, -, rfl⟩ := List.mem_map.1 hr
      exact hold
  · rw [Program.SeenFirst, ModuleDecl.isPortRef_iff, List.map_append, List.mem_append, or_assoc,
      or_assoc, ← List.mem_append, ← List.map_append, List.take_append_drop]

/-- A module and its renamed version are instantiated in lockstep, if their bodies are elaborated in
lockstep from the ports on. -/
theorem instantiate_lockstep {body body' : Elab Unit} {seenIn : Ref → Prop}
    (hbody : Lockstep ρ (p.view ρ m on) (p.SeenFirst ρ m) seenIn body body') :
    Lockstep ρ v seen (fun r => seen r ∨ ∃ x ∈ target, r ∈ m.memberRefs x)
      (instantiate m args target body)
      (instantiate (m.rename (ρ.name on)) args (target.map (ρ.name v.active)) body') := by
  refine (openInstance_together hm hclear hlength htarget).bind ?_
  rintro ⟨first, child⟩ ⟨first', child'⟩
  refine together_of_and ?_
  rintro rfl
  refine together_of_opened fun hchild => together_scope_bind fun caller caller' hcaller => ?_
  refine (together_enter hchild).bind fun _ _ => hbody.bind fun _ => ?_
  exact (together_enter hcaller).bind fun _ _ => lockstep_pure _

end

end NandHdl
