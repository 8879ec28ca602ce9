-- SUMMARY: Which names elaboration binds in the scope of a body (`Program.Takes`), and what the scope keeps however many are bound (`Scope.Becomes`).
import NandHdl.Proofs.Elaboration.ValueWidths

/-!
# Bindings of a body

The scope of a body changes by bindings alone. The body binds its targets that are no ports, and an
instance binds its target, if it has to make one or to widen one, and the members of the target. No
name is ever taken out, and every bit of a bus has a signal. So a name that was found stays bound.
-/

namespace NandHdl

/-! ## Bound names -/

namespace Scope

/-- The name has a signal. -/
def Has (s : Scope) (x : String) : Prop := ∃ id, s.lookup? x = some id

/-- A bus has at least one bit, and it has signals for its name and for all of its bits. -/
def Full (s : Scope) : Prop :=
  ∀ x w, s.buses[x]? = some w → 0 < w ∧ s.Has x ∧ ∀ i < w, s.Has (bitName x i)

variable {s s' : Scope} {name x : String} {bits : Bits}

theorem Has.bind (h : s.Has x) (name : String) (bits : Bits) : (s.bind name bits).Has x := by
  obtain ⟨id, hid⟩ := h
  rw [Has, lookup?_bind, hid]
  cases entryOf name bits x with
  | none => exact ⟨id, rfl⟩
  | some id' => exact ⟨id', rfl⟩

/-- What a binding adds is the name and its bits. -/
theorem Has.of_bind (h : (s.bind name bits).Has x) :
    s.Has x ∨ x = name ∨ ∃ i, x = bitName name i := by
  by_contra hnot
  rw [not_or, not_or, not_exists] at hnot
  obtain ⟨hhas, hne, hbit⟩ := hnot
  obtain ⟨id, hid⟩ := h
  rw [lookup?_bind, entryOf_of_ne hne fun i heq => hbit i heq.symm, Option.none_or] at hid
  exact hhas ⟨id, hid⟩

theorem has_bind_self (hbits : bits ≠ []) : (s.bind name bits).Has name := by
  match bits with
  | [id] | id :: _ :: _ => exact ⟨id, by simp [bind, lookup?]⟩

theorem Full.bind (h : s.Full) (name : String) (bits : Bits) : (s.bind name bits).Full := by
  intro x w hbus
  rw [buses_bind] at hbus
  split at hbus
  · next heq =>
    subst heq
    split at hbus
    · next hlength =>
      cases hbus
      have hne : bits ≠ [] := List.ne_nil_of_length_pos (Nat.lt_of_succ_lt hlength)
      refine ⟨Nat.lt_of_succ_lt hlength, has_bind_self hne, fun i hi => ?_⟩
      have hwidth : (s.bind name bits).buses[name]? = some bits.length := by
        rw [buses_bind_self, if_pos hlength]
      have hlookup := ((bits?_eq_some_of_bus hwidth).1 (bits?_bind_self hne)).2 i hi
      exact ⟨bits[i], hlookup.trans (List.getElem?_eq_getElem hi)⟩
    · exact absurd hbus.symm (Option.some_ne_none _)
  · obtain ⟨hpos, hname, hbits⟩ := h x w hbus
    exact ⟨hpos, hname.bind name bits, fun i hi => (hbits i hi).bind name bits⟩

theorem Full.addPort (h : s.Full) (name : String) : (s.addPort name).Full := h

theorem Full.child (h : s.Full) (moduleName namePrefix : String) (owner : InstanceId) :
    (s.child moduleName namePrefix owner).Full := h

/-- A name with a signal has bits, and the other way round. -/
theorem Full.bound_iff (h : s.Full) : (∃ bits, s.bits? x = some bits) ↔ s.Has x := by
  cases hbus : s.buses[x]? with
  | none =>
    rw [bits?_of_scalar hbus, Has]
    simp [Option.map_eq_some_iff]
  | some w =>
    obtain ⟨-, hname, hbits⟩ := h x w hbus
    refine ⟨fun _ => hname, fun _ => ?_⟩
    choose! id hid using hbits
    refine ⟨(List.range w).map id, (bits?_eq_some_of_bus hbus).2 ⟨by simp, fun i hi => ?_⟩⟩
    rw [hid i hi]
    simp [hi]

/-- There are no values without bits. -/
theorem Full.bits_ne_nil (h : s.Full) (hbits : s.bits? x = some bits) : bits ≠ [] := by
  cases hbus : s.buses[x]? with
  | none =>
    rw [bits?_of_scalar hbus, Option.map_eq_some_iff] at hbits
    obtain ⟨id, -, rfl⟩ := hbits
    exact List.cons_ne_nil _ _
  | some w =>
    obtain ⟨rfl, -⟩ := (bits?_eq_some_of_bus hbus).1 hbits
    exact List.ne_nil_of_length_pos (h x _ hbus).1

end Scope

/-! ## Names that a body binds -/

namespace Program

/-- Some module of the program assigns the name. -/
def HasTarget (p : Program) (x : String) : Prop := ∃ m ∈ p.modules, x ∈ m.targets

theorem HasTarget.of_mem {p : Program} {m : ModuleDecl} {s : Statement} (hm : m ∈ p.modules)
    (hs : s ∈ m.statements) : p.HasTarget s.target :=
  ⟨m, hm, List.mem_map_of_mem hs⟩

theorem HasTarget.of_split {p : Program} {m : ModuleDecl} {s : Statement}
    {before after : List Statement} (hm : m ∈ p.modules)
    (hsplit : m.statements = before ++ s :: after) : p.HasTarget s.target :=
  .of_mem hm (hsplit ▸ List.mem_append_right _ List.mem_cons_self)

theorem HasTarget.of_some {p : Program} {x : String} (h : p.HasTarget x) :
    ∀ y, some x = some y → p.HasTarget y := by
  rintro y ⟨⟩
  exact h

/-- A body may bind the name in its scope: it is a target that is no port, the target that an instance
makes for itself, or a member of a target that is bound. -/
inductive Takes (p : Program) (s : Scope) : String → Prop
  | target {x : String} (hx : p.HasTarget x) (hport : s.isPort x = false) : Takes p s x
  | temporary {x : String} (hx : p.MadeUp x) : Takes p s x
  | member {t : String} {m : ModuleDecl} {out : Port} (ht : p.HasTarget t ∨ p.MadeUp t)
      (hbound : s.Has t) (hm : m ∈ p.modules) (hout : out ∈ m.outputs) :
      Takes p s (memberName t out.name)

/-- No name of the program is the name of a bit or of a further output. -/
def PlainNames (p : Program) : Prop :=
  ∀ m ∈ p.modules, PlainName m.name ∧ ∀ x ∈ m.portNames ++ m.targets, PlainName x

instance (p : Program) : Decidable p.PlainNames :=
  inferInstanceAs (Decidable (∀ m ∈ p.modules, _))

namespace PlainNames

variable {p : Program} {x : String}

theorem port (h : p.PlainNames) {m : ModuleDecl} (hm : m ∈ p.modules) {q : Port}
    (hq : q ∈ m.params ++ m.outputs) : PlainName q.name :=
  (h m hm).2 q.name (List.mem_append_left _ (List.mem_map_of_mem hq))

theorem target (h : p.PlainNames) (hx : p.HasTarget x ∨ p.MadeUp x) : PlainName x := by
  rcases hx with ⟨m, hm, hx⟩ | ⟨m, hm, k, rfl⟩
  · exact (h m hm).2 x (List.mem_append_right _ hx)
  · exact (h m hm).1.append_digits k

end PlainNames

end Program

/-- The second scope has further bindings that a body may make. -/
def Scope.Becomes (p : Program) : Scope → Scope → Prop :=
  Relation.ReflTransGen fun s s' => ∃ name bits, p.Takes s name ∧ s' = s.bind name bits

namespace Scope.Becomes

variable {p : Program} {s s' : Scope} {x : String}

theorem bind (h : p.Takes s x) (bits : Bits) : s.Becomes p (s.bind x bits) := .single ⟨x, bits, h, rfl⟩

theorem full (h : s.Becomes p s') (hs : s.Full) : s'.Full := by
  induction h with
  | refl => exact hs
  | tail _ hstep ih =>
    obtain ⟨name, bits, -, rfl⟩ := hstep
    exact ih.bind name bits

theorem has (h : s.Becomes p s') (hx : s.Has x) : s'.Has x := by
  induction h with
  | refl => exact hx
  | tail _ hstep ih =>
    obtain ⟨name, bits, -, rfl⟩ := hstep
    exact ih.bind name bits

theorem isPort_eq (h : s.Becomes p s') : s'.isPort = s.isPort := by
  induction h with
  | refl => rfl
  | tail _ hstep ih =>
    obtain ⟨name, bits, -, rfl⟩ := hstep
    exact (isPort_bind _ _ _).trans ih

end Scope.Becomes

/-- Names that may be bound, whatever has been bound before, are bindings that a body may make. -/
theorem Scope.BindsOnly.becomes {p : Program} {s s' : Scope} {bound : String → Prop}
    (h : s.BindsOnly bound s')
    (hbound : ∀ {e : Scope}, s.Becomes p e → ∀ name, bound name → p.Takes e name) :
    s.Becomes p s' := by
  induction h with
  | refl => exact .refl
  | tail _ hstep ih =>
    obtain ⟨name, bits, hname, rfl⟩ := hstep
    exact ih.tail ⟨name, bits, hbound ih name hname, rfl⟩

namespace Draft

/-- If every bit of the scope is bound, the scope changes by bindings that a body may make. -/
def TakesOnly (p : Program) (d d' : Draft) : Prop := d.scope.Full → d.scope.Becomes p d'.scope

instance (p : Program) : IsPreorder Draft (TakesOnly p) where
  refl _ _ := .refl
  trans _ _ _ h h' hfull := (h hfull).trans (h' ((h hfull).full hfull))

theorem SameScope.takesOnly {d d' : Draft} (h : d.SameScope d') (p : Program) : d.TakesOnly p d' := by
  intro _
  rw [show d'.scope = d.scope from h]
  exact .refl

end Draft

open Elab Draft

variable {p : Program} {m : ModuleDecl} {d d' : Draft}

/-! ## Declarations and values -/

theorem namedBit_has {name : String} {k : Nat} {id : SignalId} (hfull : d.scope.Full)
    (h : (namedBit name k).run d = .ok (id, d')) : d.scope.Has name := by
  obtain ⟨_, _, hscope, h⟩ := bind_eq_ok.1 h
  cases hscope
  split at h
  · next hbus =>
    obtain ⟨w, hw⟩ : ∃ w, d.scope.buses[name]? = some w := by
      rw [Scope.isBus, Std.TreeMap.contains_eq_isSome_getElem?] at hbus
      exact Option.isSome_iff_exists.1 hbus
    exact (hfull name w hw).2.1
  · split at h
    · next id hid => exact ⟨id, hid⟩
    · exact absurd h unknownSignal_ne_ok

theorem declare_takesOnly {name : String} {width : Nat} {bits : Bits} (hname : p.Takes d.scope name)
    (h : (declare name width).run d = .ok (bits, d')) : d.TakesOnly p d' := by
  obtain ⟨-, names, d₁, hnew, rfl⟩ := declare_eq_ok h
  have hsame : d₁.scope = d.scope := respectsParts_sameScope.newSignals _ _ _ _ _ hnew
  intro _
  rw [hsame]
  exact .bind hname bits

theorem declareTargets_takesOnly {statements : List Statement}
    (hstatements : ∀ s ∈ statements, p.HasTarget s.target) (widths : NameMap Nat)
    (declared : NameSet) :
    (declareTargets widths declared statements).Respects (TakesOnly p) := by
  induction statements generalizing declared with
  | nil => exact respects_pure _
  | cons s rest ih =>
    obtain ⟨hs, hrest⟩ := List.forall_mem_cons.1 hstatements
    intro d d' u h
    obtain ⟨_, _, hscope, h⟩ := bind_eq_ok.1 h
    cases hscope
    split at h
    · exact ih hrest declared d d' u h
    · next hnew =>
      rw [Bool.or_eq_true, not_or, Bool.not_eq_true] at hnew
      obtain ⟨_, d₁, hdeclare, h⟩ := bind_eq_ok.1 h
      obtain ⟨bits, hdeclare⟩ := discard_eq_ok hdeclare
      exact IsTrans.trans _ _ _ (declare_takesOnly (.target hs hnew.1) hdeclare) (ih hrest _ d₁ d' u h)

/-! ## Instances -/

theorem widenTarget_scope {target : String} {bits first : Bits} {owner : InstanceId}
    {names : List String}
    (h : (do
      let bits := bits ++ (← Elab.newSignals owner names)
      Elab.modifyScope (·.bind target bits)
      return bits : Elab Bits).run d = .ok (first, d')) :
    ∃ bits, d'.scope = d.scope.bind target bits := by
  obtain ⟨more, d₁, hmore, h⟩ := bind_eq_ok.1 h
  obtain ⟨_, d₂, hbind, h⟩ := bind_eq_ok.1 h
  obtain rfl := modifyScope_eq_ok.1 hbind
  obtain ⟨-, rfl⟩ := pure_eq_ok.1 h
  have hsame : d₁.scope = d.scope := respectsParts_sameScope.newSignals _ _ _ _ _ hmore
  exact ⟨bits ++ more, by rw [hsame]⟩

/-- The first output is that of a bound target. Only a target that is no port may be widened. -/
theorem firstOutputBits_scope {target : String} {width : Nat} {inst : Instance} {first : Bits}
    (h : (firstOutputBits target width inst).run d = .ok (first, d')) :
    (∃ bits, d.scope.bits? target = some bits) ∧ (d'.scope = d.scope ∨
      d.scope.isPort target = false ∧ ∃ bits, d'.scope = d.scope.bind target bits) := by
  unfold firstOutputBits at h
  obtain ⟨bits, d₁, hbits, hrest⟩ := bind_eq_ok.1 h
  obtain ⟨hbits, hd⟩ := bitsOf_eq_ok.1 hbits
  subst hd
  obtain ⟨_, _, hscope, hrest⟩ := bind_eq_ok.1 hrest
  cases hscope
  refine ⟨⟨bits, hbits⟩, ?_⟩
  split at hrest
  · obtain ⟨-, rfl⟩ := pure_eq_ok.1 hrest
    exact .inl rfl
  · dsimp only at hrest
    split at hrest
    · obtain ⟨more, d₁, hmore, hrest⟩ := bind_eq_ok.1 hrest
      obtain ⟨-, rfl⟩ := pure_eq_ok.1 hrest
      exact .inl (respectsParts_sameScope.newSignals _ _ _ _ _ hmore)
    · next hport =>
      refine .inr ⟨Bool.not_eq_true _ ▸ hport, ?_⟩
      split at hrest
      · obtain ⟨_, d₁, halias, hrest⟩ := bind_eq_ok.1 hrest
        obtain rfl := modifyNetlist_eq_ok.1 halias
        obtain ⟨bits', hbits'⟩ := widenTarget_scope hrest
        exact ⟨bits', hbits'⟩
      · exact widenTarget_scope hrest

theorem firstOutput_takesOnly {target : String} {inst : Instance} {first : Bits}
    (htarget : p.HasTarget target ∨ p.MadeUp target)
    (h : (firstOutput m target inst).run d = .ok (first, d')) :
    d.TakesOnly p d' ∧ (d.scope.Full → m.outputs ≠ [] → d.scope.Has target) := by
  unfold firstOutput at h
  split at h
  · next houts =>
    obtain ⟨-, rfl⟩ := pure_eq_ok.1 h
    exact ⟨refl _, fun _ hne => absurd houts hne⟩
  · obtain ⟨hbound, hscope⟩ := firstOutputBits_scope h
    refine ⟨?_, fun hfull _ => hfull.bound_iff.1 hbound⟩
    rcases hscope with hsame | ⟨hport, bits, hbind⟩
    · exact SameScope.takesOnly hsame p
    · intro _
      rw [hbind]
      refine .bind ?_ bits
      exact htarget.elim (fun hx => .target hx hport) .temporary

/-- The target of an instance is that of a statement, or the instance makes it up. -/
theorem instanceTarget_takesOnly (hm : m ∈ p.modules) {id : InstanceId} {width : Nat}
    {target : Option String} (htarget : ∀ x, target = some x → p.HasTarget x) {name : String}
    (h : (instanceTarget m id width target).run d = .ok (name, d')) :
    d.TakesOnly p d' ∧ (p.HasTarget name ∨ p.MadeUp name) := by
  cases target with
  | some x =>
    obtain ⟨rfl, rfl⟩ := pure_eq_ok.1 h
    exact ⟨refl _, .inl (htarget _ rfl)⟩
  | none =>
    obtain ⟨_, d₁, hdeclare, h⟩ := bind_eq_ok.1 h
    obtain ⟨bits, hdeclare⟩ := discard_eq_ok hdeclare
    obtain ⟨rfl, rfl⟩ := pure_eq_ok.1 h
    have hmade : p.MadeUp (m.name ++ "_" ++ toString id) := ⟨m, hm, id, rfl⟩
    exact ⟨declare_takesOnly (.temporary hmade) hdeclare, .inr hmade⟩

/-- The members of a bound target are bound one after the other. -/
theorem bindOutputs_takesOnly (hm : m ∈ p.modules) {target : String}
    (htarget : p.HasTarget target ∨ p.MadeUp target) {callerPrefix : String} {inst : Instance}
    {child child' : Scope} (hbound : m.outputs ≠ [] → d.scope.Has target)
    (h : (bindOutputs target callerPrefix inst child (m.outputs.drop 1)).run d = .ok (child', d')) :
    d.TakesOnly p d' := by
  have hbinds := bindOutputs_bindsOnly
    (fun name => ∃ out ∈ m.outputs.drop 1, name = memberName target out.name) callerPrefix inst child
    (fun out hout => ⟨out, hout, rfl⟩) _ _ _ h
  intro _
  refine Scope.BindsOnly.becomes hbinds fun hbefore name hname => ?_
  obtain ⟨out, hout, rfl⟩ := hname
  have hmem := List.mem_of_mem_drop hout
  exact .member htarget (hbefore.has (hbound (List.ne_nil_of_mem hmem))) hm hmem

/-- The caller gets bindings that a body may make. -/
theorem openInstance_takesOnly (hm : m ∈ p.modules) {args : List Bits} {target : Option String}
    (htarget : ∀ x, target = some x → p.HasTarget x) :
    (openInstance m args target).Respects (TakesOnly p) := by
  rintro d d' ⟨first, child⟩ h
  obtain ⟨name, d₁, d₂, d₃, d₄, _, _, hname, hfirst, hparams, hout, houts⟩ := openInstance_steps h
  obtain ⟨htaken₁, hplain⟩ := instanceTarget_takesOnly hm htarget hname
  obtain ⟨htaken₂, hbound⟩ := firstOutput_takesOnly hplain hfirst
  have hsame : d₄.scope = d₂.scope :=
    (respectsParts_sameScope.bindFirst _ _ _ _ _ _ _ hout).trans
      (respectsParts_sameScope.bindParams _ _ _ _ _ _ _ hparams)
  intro hfull
  have h₁ : d.scope.Becomes p d₁.scope := htaken₁ hfull
  have h₂ : d₁.scope.Becomes p d₂.scope := htaken₂ (h₁.full hfull)
  have htaken := bindOutputs_takesOnly hm hplain
    (fun hne => hsame ▸ h₂.has (hbound (h₁.full hfull) hne)) houts
  have h₃ : d₂.scope.Becomes p d'.scope := by
    rw [TakesOnly, hsame] at htaken
    exact htaken (h₂.full (h₁.full hfull))
  exact (h₁.trans h₂).trans h₃

/-! ## Scopes of instances -/

section

variable {P : Scope → Prop} {inst : Instance} {child child' : Scope}

theorem bindParams_child {params : List Port} {args : List Bits}
    (hP : ∀ q ∈ params, ∀ s bits, P s → P ((s.bind q.name bits).addPort q.name)) (hchild : P child)
    (h : (bindParams inst child params args).run d = .ok (child', d')) : P child' := by
  induction params generalizing d child args with
  | nil =>
    obtain ⟨rfl, rfl⟩ := pure_eq_ok.1 h
    exact hchild
  | cons q params ih =>
    obtain ⟨hq, hrest⟩ := List.forall_mem_cons.1 hP
    cases args with
    | nil =>
      obtain ⟨rfl, rfl⟩ := pure_eq_ok.1 h
      exact hchild
    | cons arg args =>
      obtain ⟨_, d₁, -, h⟩ := bind_eq_ok.1 h
      exact ih hrest (hq _ _ hchild) h

theorem bindFirst_child {first : Bits}
    (hP : ∀ q ∈ m.outputs, ∀ s bits, P s → P ((s.bind q.name bits).addPort q.name)) (hchild : P child)
    (h : (bindFirst m inst child first).run d = .ok (child', d')) : P child' := by
  unfold bindFirst at h
  split at h
  · obtain ⟨rfl, rfl⟩ := pure_eq_ok.1 h
    exact hchild
  · next out _ houts =>
    obtain ⟨_, d₁, -, h⟩ := bind_eq_ok.1 h
    obtain ⟨rfl, rfl⟩ := pure_eq_ok.1 h
    exact hP out (houts ▸ List.mem_cons_self) _ _ hchild

theorem bindOutputs_child {target callerPrefix : String} {outs : List Port}
    (hP : ∀ q ∈ outs, ∀ s bits, P s → P ((s.bind q.name bits).addPort q.name)) (hchild : P child)
    (h : (bindOutputs target callerPrefix inst child outs).run d = .ok (child', d')) : P child' := by
  induction outs generalizing d child with
  | nil =>
    obtain ⟨rfl, rfl⟩ := pure_eq_ok.1 h
    exact hchild
  | cons out rest ih =>
    obtain ⟨hout, hrest⟩ := List.forall_mem_cons.1 hP
    obtain ⟨bits, d₁, -, h⟩ := bind_eq_ok.1 h
    obtain ⟨_, d₂, -, h⟩ := bind_eq_ok.1 h
    obtain ⟨_, d₃, -, h⟩ := bind_eq_ok.1 h
    exact ih hrest (hout _ _ hchild) h

theorem isPort_bind_addPort (s : Scope) (x : String) (bits : Bits) (y : String) :
    ((s.bind x bits).addPort x).isPort y = true ↔ x = y ∨ s.isPort y = true := by
  have hport := congrFun (Scope.isPort_bind s x bits) y
  unfold Scope.isPort at hport
  simp only [Scope.addPort, Scope.isPort, Std.TreeSet.contains_insert, Bool.or_eq_true, beq_iff_eq,
    Std.LawfulEqCmp.compare_eq_iff_eq, hport]

/-- A port of an instance stays one. -/
theorem isPort_kept (y : String) (q : Port) (s : Scope) (bits : Bits) (hs : s.isPort y = true) :
    ((s.bind q.name bits).addPort q.name).isPort y = true :=
  (isPort_bind_addPort s q.name bits y).2 (.inr hs)

theorem bindParams_isPort {params : List Port} {args : List Bits} {q : Port}
    (hlength : params.length ≤ args.length) (hq : q ∈ params)
    (h : (bindParams inst child params args).run d = .ok (child', d')) :
    child'.isPort q.name = true := by
  induction params generalizing d child args with
  | nil => exact absurd hq List.not_mem_nil
  | cons p params ih =>
    cases args with
    | nil => exact absurd hlength (Nat.not_succ_le_zero _)
    | cons arg args =>
      obtain ⟨_, d₁, -, h⟩ := bind_eq_ok.1 h
      rcases List.mem_cons.1 hq with rfl | hq
      · exact bindParams_child (P := fun s => s.isPort q.name = true)
          (fun p _ => isPort_kept q.name p) ((isPort_bind_addPort _ _ _ _).2 (.inl rfl)) h
      · exact ih (Nat.le_of_succ_le_succ hlength) hq h

end

/-- The scope of an instance starts with the names of the caller, as they are when the target is there,
and gets its ports. So it has what each binding of a port keeps. -/
theorem openInstance_child (hm : m ∈ p.modules) {args : List Bits} {target : Option String}
    (htarget : ∀ x, target = some x → p.HasTarget x) {first : Bits} {child : Scope}
    (h : (openInstance m args target).run d = .ok ((first, child), d')) :
    (m.params.length ≤ args.length → ∀ q ∈ m.params, child.isPort q.name = true) ∧
      ∃ s, (d.scope.Full → d.scope.Becomes p s) ∧ ∀ P : Scope → Prop,
        (∀ q ∈ m.params ++ m.outputs, ∀ s bits, P s → P ((s.bind q.name bits).addPort q.name)) →
          P (s.child m.name (d.nextInstance m).namePrefix d.netlist.instances.size) → P child := by
  obtain ⟨name, d₁, d₂, d₃, d₄, _, _, hname, hfirst, hparams, hout, houts⟩ := openInstance_steps h
  obtain ⟨htaken₁, hplain⟩ := instanceTarget_takesOnly hm htarget hname
  obtain ⟨htaken₂, -⟩ := firstOutput_takesOnly hplain hfirst
  refine ⟨fun hlength q hq => ?_, d₂.scope, fun hfull => ?_, fun P hP hstart => ?_⟩
  · have hport := bindParams_isPort hlength hq hparams
    have hfirst := bindFirst_child (P := fun s => s.isPort q.name = true)
      (fun p _ => isPort_kept q.name p) hport hout
    exact bindOutputs_child (fun p _ => isPort_kept q.name p) hfirst houts
  · have h₁ : d.scope.Becomes p d₁.scope := htaken₁ hfull
    exact h₁.trans (htaken₂ (h₁.full hfull))
  · have hPparams := fun q hq => hP q (List.mem_append_left _ hq)
    have hPouts := fun q hq => hP q (List.mem_append_right _ hq)
    have hports := bindFirst_child hPouts (bindParams_child hPparams hstart hparams) hout
    exact bindOutputs_child (fun q hq => hPouts q (List.mem_of_mem_drop hq)) hports houts

/-! ## Bodies -/

variable {program : Program} {limit depth : Nat}

theorem instantiate_takesOnly (hm : m ∈ p.modules) {args : List Bits} {target : Option String}
    (htarget : ∀ x, target = some x → p.HasTarget x) (body : Elab Unit) :
    (instantiate m args target body).Respects (TakesOnly p) := by
  intro d d' first h
  obtain ⟨child, d₁, d₂, hopen, -, rfl⟩ := instantiate_eq_ok h
  have htaken := openInstance_takesOnly hm htarget _ _ _ hopen
  exact htaken

/-- An instance for the target of a statement changes the scope in no other way. -/
theorem contextAt_takesOnly_for {target : Option String}
    (htarget : ∀ x, target = some x → program.HasTarget x) :
    (contextAt program limit depth).RespectsFor target (TakesOnly program) := by
  intro expand hexpand callee m hfind args
  rw [contextAt_program] at hfind
  obtain ⟨k, rfl, rfl⟩ := contextAt_expand hexpand
  exact instantiate_takesOnly (List.mem_of_find?_eq_some hfind) htarget _

/-- Neither does any expression, whatever it calls. -/
theorem contextAt_takesOnly (program : Program) (limit depth : Nat) :
    (contextAt program limit depth).Respects (TakesOnly program) where
  nand a b := (respectsParts_sameScope.emitNand a b).mono fun _ _ h => SameScope.takesOnly h program
  dff a clk := (emitDff_sameScope a clk).mono fun _ _ h => SameScope.takesOnly h program
  expand := contextAt_takesOnly_for fun x hx => absurd hx.symm (Option.some_ne_none x)

theorem elaborateStatement_takesOnly {s : Statement} (hs : program.HasTarget s.target) :
    (elaborateStatement (contextAt program limit depth) s).Respects (TakesOnly program) := by
  have hbits := s.bits_respects (contextAt_takesOnly program limit depth)
    (contextAt_takesOnly_for hs.of_some)
  exact hbits.bind fun src => (bitsOf_respects s.target).bind fun dst =>
    (respectsParts_sameScope.wire src dst).mono fun _ _ h => SameScope.takesOnly h program

theorem elaborateStatements_takesOnly {statements : List Statement}
    (hstatements : ∀ s ∈ statements, program.HasTarget s.target) :
    (elaborateStatements (contextAt program limit depth) statements).Respects
      (TakesOnly program) := by
  induction statements with
  | nil => exact respects_pure _
  | cons s rest ih =>
    obtain ⟨hs, hrest⟩ := List.forall_mem_cons.1 hstatements
    exact (elaborateStatement_takesOnly hs).bind fun _ => ih hrest

theorem declareBody_takesOnly (cx : Context) {statements : List Statement}
    (hstatements : ∀ s ∈ statements, program.HasTarget s.target) :
    (declareBody cx statements).Respects (TakesOnly program) :=
  respects_scope.bind fun _ => declareTargets_takesOnly hstatements _ _

end NandHdl
