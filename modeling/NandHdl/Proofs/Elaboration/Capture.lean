-- SUMMARY: Evaluating an expression rebinds no name in its scope (`Expr.Evaluates.keeps_names`), but those that an instance it makes takes for its own target and outputs.
import NandHdl.Proofs.Elaboration.ValueWidths

/-!
# Names that an evaluation takes

A call without a target makes one and binds it in the scope of its caller, with the further outputs
of the instance. The name is made up of the module's name and the number of the instance, and nobody
looks whether the body uses that name itself. All other names keep their bits: what the body of the
instance binds is forgotten when the scope of the caller is back.
-/

namespace NandHdl

/-! ## Scopes -/

section

variable {bound : String → Prop} {s s' : Scope} {x : String}

theorem Scope.BindsOnly.owner_eq (h : s.BindsOnly bound s') : s'.owner = s.owner := by
  induction h with
  | refl => rfl
  | tail _ hstep ih =>
    obtain ⟨name, bits, -, rfl⟩ := hstep
    exact (owner_bind _ _ _).trans ih

/-- A name that is apart from all that is bound keeps its bits. -/
theorem Scope.BindsOnly.bits?_eq_of_apart (h : s.BindsOnly bound s')
    (hx : ∀ y, bound y → NamesApart y x) : s'.bits? x = s.bits? x := by
  induction h with
  | refl => rfl
  | tail _ hstep ih =>
    obtain ⟨name, bits, hname, rfl⟩ := hstep
    exact (bits?_bind_of_apart (hx name hname) bits).trans ih

/-- Names that are bound to others change nothing but these and their bits. -/
theorem Scope.BindsOnly.bits?_eq (h : s.BindsOnly bound s') (hbound : ∀ y, bound y → Unindexed y)
    (hx : ∀ y, bound y → y ≠ x ∧ ∀ i, bitName y i ≠ x) : s'.bits? x = s.bits? x :=
  h.bits?_eq_of_apart fun y hy =>
    ⟨(hx y hy).1, (hx y hy).2, fun i heq => bitName_ne (hbound y hy) x i heq.symm⟩

end

/-! ## Names of instances -/

/-- The names of modules and outputs are no names of bits. -/
def Program.UnindexedNames (p : Program) : Prop :=
  ∀ m ∈ p.modules, Unindexed m.name ∧ ∀ out ∈ m.outputs, Unindexed out.name

instance (p : Program) : Decidable p.UnindexedNames :=
  inferInstanceAs (Decidable (∀ m ∈ p.modules, _))

theorem ModuleDecl.Binds.unindexed {m : ModuleDecl} {id : InstanceId} {y : String}
    (hname : Unindexed m.name) (houts : ∀ out ∈ m.outputs, Unindexed out.name) (h : m.Binds id y) :
    Unindexed y := by
  have htemporary : Unindexed (m.temporary id) := not_mem_append_digits rfl (by decide) hname id
  rcases h with rfl | ⟨out, hout, rfl⟩
  · exact htemporary
  · have hnot := not_or.2 ⟨htemporary, houts out (List.mem_of_mem_drop hout)⟩
    simpa [Unindexed, toList_memberName] using hnot

namespace Draft

variable {p : Program} {d d' d'' : Draft} {x : String}

/-- Between the drafts the body at hand has got an instance that takes the name: it is the target that
the instance would make, a further output of it, or a bit of one of these. -/
def Captures (p : Program) (d d' : Draft) (x : String) : Prop :=
  ∃ id inst m y, d.netlist.instances.size ≤ id ∧ d'.netlist.instances[id]? = some inst ∧
    inst.parent = some d.scope.owner ∧ p.find? inst.moduleName = some m ∧ m.Binds id y ∧
      (y = x ∨ ∃ i, bitName y i = x)

/-- No instance takes a name without an underscore. -/
theorem not_captures (h : '_' ∉ x.toList) : ¬ d.Captures p d' x := by
  rintro ⟨id, _, m, y, -, -, -, -, hbinds, hx⟩
  have hy : '_' ∈ y.toList := by
    rcases hbinds with rfl | ⟨out, -, rfl⟩
    all_goals simp [ModuleDecl.temporary, toList_memberName]
  rcases hx with rfl | ⟨i, rfl⟩
  · exact h hy
  · exact h (by simp [toList_bitName, hy])

/-- The netlist has grown, the same instance owns the scope, and the names in it that no instance has
taken have kept their bits. -/
structure KeepsNames (p : Program) (d d' : Draft) : Prop where
  grows : d.netlist.Grows d'.netlist
  owner_eq : d'.scope.owner = d.scope.owner
  bits?_eq : ∀ x, ¬ d.Captures p d' x → d'.scope.bits? x = d.scope.bits? x

theorem KeepsNames.trans (h : d.KeepsNames p d') (h' : d'.KeepsNames p d'') :
    d.KeepsNames p d'' where
  grows := Relation.ReflTransGen.trans h.grows h'.grows
  owner_eq := h'.owner_eq.trans h.owner_eq
  bits?_eq x hx := by
    refine (h'.bits?_eq x fun hlater => hx ?_).trans (h.bits?_eq x fun hearlier => hx ?_)
    · obtain ⟨id, inst, m, y, hle, hinst, hparent, hrest⟩ := hlater
      exact ⟨id, inst, m, y, Nat.le_trans h.grows.instances_le hle, hinst,
        h.owner_eq ▸ hparent, hrest⟩
    · obtain ⟨id, inst, m, y, hle, hinst, hrest⟩ := hearlier
      exact ⟨id, inst, m, y, hle, h'.grows.inst_kept hinst, hrest⟩

instance (p : Program) : IsPreorder Draft (KeepsNames p) where
  refl _ := ⟨.refl, rfl, fun _ _ => rfl⟩
  trans _ _ _ := KeepsNames.trans

theorem SameScope.keepsNames (h : d.SameScope d') (hgrows : d.netlist.Grows d'.netlist)
    (p : Program) : d.KeepsNames p d' :=
  ⟨hgrows, congrArg Scope.owner h, fun _ _ => by rw [h]⟩

end Draft

open Draft Elab

/-! ## Instances -/

section

variable {d d' : Draft} {m : ModuleDecl}

theorem instantiate_inst {args : List Bits} {target : Option String} {body : Elab Unit}
    (hbody : body.Grows) {first : Bits}
    (h : (instantiate m args target body).run d = .ok (first, d')) :
    d'.netlist.instances[d.netlist.instances.size]? = some (d.nextInstance m) := by
  obtain ⟨child, d₁, d₂, hopen, hrun, rfl⟩ := instantiate_eq_ok h
  refine (hbody _ _ _ hrun).inst_kept ?_
  rw [openInstance_instances hopen, Array.getElem?_push_size]

end

/-! ## Expressions -/

/-- Expressions keep the names that no instance takes. -/
theorem contextAt_keepsNames {program : Program} (hnames : program.UnindexedNames)
    (limit depth : Nat) : (contextAt program limit depth).Respects (KeepsNames program) := by
  have hgrows := contextAt_grows program limit depth
  refine ⟨fun a b d d' out h => ?_, fun a clk d d' q h => ?_, ?_⟩
  · exact SameScope.keepsNames (respectsParts_sameScope.emitNand a b d d' out h)
      (hgrows.nand a b d d' out h) program
  · exact SameScope.keepsNames (emitDff_sameScope a clk d d' q h) (hgrows.dff a clk d d' q h)
      program
  · intro expand hexpand callee m hfind args d d' first h
    have hgrown := hgrows.expand expand hexpand callee m hfind args d d' first h
    rw [contextAt_program] at hfind
    obtain ⟨k, rfl, rfl⟩ := contextAt_expand hexpand
    have hbinds := (instantiate_without_target h).2
    obtain ⟨hmem, rfl⟩ := Program.find?_eq_some hfind
    obtain ⟨hname, houts⟩ := hnames m hmem
    refine ⟨hgrown, Scope.BindsOnly.owner_eq hbinds, fun x hx => ?_⟩
    refine Scope.BindsOnly.bits?_eq hbinds (fun y hy => hy.unindexed hname houts) fun y hy => ?_
    have hinst := instantiate_inst (elaborateBody_grows program limit k m.statements) h
    have htaken : ∀ i, y ≠ x ∧ bitName y i ≠ x := fun i => not_or.1 fun heq => hx
      ⟨_, _, m, y, Nat.le_refl _, hinst, rfl, hfind, hy, heq.imp_right fun h => ⟨i, h⟩⟩
    exact ⟨(htaken 0).1, fun i => (htaken i).2⟩

/-- The expression is evaluated without a target of a statement: all its bits, one of them, or the
result of a call. -/
inductive Expr.Evaluates (cx : Context) (d d' : Draft) : Expr → Prop
  | bits {e : Expr} {value : Bits} (h : (e.bits cx).run d = .ok (value, d')) : Evaluates cx d d' e
  | bit {e : Expr} {k : Nat} {id : SignalId} (h : (e.bit cx k).run d = .ok (id, d')) :
      Evaluates cx d d' e
  | call {callee : String} {args : List Expr} {value : Bits}
    (h : (cx.call callee none args.length (Expr.lowBits cx args) (Expr.bitsAll cx args)).run d =
      .ok (value, d')) : Evaluates cx d d' (.call callee args)

/-- Evaluating an expression leaves each name of the scope the bits that it had, bound or not, unless
an instance that it makes for this body takes the name. -/
theorem Expr.Evaluates.keeps_names {program : Program} {limit depth : Nat} {d d' : Draft} {e : Expr}
    (hnames : program.UnindexedNames) (h : e.Evaluates (contextAt program limit depth) d d')
    {x : String} (hx : ¬ d.Captures program d' x) : d'.scope.bits? x = d.scope.bits? x := by
  have hcx := contextAt_keepsNames hnames limit depth
  cases h with
  | bits h => exact (Expr.bits_respects hcx _ _ _ _ h).bits?_eq x hx
  | bit h => exact (Expr.bit_respects hcx _ _ _ _ _ h).bits?_eq x hx
  | call h =>
    exact (hcx.call _ hcx.expand _ (Expr.lowBits_respects hcx _) (Expr.bitsAll_respects hcx _) _ _ _
      h).bits?_eq x hx

/-- Gives a copy of its input the name, and reads it next to the result of a call. -/
def copyBesideCall (name : String) : ModuleDecl where
  name := "top"
  params := [{ name := "x" }]
  outputs := [{ name := "o" }]
  statements := [
    { target := name, expr := .ident "x" },
    { target := "o", expr := .call "nand" [.call "m" [.ident "x"], .ident name] }]

/-- The module that is called is an inverter. -/
def besideInverter (name : String) : Program where
  modules := [
    { name := "m"
      params := [{ name := "a" }]
      outputs := [{ name := "o" }]
      statements := [{ target := "o", expr := .call "nand" [.ident "a", .ident "a"] }] },
    copyBesideCall name]

/-- The names of the body have their bits. -/
def declareCopyBesideCall (name : String) : Elab Unit := do
  openTop (copyBesideCall name)
  declareBody (contextAt (besideInverter name) 64 64) (copyBesideCall name).statements

theorem Expr.Evaluates.keeps_names_copy :
    ∃ d d', (declareCopyBesideCall "k").run (.empty "top") = .ok ((), d) ∧
      (Expr.call "m" [.ident "x"]).Evaluates (contextAt (besideInverter "k") 64 64) d d' ∧
      (besideInverter "k").UnindexedNames ∧ ¬ d.Captures (besideInverter "k") d' "k" ∧
      d.scope.bits? "k" = some [4] ∧ d'.scope.bits? "k" = d.scope.bits? "k" := by
  have hruns : (match (declareCopyBesideCall "k").run (.empty "top") with
      | .error _ => false
      | .ok (_, d) =>
        match ((Expr.call "m" [.ident "x"]).bit (contextAt (besideInverter "k") 64 64) 0).run d with
        | .error _ => false
        | .ok (_, _) => decide (d.scope.bits? "k" = some [4])) = true := by decide +kernel
  split at hruns
  · exact nomatch hruns
  · next d hdeclare =>
    split at hruns
    · exact nomatch hruns
    · next id d' hbit =>
      have hnames : (besideInverter "k").UnindexedNames := by decide
      have hkept : ¬ d.Captures (besideInverter "k") d' "k" := Draft.not_captures (by decide)
      exact ⟨d, d', hdeclare, .bit hbit, hnames, hkept, of_decide_eq_true hruns,
        (Expr.Evaluates.bit hbit).keeps_names hnames hkept⟩

/-- The copy loses its bits to the instance if it is called what the instance calls its target. -/
theorem copy_captured :
    ∃ d d', (declareCopyBesideCall "m_1").run (.empty "top") = .ok ((), d) ∧
      (Expr.call "m" [.ident "x"]).Evaluates (contextAt (besideInverter "m_1") 64 64) d d' ∧
      d.scope.bits? "m_1" = some [4] ∧ d'.scope.bits? "m_1" = some [5] := by
  have hruns : (match (declareCopyBesideCall "m_1").run (.empty "top") with
      | .error _ => false
      | .ok (_, d) =>
        match ((Expr.call "m" [.ident "x"]).bit (contextAt (besideInverter "m_1") 64 64) 0).run d with
        | .error _ => false
        | .ok (_, d') => decide (d.scope.bits? "m_1" = some [4] ∧ d'.scope.bits? "m_1" = some [5])) =
          true := by decide +kernel
  split at hruns
  · exact nomatch hruns
  · next d hdeclare =>
    split at hruns
    · exact nomatch hruns
    · next id d' hbit =>
      obtain ⟨hbefore, hafter⟩ := of_decide_eq_true hruns
      exact ⟨d, d', hdeclare, .bit hbit, hbefore, hafter⟩

end NandHdl
