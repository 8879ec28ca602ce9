-- SUMMARY: Programs in which a module has another name for one of its targets (`Program.renameIn`), when that is a renaming (`Program.Renames`), and when the name is kept apart from others (`Program.Separates`).
import NandHdl.Proofs.Elaboration.Meaning
import Mathlib.Logic.Relation

/-!
# Renamed programs

A renaming changes one target of one module, with all its reads in that module. The members of the
target are read under the new name then. Ports keep their names, and so do the other modules, which
may use the old name for targets of their own.

A scope starts with the names of its caller. A module that asks for a name before it has bound it
gets what its caller has bound, so two things are told apart here: that a module reads only names
that it binds somewhere (`ModuleDecl.ReadsOwn`), and that it has bound a name when it asks for it
(`ModuleDecl.BindsFirst`). A target is bound before anything is wired, but its width is asked for
earlier, by the statements in their order. Where no caller has the name, the order does not matter
(`Program.Inherits`).
-/

namespace NandHdl

/-! ## Names and members -/

/-- A name, or a further output of the instance with that name. -/
structure Ref where
  name : String
  field : Option String := none
  deriving Repr, DecidableEq

namespace Ref

/-- What a scope knows the reference by. -/
def text : Ref → String
  | ⟨name, none⟩ => name
  | ⟨name, some field⟩ => memberName name field

/-- The parts of the reference are plain names. -/
def Plain (r : Ref) : Prop := PlainName r.name ∧ ∀ field, r.field = some field → PlainName field

theorem Plain.unindexed {r : Ref} (h : r.Plain) : Unindexed r.text := by
  obtain ⟨name, _ | field⟩ := r
  · exact h.1.1
  · exact h.1.unindexed_memberName (h.2 field rfl)

theorem text_inj {r r' : Ref} (h : r.Plain) (h' : r'.Plain) : r.text = r'.text ↔ r = r' := by
  obtain ⟨name, _ | field⟩ := r <;> obtain ⟨name', _ | field'⟩ := r'
  · simp [text]
  · simpa [text] using (memberName_ne h.1 name' field').symm
  · simpa [text] using memberName_ne h'.1 name field
  · simpa [text] using memberName_inj h.1 h'.1

end Ref

/-! ## What is read -/

mutual

/-- The names and members that an expression reads. -/
def Expr.refs : Expr → List Ref
  | .number _ => []
  | .ident name => [{ name }]
  | .index object _ => object.refs
  | .slice object _ _ => object.refs
  | .member (.ident name) field => [{ name, field := some field }]
  | .member _ _ => []
  | .concat parts => Expr.allRefs parts
  | .call _ args => Expr.allRefs args

/-- The names and members that several expressions read. -/
def Expr.allRefs : List Expr → List Ref
  | [] => []
  | e :: rest => e.refs ++ Expr.allRefs rest

end

mutual

/-- The modules that an expression calls. -/
def Expr.callees : Expr → List String
  | .number _ | .ident _ => []
  | .index object _ => object.callees
  | .slice object _ _ => object.callees
  | .member object _ => object.callees
  | .concat parts => Expr.allCallees parts
  | .call callee args =>
    if isPrimitive callee then Expr.allCallees args else callee :: Expr.allCallees args

/-- The modules that several expressions call. -/
def Expr.allCallees : List Expr → List String
  | [] => []
  | e :: rest => e.callees ++ Expr.allCallees rest

end

mutual

/-- The names and members whose widths make up the width of an expression. -/
def Expr.sizing : Expr → List Ref
  | .ident name => [{ name }]
  | .member (.ident name) field => [{ name, field := some field }]
  | .concat parts => Expr.allSizing parts
  | .number _ | .index _ _ | .slice _ _ _ | .member _ _ | .call _ _ => []

/-- The names and members whose widths make up the widths of several expressions. -/
def Expr.allSizing : List Expr → List Ref
  | [] => []
  | e :: rest => e.sizing ++ Expr.allSizing rest

end

mutual

theorem Expr.refs_of_sizing : ∀ (e : Expr) (r : Ref), r ∈ e.sizing → r ∈ e.refs
  | .ident _, _, h => h
  | .member (.ident _) _, _, h => h
  | .concat parts, r, h => Expr.allRefs_of_allSizing parts r h

theorem Expr.allRefs_of_allSizing :
    ∀ (es : List Expr) (r : Ref), r ∈ Expr.allSizing es → r ∈ Expr.allRefs es
  | e :: rest, r, h =>
    List.mem_append.2 <| (List.mem_append.1 h).imp (e.refs_of_sizing r)
      (Expr.allRefs_of_allSizing rest r)

end

/-- The name of a port. -/
def Port.ref (q : Port) : Ref := { name := q.name }

/-- A further output of the instance with the name `target`. -/
def Port.memberRef (target : String) (out : Port) : Ref := { name := target, field := some out.name }

/-- The members of an instance of the module: one for each output after the first. -/
def ModuleDecl.memberRefs (m : ModuleDecl) (target : String) : List Ref :=
  (m.outputs.drop 1).map (Port.memberRef target)

/-- The members that a call gives to its target. -/
def Program.membersOf (p : Program) (callee target : String) : List Ref :=
  if isPrimitive callee then []
  else
    match p.find? callee with
    | some m => m.memberRefs target
    | none => []

/-- What a statement binds: its target, and the members of the target if it calls a module. -/
def Statement.binds (program : Program) (s : Statement) : List Ref :=
  { name := s.target } ::
    match s.expr with
    | .call callee _ => program.membersOf callee s.target
    | _ => []

namespace ModuleDecl

/-- The module reads its ports, its targets and the members of its own call targets, and no more. -/
def ReadsOwn (program : Program) (m : ModuleDecl) : Prop :=
  ∀ s ∈ m.statements, ∀ r ∈ s.expr.refs,
    (r.field = none ∧ r.name ∈ m.portNames) ∨ ∃ t ∈ m.statements, r ∈ t.binds program

/-- Before a statement reads a member of `x`, or asks for the width of `x` if that is no port, a
statement above it binds what it reads. -/
def BindsFirst (program : Program) (x : String) (m : ModuleDecl) : Prop :=
  ∀ i, (h : i < m.statements.length) → ∀ r ∈ m.statements[i].expr.refs, r.name = x →
    r.field ≠ none ∨ (r ∈ m.statements[i].expr.sizing ∧ x ∉ m.portNames) →
      ∃ t ∈ m.statements.take i, r ∈ t.binds program

instance (program : Program) (m : ModuleDecl) : Decidable (m.ReadsOwn program) :=
  inferInstanceAs (Decidable (∀ s ∈ m.statements, ∀ r ∈ s.expr.refs,
    (r.field = none ∧ r.name ∈ m.portNames) ∨ ∃ t ∈ m.statements, r ∈ t.binds program))

instance (program : Program) (x : String) (m : ModuleDecl) : Decidable (m.BindsFirst program x) :=
  inferInstanceAs (Decidable (∀ i, (h : i < m.statements.length) →
    ∀ r ∈ m.statements[i].expr.refs, r.name = x →
      r.field ≠ none ∨ (r ∈ m.statements[i].expr.sizing ∧ x ∉ m.portNames) →
        ∃ t ∈ m.statements.take i, r ∈ t.binds program))

/-- The reference is the name of a port. -/
def IsPortRef (m : ModuleDecl) (r : Ref) : Prop := r.field = none ∧ r.name ∈ m.portNames

theorem isPortRef_iff {m : ModuleDecl} {r : Ref} :
    m.IsPortRef r ↔ r ∈ (m.params ++ m.outputs).map Port.ref := by
  obtain ⟨name, field⟩ := r
  rw [List.mem_map]
  constructor
  · rintro ⟨rfl, hname⟩
    obtain ⟨q, hq, rfl⟩ := List.mem_map.1 hname
    exact ⟨q, hq, rfl⟩
  · rintro ⟨q, hq, ⟨⟩⟩
    exact ⟨rfl, List.mem_map_of_mem hq⟩

/-- A statement has what it asks for from the statements above it. -/
theorem BindsFirst.above {program : Program} {x : String} {m : ModuleDecl}
    (h : m.BindsFirst program x) {above below : List Statement} {s : Statement}
    (hsplit : m.statements = above ++ s :: below) {r : Ref} (hr : r ∈ s.expr.refs)
    (hname : r.name = x) (hasks : r.field ≠ none ∨ (r ∈ s.expr.sizing ∧ x ∉ m.portNames)) :
    ∃ t ∈ above, r ∈ t.binds program := by
  have hlt : above.length < m.statements.length := by
    rw [hsplit, List.length_append, List.length_cons]
    omega
  have hget : m.statements[above.length] = s := by
    simp only [hsplit, List.getElem_append_right (Nat.le_refl _), Nat.sub_self,
      List.getElem_cons_zero]
  have htake : m.statements.take above.length = above := by
    rw [hsplit, List.take_left]
  have hfirst := h above.length hlt r
  rw [hget, htake] at hfirst
  exact hfirst hr hname hasks

end ModuleDecl

/-! ## Renaming -/

mutual

/-- The expression with its names changed. A field is no name. -/
def Expr.rename (f : String → String) : Expr → Expr
  | .number value => .number value
  | .ident name => .ident (f name)
  | .index object position => .index (object.rename f) position
  | .slice object first last => .slice (object.rename f) first last
  | .member object field => .member (object.rename f) field
  | .concat parts => .concat (Expr.renameAll f parts)
  | .call callee args => .call callee (Expr.renameAll f args)

/-- Several expressions with their names changed. -/
def Expr.renameAll (f : String → String) : List Expr → List Expr
  | [] => []
  | e :: rest => e.rename f :: Expr.renameAll f rest

end

mutual

theorem Expr.rename_id : ∀ e : Expr, e.rename id = e
  | .number _ | .ident _ => rfl
  | .index object _ => by rw [Expr.rename, object.rename_id]
  | .slice object _ _ => by rw [Expr.rename, object.rename_id]
  | .member object _ => by rw [Expr.rename, object.rename_id]
  | .concat parts => by rw [Expr.rename, Expr.renameAll_id parts]
  | .call _ args => by rw [Expr.rename, Expr.renameAll_id args]

theorem Expr.renameAll_id : ∀ es : List Expr, Expr.renameAll id es = es
  | [] => rfl
  | e :: rest => by rw [Expr.renameAll, e.rename_id, Expr.renameAll_id rest]

end

theorem Expr.length_renameAll (f : String → String) (es : List Expr) :
    (Expr.renameAll f es).length = es.length := by
  induction es with
  | nil => rfl
  | cons e rest ih => rw [Expr.renameAll, List.length_cons, ih, List.length_cons]

/-- The statement with its names changed. -/
def Statement.rename (f : String → String) (s : Statement) : Statement where
  target := f s.target
  expr := s.expr.rename f

@[simp] theorem Statement.target_rename (f : String → String) (s : Statement) :
    (s.rename f).target = f s.target := rfl

@[simp] theorem Statement.expr_rename (f : String → String) (s : Statement) :
    (s.rename f).expr = s.expr.rename f := rfl

/-- The module with the names in its statements changed. -/
def ModuleDecl.rename (f : String → String) (m : ModuleDecl) : ModuleDecl :=
  { m with statements := m.statements.map (Statement.rename f) }

@[simp] theorem ModuleDecl.name_rename (f : String → String) (m : ModuleDecl) :
    (m.rename f).name = m.name := rfl

@[simp] theorem ModuleDecl.params_rename (f : String → String) (m : ModuleDecl) :
    (m.rename f).params = m.params := rfl

@[simp] theorem ModuleDecl.outputs_rename (f : String → String) (m : ModuleDecl) :
    (m.rename f).outputs = m.outputs := rfl

theorem ModuleDecl.rename_id (m : ModuleDecl) : m.rename id = m := by
  have hstatement : Statement.rename id = id := by
    funext s
    rw [Statement.rename, Expr.rename_id]
    rfl
  rw [ModuleDecl.rename, hstatement, List.map_id]

/-- A name and a plain name to be used instead. -/
structure Renaming where
  old : String
  new : String
  new_plain : PlainName new

namespace Renaming

/-- The name that stands for `x`. The renaming is active in one module only. -/
def name (ρ : Renaming) (active : Bool) (x : String) : String :=
  if active = true ∧ x = ρ.old then ρ.new else x

/-- The reference that stands for `r`. -/
def ref (ρ : Renaming) (active : Bool) (r : Ref) : Ref := { r with name := ρ.name active r.name }

variable {ρ : Renaming} {active : Bool} {x y : String}

theorem name_false (ρ : Renaming) : ρ.name false = id := by
  funext x
  rw [name, if_neg (fun h => Bool.false_ne_true h.1)]
  rfl

theorem name_of_ne (h : x ≠ ρ.old) : ρ.name active x = x := by
  rw [name, if_neg fun hx => h hx.2]

theorem ref_of_ne {r : Ref} (h : r.name ≠ ρ.old) : ρ.ref active r = r := by
  rw [ref, name_of_ne h]

theorem ref_name_of_eq {r : Ref} (h : r.name = ρ.old) :
    (ρ.ref active r).name = ρ.old ∨ (ρ.ref active r).name = ρ.new := by
  rw [ref, name]
  split
  · exact .inr rfl
  · exact .inl h

theorem name_inj (hx : x ≠ ρ.new) (hy : y ≠ ρ.new) : ρ.name active x = ρ.name active y ↔ x = y := by
  unfold name
  split <;> split
  · next h h' => simp [h.2, h'.2]
  · next h h' => simpa [h.2, hy.symm] using fun heq => h' ⟨h.1, heq.symm⟩
  · next h h' => simpa [h'.2, hx] using fun heq => h ⟨h'.1, heq⟩
  · rfl

theorem ref_inj {r r' : Ref} (h : r.name ≠ ρ.new) (h' : r'.name ≠ ρ.new) :
    ρ.ref active r = ρ.ref active r' ↔ r = r' := by
  obtain ⟨name, field⟩ := r
  obtain ⟨name', field'⟩ := r'
  simp only [ref, Ref.mk.injEq, name_inj h h']

theorem plain_ref {r : Ref} (h : r.Plain) : (ρ.ref active r).Plain := by
  refine ⟨?_, h.2⟩
  rw [ref, name]
  split
  · exact ρ.new_plain
  · exact h.1

/-- The texts of different references stay different. -/
theorem text_ref_inj {r r' : Ref} (hr : r.Plain) (hr' : r'.Plain) (h : r.name ≠ ρ.new)
    (h' : r'.name ≠ ρ.new) : (ρ.ref active r).text = (ρ.ref active r').text ↔ r = r' := by
  rw [Ref.text_inj (plain_ref hr) (plain_ref hr'), ref_inj h h']

end Renaming

namespace Program

/-- The program with a name changed in the module at a position. -/
def renameIn (p : Program) (i : Nat) (ρ : Renaming) : Program :=
  { modules := p.modules.modify i (ModuleDecl.rename (ρ.name true)) }

/-- The name of a target that an instance makes for itself. -/
def MadeUp (p : Program) (x : String) : Prop :=
  ∃ m ∈ p.modules, ∃ k : Nat, x = m.name ++ "_" ++ toString k

/-- The body of `m` calls `m'`. -/
def Calls (p : Program) (m m' : ModuleDecl) : Prop :=
  ∃ s ∈ m.statements, ∃ callee ∈ s.expr.callees, p.find? callee = some m'

/-- The scope of an instance of `m` may start with the name: it is the name of a constant, or a module
above `m` has it. -/
def Inherits (p : Program) (m : ModuleDecl) (x : String) : Prop :=
  x = zeroName ∨ x = oneName ∨
    ∃ above, Relation.TransGen p.Calls above m ∧ x ∈ above.portNames ++ above.targets

/-- All modules read their own names only, and a target of the module at position `i` that is no
port gets a name that nothing in the program has. -/
structure Renames (p : Program) (i : Nat) (ρ : Renaming) : Prop where
  readsOwn : ∀ m ∈ p.modules, m.ReadsOwn p
  target : ∃ m, p.modules[i]? = some m ∧ ρ.old ∈ m.targets ∧ ρ.old ∉ m.portNames
  fresh : ∀ m ∈ p.modules, ρ.new ∉ m.portNames ++ m.targets
  not_madeUp : ¬p.MadeUp ρ.new

/-- The old name is mixed up neither with other names of its module nor with those of a caller: names
are plain, no instance makes the name up, and a module that may find the old or the new name in its
scope from the start binds the old one before it asks for it. -/
structure Separates (p : Program) (ρ : Renaming) : Prop where
  plain : ∀ m ∈ p.modules, PlainName m.name ∧ ∀ x ∈ m.portNames ++ m.targets, PlainName x
  not_madeUp : ¬p.MadeUp ρ.old
  bindsFirst : ∀ m ∈ p.modules, p.Inherits m ρ.old ∨ p.Inherits m ρ.new → m.BindsFirst p ρ.old

/-- The scope of an instance of `m` starts with neither of the names. -/
def StartsClear (p : Program) (ρ : Renaming) (m : ModuleDecl) : Prop :=
  ¬p.Inherits m ρ.old ∧ ¬p.Inherits m ρ.new

/-- The scope of an instance of `m` starts with neither of the names, and never gets one. -/
def StaysClear (p : Program) (ρ : Renaming) (m : ModuleDecl) : Prop :=
  p.StartsClear ρ m ∧ ρ.old ∉ m.portNames ++ m.targets

/-- What has been seen of the old name when the body of `m` starts: the ports, and everything if the
scope is clear. -/
def SeenFirst (p : Program) (ρ : Renaming) (m : ModuleDecl) (r : Ref) : Prop :=
  p.StartsClear ρ m ∨ m.IsPortRef r

/-- Only an instance that stays clear of the names has instances that start clear. -/
theorem StartsClear.staysClear {p : Program} {ρ : Renaming} {m m' : ModuleDecl}
    (h : p.StartsClear ρ m') (hcalls : p.Calls m m') : p.StaysClear ρ m := by
  have hclear : ∀ x, ¬p.Inherits m' x → ¬p.Inherits m x := by
    rintro x hx (hzero | hone | ⟨above, habove, hmem⟩)
    · exact hx (.inl hzero)
    · exact hx (.inr (.inl hone))
    · exact hx (.inr (.inr ⟨above, habove.tail hcalls, hmem⟩))
  exact ⟨⟨hclear _ h.1, hclear _ h.2⟩, fun hmem => h.1 (.inr (.inr ⟨m, .single hcalls, hmem⟩))⟩

/-- A name without an underscore is not made up. -/
theorem not_madeUp {p : Program} {x : String} (h : '_' ∉ x.toList) : ¬p.MadeUp x := by
  rintro ⟨m, -, k, rfl⟩
  refine h ?_
  simp

/-- A module is found under the same name, and it is the same or the renamed one. -/
theorem find?_renameIn (p : Program) (i : Nat) (ρ : Renaming) (name : String) :
    (p.find? name = none ∧ (p.renameIn i ρ).find? name = none) ∨
      ∃ m active, p.find? name = some m ∧
        (p.renameIn i ρ).find? name = some (m.rename (ρ.name active)) ∧
        (active = true → p.modules[i]? = some m) := by
  obtain ⟨modules⟩ := p
  unfold find? renameIn
  dsimp only
  induction modules generalizing i with
  | nil => exact .inl ⟨rfl, by simp⟩
  | cons m rest ih =>
    have hkept : m.rename (ρ.name false) = m := by rw [Renaming.name_false, m.rename_id]
    by_cases hname : (m.name == name) = true
    · cases i with
      | zero =>
        refine .inr ⟨m, true, List.find?_cons_of_pos hname, ?_, fun _ => rfl⟩
        exact List.find?_cons_of_pos hname
      | succ i =>
        refine .inr ⟨m, false, List.find?_cons_of_pos hname, ?_, nofun⟩
        rw [hkept]
        exact List.find?_cons_of_pos hname
    · have hskip : ∀ (m' : ModuleDecl) (others : List ModuleDecl), m'.name = m.name →
          (m' :: others).find? (·.name == name) = others.find? (·.name == name) := by
        intro m' others hm'
        exact List.find?_cons_of_neg (by rwa [hm'])
      rw [hskip m rest rfl]
      cases i with
      | zero =>
        rw [List.modify_zero_cons, hskip (m.rename (ρ.name true)) rest rfl]
        cases hfind : rest.find? (·.name == name) with
        | none => exact .inl ⟨rfl, rfl⟩
        | some found =>
          refine .inr ⟨found, false, rfl, ?_, nofun⟩
          rw [Renaming.name_false, found.rename_id]
      | succ i =>
        rw [List.modify_succ_cons, hskip m _ rfl]
        exact ih i

end Program

/-! ## What renaming relies on -/

/-- What is known of a module that is elaborated next to its renamed version. -/
structure ModuleDecl.Fits (ρ : Renaming) (active : Bool) (p : Program) (m : ModuleDecl) : Prop where
  madeUp : ∀ k : Nat, PlainName (m.name ++ "_" ++ toString k) ∧
    m.name ++ "_" ++ toString k ≠ ρ.old ∧ m.name ++ "_" ++ toString k ≠ ρ.new
  port : ∀ x ∈ m.portNames, PlainName x ∧ x ≠ ρ.new
  port_name : ∀ x ∈ m.portNames, ρ.name active x = x
  target : ∀ x ∈ m.targets, PlainName x ∧ x ≠ ρ.new
  ref : ∀ s ∈ m.statements, ∀ r ∈ s.expr.refs, r.Plain ∧ r.name ≠ ρ.new
  callee_port : ∀ callee ∈ p.modules, ∀ x ∈ callee.portNames, PlainName x
  readsOwn : m.ReadsOwn p
  bindsFirst : p.StartsClear ρ m ∨ m.BindsFirst p ρ.old

/-- The digits of a number make no name of a bit or of a member. -/
theorem PlainName.append_digits {x : String} (h : PlainName x) (k : Nat) :
    PlainName (x ++ "_" ++ toString k) :=
  ⟨not_mem_append_digits rfl (by decide) h.1 k, not_mem_append_digits rfl (by decide) h.2 k⟩

theorem ModuleDecl.output_mem_portNames {m : ModuleDecl} {out : Port} (h : out ∈ m.outputs) :
    out.name ∈ m.portNames :=
  List.mem_map_of_mem (List.mem_append_right _ h)

namespace Program

variable {p : Program} {i : Nat} {ρ : Renaming}

theorem membersOf_of_primitive {callee : String} (h : isPrimitive callee = true)
    (target : String) : p.membersOf callee target = [] :=
  if_pos h

theorem membersOf_of_find? {callee : String} (h : isPrimitive callee = false) {m : ModuleDecl}
    (hm : p.find? callee = some m) (target : String) :
    p.membersOf callee target = m.memberRefs target := by
  rw [membersOf, h, hm]
  rfl

theorem mem_membersOf {callee target : String} {r : Ref} (h : r ∈ p.membersOf callee target) :
    isPrimitive callee = false ∧ ∃ m, p.find? callee = some m ∧ ∃ out ∈ m.outputs.drop 1,
      r = out.memberRef target := by
  unfold membersOf at h
  split at h
  · exact nomatch h
  · next hcallee =>
    split at h
    · next m hm =>
      obtain ⟨out, hout, rfl⟩ := List.mem_map.1 h
      exact ⟨Bool.not_eq_true _ ▸ hcallee, m, hm, out, hout, rfl⟩
    · exact nomatch h

theorem mem_binds {s : Statement} {r : Ref} (h : r ∈ s.binds p) :
    r = { name := s.target } ∨
      ∃ callee args, s.expr = .call callee args ∧ r ∈ p.membersOf callee s.target := by
  refine (List.mem_cons.1 h).imp_right fun h => ?_
  split at h
  · next callee args heq => exact ⟨callee, args, heq, h⟩
  · exact nomatch h

theorem binds_name {s : Statement} {r : Ref} (h : r ∈ s.binds p) : r.name = s.target := by
  rcases mem_binds h with rfl | ⟨callee, -, -, h⟩
  · rfl
  · obtain ⟨-, m, -, out, -, rfl⟩ := mem_membersOf h
    rfl

/-- What a statement of a module binds is made of plain names. -/
theorem Separates.binds_plain (h : p.Separates ρ) {m : ModuleDecl} (hm : m ∈ p.modules)
    {s : Statement} (hs : s ∈ m.statements) {r : Ref} (hr : r ∈ s.binds p) : r.Plain := by
  have htarget : PlainName s.target :=
    (h.plain m hm).2 s.target (List.mem_append_right _ (List.mem_map_of_mem hs))
  rcases mem_binds hr with rfl | ⟨callee, -, -, hr⟩
  · exact ⟨htarget, nofun⟩
  · obtain ⟨-, called, hfind, out, hout, rfl⟩ := mem_membersOf hr
    refine ⟨htarget, ?_⟩
    rintro field ⟨⟩
    exact (h.plain called (find?_eq_some hfind).1).2 _ (List.mem_append_left _
      (ModuleDecl.output_mem_portNames (List.mem_of_mem_drop hout)))

theorem Renames.fits (h : p.Renames i ρ) (hsep : p.Separates ρ) {m : ModuleDecl} {active : Bool}
    (hm : m ∈ p.modules) (hactive : active = true → p.modules[i]? = some m) :
    m.Fits ρ active p := by
  have hplain := (hsep.plain m hm).2
  have hfresh : ∀ x ∈ m.portNames ++ m.targets, x ≠ ρ.new := fun x hx heq =>
    h.fresh m hm (heq ▸ hx)
  have hport : ∀ x ∈ m.portNames, PlainName x ∧ x ≠ ρ.new := fun x hx =>
    ⟨hplain x (List.mem_append_left _ hx), hfresh x (List.mem_append_left _ hx)⟩
  have htarget : ∀ x ∈ m.targets, PlainName x ∧ x ≠ ρ.new := fun x hx =>
    ⟨hplain x (List.mem_append_right _ hx), hfresh x (List.mem_append_right _ hx)⟩
  constructor
  case madeUp =>
    intro k
    exact ⟨(hsep.plain m hm).1.append_digits k, fun heq => hsep.not_madeUp ⟨m, hm, k, heq.symm⟩,
      fun heq => h.not_madeUp ⟨m, hm, k, heq.symm⟩⟩
  case port => exact hport
  case port_name =>
    intro x hx
    rw [Renaming.name, if_neg]
    rintro ⟨hon, rfl⟩
    obtain ⟨m', hm', -, hnot⟩ := h.target
    cases (hactive hon).symm.trans hm'
    exact hnot hx
  case target => exact htarget
  case ref =>
    intro s hs r hr
    rcases h.readsOwn m hm s hs r hr with ⟨hfield, hname⟩ | ⟨t, ht, hbinds⟩
    · refine ⟨⟨(hport _ hname).1, fun field heq => ?_⟩, (hport _ hname).2⟩
      rw [hfield] at heq
      exact nomatch heq
    · refine ⟨hsep.binds_plain hm ht hbinds, ?_⟩
      rw [binds_name hbinds]
      exact (htarget _ (List.mem_map_of_mem ht)).2
  case callee_port => exact fun callee hcallee x hx =>
    (hsep.plain callee hcallee).2 x (List.mem_append_left _ hx)
  case readsOwn => exact h.readsOwn m hm
  case bindsFirst =>
    rw [or_iff_not_imp_left, Program.StartsClear, ← not_or, not_not]
    exact hsep.bindsFirst m hm

end Program

end NandHdl
