-- SUMMARY: What an expression means (`Expr.HasBit`), that it means one thing only, and the programs whose names mean one thing only (`Program.Disciplined`).
import NandHdl.Proofs.Elaboration.Concatenation
import NandHdl.Proofs.Elaboration.Drafts
import Mathlib.Algebra.GroupWithZero.Nat

/-!
# The meaning of expressions

The meaning is given bit by bit and without reference to elaboration. A name has the bits that are
bound to it. A gate and a flip-flop look at bit 0 of their arguments. A flip-flop has the value that
its circuit stores, and the circuit stores it from the arguments. Past its last bit every value is 0.
-/

namespace NandHdl

/-! ## Bits of values -/

/-- Bit `k` of a value. -/
def bitAt (v : Valuation) (bits : Bits) (k : Nat) : Bool := (bits.map v).getD k false

theorem bitAt_eq {v : Valuation} (hv : v zeroId = false) (bits : Bits) (k : Nat) :
    bitAt v bits k = v (bits.getD k zeroId) := by
  unfold bitAt
  rw [List.getD_eq_getElem?_getD, List.getD_eq_getElem?_getD, List.getElem?_map]
  cases bits[k]? with
  | none => exact hv.symm
  | some id => rfl

/-- The output signals of the flip-flops that an expression calls, by the argument positions on the
way to the call. -/
abbrev DffOutputs := List Nat → SignalId

/-- The flip-flops of an argument. -/
def DffOutputs.arg (q : DffOutputs) (i : Nat) : DffOutputs := fun path => q (i :: path)

mutual

/-- How many bits an expression without calls to modules has. -/
def Expr.size (bound : String → Bits) : Expr → Nat
  | .number value => literalWidth value
  | .ident name => (bound name).length
  | .index _ _ => 1
  | .slice _ first last => last - first + 1
  | .member (.ident object) field => (bound (memberName object field)).length
  | .member _ _ => 1
  | .concat parts => (Expr.sizes bound parts).sum
  | .call _ _ => 1

/-- How many bits several expressions have. -/
def Expr.sizes (bound : String → Bits) : List Expr → List Nat
  | [] => []
  | e :: rest => e.size bound :: Expr.sizes bound rest

end

/-- The callee is a gate or a flip-flop. -/
def isPrimitive (callee : String) : Bool := callee == nandName || callee == dffName

theorem isPrimitive_iff {callee : String} :
    isPrimitive callee = true ↔ callee = nandName ∨ callee = dffName := by
  rw [isPrimitive, Bool.or_eq_true, beq_iff_eq, beq_iff_eq]

theorem isPrimitive_eq_false {callee : String} :
    isPrimitive callee = false ↔ callee ≠ nandName ∧ callee ≠ dffName := by
  rw [← Bool.not_eq_true, isPrimitive_iff, not_or]

mutual

/-- All names that are read are among the given ones, and all calls are gates or flip-flops. -/
def Expr.readsOnly (names : List String) : Expr → Bool
  | .number _ => true
  | .ident name => names.contains name
  | .index object _ => object.readsOnly names
  | .slice object _ _ => object.readsOnly names
  | .member (.ident object) field => names.contains (memberName object field)
  | .member _ _ => false
  | .concat parts => Expr.allReadOnly names parts
  | .call callee args => isPrimitive callee && Expr.allReadOnly names args

/-- The same for several expressions. -/
def Expr.allReadOnly (names : List String) : List Expr → Bool
  | [] => true
  | e :: rest => e.readsOnly names && Expr.allReadOnly names rest

end

/-- `e.HasBit n v bound q k b`: bit `k` of the expression is `b` if the signals of `n` have the values
`v` and names have the bits `bound`. -/
inductive Expr.HasBit (n : Netlist) (v : Valuation) (bound : String → Bits) :
    DffOutputs → Expr → Nat → Bool → Prop where
  | number {q value k} : HasBit n v bound q (.number value) k (value.toNat.testBit k)
  | ident {q name k} : HasBit n v bound q (.ident name) k (bitAt v (bound name) k)
  | member {q object field k} :
    HasBit n v bound q (.member (.ident object) field) k
      (bitAt v (bound (memberName object field)) k)
  | index {q object position b} (h : HasBit n v bound (q.arg 0) object position b) :
    HasBit n v bound q (.index object position) 0 b
  | index_past {q object position k} (hk : 0 < k) :
    HasBit n v bound q (.index object position) k false
  | slice {q object first last k b} (hrange : first ≤ last) (hk : k ≤ last - first)
    (h : HasBit n v bound (q.arg 0) object (first + k) b) :
    HasBit n v bound q (.slice object first last) k b
  | slice_past {q object first last k} (hrange : first ≤ last) (hk : last - first < k) :
    HasBit n v bound q (.slice object first last) k false
  /-- The parts to the right of a part are lower. -/
  | concat {q parts i e offset k b} (hpart : parts[i]? = some e) (hoffset : offset < e.size bound)
    (hk : k = (Expr.sizes bound (parts.drop (i + 1))).sum + offset)
    (h : HasBit n v bound (q.arg i) e offset b) : HasBit n v bound q (.concat parts) k b
  | concat_past {q parts k} (hk : (Expr.sizes bound parts).sum ≤ k) :
    HasBit n v bound q (.concat parts) k false
  | nand {q x y a b} (hx : HasBit n v bound (q.arg 0) x 0 a)
    (hy : HasBit n v bound (q.arg 1) y 0 b) :
    HasBit n v bound q (.call nandName [x, y]) 0 !(a && b)
  | nand_past {q args k} (hk : 0 < k) : HasBit n v bound q (.call nandName args) k false
  /-- The value is the stored one, and what is to be stored next comes from the arguments. -/
  | dff {q x clk f} (hf : f ∈ n.dffs) (hq : f.q = q [])
    (hx : HasBit n v bound (q.arg 0) x 0 (v f.d))
    (hclk : HasBit n v bound (q.arg 1) clk 0 (v f.clk)) :
    HasBit n v bound q (.call dffName [x, clk]) 0 (v f.q)
  | dff_past {q args k} (hk : 0 < k) : HasBit n v bound q (.call dffName args) k false

namespace Expr

variable {n n' : Netlist} {v : Valuation} {bound : String → Bits} {q : DffOutputs} {e : Expr}
  {k : Nat} {b b' : Bool}

theorem sizes_eq (bound : String → Bits) (parts : List Expr) :
    Expr.sizes bound parts = parts.map (Expr.size bound) := by
  induction parts with
  | nil => rfl
  | cons e rest ih => rw [Expr.sizes, ih, List.map_cons]

/-- Elaboration looks for a bit of a concatenation where its meaning is. -/
theorem locate_part {parts : List Expr} {i offset : Nat} (hpart : parts[i]? = some e)
    (hoffset : offset < e.size bound)
    (hk : k = (Expr.sizes bound (parts.drop (i + 1))).sum + offset) :
    locateConcatBit (Expr.sizes bound parts) k = some (i, offset) := by
  rw [sizes_eq] at hk ⊢
  refine locateConcatBit_eq_some.2 ⟨e.size bound, ?_, hoffset, ?_⟩
  · rw [List.getElem?_map, hpart, Option.map_some]
  · rw [hk, List.map_drop]

/-- The meaning stays when the netlist grows. -/
theorem HasBit.mono (h : e.HasBit n v bound q k b) (hn : n.Extends n') :
    e.HasBit n' v bound q k b := by
  induction h with
  | number => exact .number
  | ident => exact .ident
  | member => exact .member
  | index _ ih => exact .index ih
  | index_past hk => exact .index_past hk
  | slice hrange hk _ ih => exact .slice hrange hk ih
  | slice_past hrange hk => exact .slice_past hrange hk
  | concat hpart hoffset hk _ ih => exact .concat hpart hoffset hk ih
  | concat_past hk => exact .concat_past hk
  | nand _ _ ihx ihy => exact .nand ihx ihy
  | nand_past hk => exact .nand_past hk
  | dff hf hq _ _ ihx ihclk => exact .dff (hn.dff _ hf) hq ihx ihclk
  | dff_past hk => exact .dff_past hk

/-- A bit has one meaning. -/
theorem HasBit.unique (h : e.HasBit n v bound q k b) (h' : e.HasBit n v bound q k b') : b = b' := by
  induction h generalizing b' with
  | number =>
    cases h'
    rfl
  | ident =>
    cases h'
    rfl
  | member =>
    cases h'
    rfl
  | index _ ih =>
    cases h' with
    | index h' => exact ih h'
    | index_past hk => exact absurd hk (Nat.lt_irrefl 0)
  | index_past hk =>
    cases h' with
    | index h' => exact absurd hk (Nat.lt_irrefl 0)
    | index_past _ => rfl
  | slice hrange hk _ ih =>
    cases h' with
    | slice _ _ h' => exact ih h'
    | slice_past _ hk' => exact absurd hk (Nat.not_le.2 hk')
  | slice_past hrange hk =>
    cases h' with
    | slice _ hk' _ => exact absurd hk' (Nat.not_le.2 hk)
    | slice_past _ _ => rfl
  | concat hpart hoffset hk _ ih =>
    cases h' with
    | concat hpart' hoffset' hk' h' =>
      obtain ⟨rfl, rfl⟩ := Prod.mk.inj (Option.some.inj
        ((locate_part hpart hoffset hk).symm.trans (locate_part hpart' hoffset' hk')))
      cases hpart.symm.trans hpart'
      exact ih h'
    | concat_past hk' =>
      exact nomatch (locate_part hpart hoffset hk).symm.trans (locateConcatBit_eq_none.2 hk')
  | concat_past hk =>
    cases h' with
    | concat hpart' hoffset' hk' h' =>
      exact nomatch (locate_part hpart' hoffset' hk').symm.trans (locateConcatBit_eq_none.2 hk)
    | concat_past _ => rfl
  | nand _ _ ihx ihy =>
    generalize hcallee : nandName = callee at h'
    cases h' with
    | nand hx hy => rw [ihx hx, ihy hy]
    | nand_past hk => exact absurd hk (Nat.lt_irrefl 0)
    | dff _ _ _ _ => exact absurd hcallee (by decide)
    | dff_past hk => exact absurd hk (Nat.lt_irrefl 0)
  | nand_past hk =>
    generalize hcallee : nandName = callee at h'
    cases h' with
    | nand _ _ => exact absurd hk (Nat.lt_irrefl 0)
    | nand_past _ => rfl
    | dff _ _ _ _ => exact absurd hk (Nat.lt_irrefl 0)
    | dff_past _ => rfl
  | dff hf hq _ _ ihx ihclk =>
    generalize hcallee : dffName = callee at h'
    cases h' with
    | nand _ _ => exact absurd hcallee (by decide)
    | nand_past hk => exact absurd hk (Nat.lt_irrefl 0)
    | dff hf' hq' _ _ => rw [hq, hq']
    | dff_past hk => exact absurd hk (Nat.lt_irrefl 0)
  | dff_past hk =>
    generalize hcallee : dffName = callee at h'
    cases h' with
    | nand _ _ => exact absurd hk (Nat.lt_irrefl 0)
    | nand_past _ => rfl
    | dff _ _ _ _ => exact absurd hk (Nat.lt_irrefl 0)
    | dff_past _ => rfl

end Expr

/-! ## Disciplined programs -/

theorem Program.find?_eq_some {program : Program} {name : String} {m : ModuleDecl}
    (h : program.find? name = some m) : m ∈ program.modules ∧ m.name = name := by
  unfold Program.find? at h
  have hname := List.find?_some h
  exact ⟨List.mem_of_find?_eq_some h, eq_of_beq hname⟩

/-- The names of parameters and outputs. -/
def ModuleDecl.portNames (m : ModuleDecl) : List String := (m.params ++ m.outputs).map Port.name

/-- The names that are assigned. -/
def ModuleDecl.targets (m : ModuleDecl) : List String := m.statements.map Statement.target

namespace Statement

/-- The module that the statement calls, if it calls one. -/
def callee? (s : Statement) : Option String :=
  match s.expr with
  | .call callee _ => if isPrimitive callee then none else some callee
  | _ => none

/-- The members that a call makes: one for each output of the module after the first. -/
def members (program : Program) (s : Statement) : List String :=
  match s.callee?.bind program.find? with
  | some m => (m.outputs.drop 1).map fun out => memberName s.target out.name
  | none => []

/-- All names that are read are among the given ones. A module is called by the statement itself, and
nowhere within. -/
def readsOnly (names : List String) (s : Statement) : Bool :=
  match s.expr with
  | .call _ args => Expr.allReadOnly names args
  | e => e.readsOnly names

end Statement

/-- The names of a module are kept apart, and a statement reads ports, targets and the members of
calls before it. -/
structure ModuleDecl.Disciplined (program : Program) (m : ModuleDecl) : Prop where
  plain : ∀ x ∈ m.portNames ++ m.targets, PlainName x
  ports_nodup : m.portNames.Nodup
  targets_nodup : m.targets.Nodup
  reads : ∀ i, (h : i < m.statements.length) → m.statements[i].readsOnly
    (m.portNames ++ m.targets ++ (m.statements.take i).flatMap (Statement.members program))

/-- All modules are disciplined. -/
def Program.Disciplined (p : Program) : Prop := ∀ m ∈ p.modules, m.Disciplined p

instance (program : Program) (m : ModuleDecl) : Decidable (m.Disciplined program) :=
  decidable_of_iff ((∀ x ∈ m.portNames ++ m.targets, PlainName x) ∧ m.portNames.Nodup ∧
      m.targets.Nodup ∧ ∀ i, (h : i < m.statements.length) → m.statements[i].readsOnly
        (m.portNames ++ m.targets ++ (m.statements.take i).flatMap (Statement.members program)))
    ⟨fun ⟨plain, ports_nodup, targets_nodup, reads⟩ => ⟨plain, ports_nodup, targets_nodup, reads⟩,
      fun h => ⟨h.plain, h.ports_nodup, h.targets_nodup, h.reads⟩⟩

instance (p : Program) : Decidable p.Disciplined :=
  inferInstanceAs (Decidable (∀ m ∈ p.modules, m.Disciplined p))

end NandHdl
