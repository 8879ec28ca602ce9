-- SUMMARY: Elaborating an expression is safe and answers known signals (`Expr.safe`): one lemma for each form of expression.
import NandHdl.Proofs.Elaboration.Steps
import NandHdl.Proofs.Elaboration.Meaning

/-!
# Safe values

The signals that elaboration answers for an expression are known, so they may be handed on to a
target or to an instance. Whether an expression is elaborated as a whole or for one bit makes no
difference to that, and neither does a name that is bound to a signal of another scope.

Where an expression is taken apart by position, the position is always there: a bit of a
concatenation lies in one of its parts, and a gate gets as many signals as the call has arguments.
-/

namespace NandHdl

variable {cx : Context} {d : Draft}

/-- Expanding a module on known arguments is safe and answers known signals. -/
def Context.Safe (cx : Context) : Prop :=
  ∀ expand, cx.expand = some expand → ∀ {d : Draft} (m : ModuleDecl) {args : List Bits}
    (target : Option String), d.Accounted → (∀ bits ∈ args, ∀ id ∈ bits, d.Known id) →
      (expand m args target).Safe d fun bits d' => ∀ id ∈ bits, d'.Known id

namespace Expr

/-- Elaborating the expression, all of it or one bit, is safe and answers known signals. -/
structure Safe (cx : Context) (e : Expr) : Prop where
  bits : ∀ {d : Draft}, d.Accounted →
    (e.bits cx).Safe d fun bits d' => ∀ id ∈ bits, d'.Known id
  bit : ∀ {d : Draft}, d.Accounted → ∀ k, (e.bit cx k).Safe d fun id d' => d'.Known id

/-- The same for several expressions. Each of them gives one low bit and can be asked for others. -/
structure AllSafe (cx : Context) (es : List Expr) : Prop where
  bitsAll : ∀ {d : Draft}, d.Accounted →
    (Expr.bitsAll cx es).Safe d fun values d' => ∀ bits ∈ values, ∀ id ∈ bits, d'.Known id
  lowBits : ∀ {d : Draft}, d.Accounted →
    (Expr.lowBits cx es).Safe d fun ids d' => ids.length = es.length ∧ ∀ id ∈ ids, d'.Known id
  bitOfPart : ∀ {d : Draft}, d.Accounted → ∀ {i : Nat}, i < es.length → ∀ k,
    (Expr.bitOfPart cx es i k).Safe d fun id d' => d'.Known id

end Expr

/-! ## Literals and names -/

theorem Draft.Accounted.constantBit_known (hd : d.Accounted) (b : Bool) :
    d.Known (constantBit b) := by
  cases b with
  | false => exact hd.zero_known
  | true => exact hd.one_known

/-- Past the end of a value is the constant 0. -/
theorem Draft.Accounted.getD_known (hd : d.Accounted) {bits : Bits}
    (hbits : ∀ id ∈ bits, d.Known id) (k : Nat) : d.Known (bits.getD k zeroId) := by
  rw [List.getD_eq_getElem?_getD]
  cases h : bits[k]? with
  | none => exact hd.zero_known
  | some id => exact hbits id (List.mem_of_getElem? h)

theorem namedBit_safe (hd : d.Accounted) (name : String) (k : Nat) :
    (namedBit name k).Safe d fun id d' => d'.Known id := by
  apply Elab.meets_scope_bind
  by_cases hbus : d.scope.isBus name = true
  · rw [if_pos hbus]
    by_cases hk : k ≥ d.scope.widthOf name
    · rw [if_pos hk]
      exact Elab.safe_pure hd hd.zero_known
    · rw [if_neg hk]
      split
      · next id hid => exact Elab.safe_pure hd (hd.scope_known _ id hid)
      · exact Elab.meets_unknownSignal
  · rw [if_neg hbus]
    split
    · next id hid =>
      apply Elab.safe_pure hd
      split
      · exact hd.scope_known _ id hid
      · exact hd.zero_known
    · exact Elab.meets_unknownSignal

namespace Expr

theorem number_safe (value : UInt64) : Safe cx (.number value) where
  bits hd := by
    rw [Expr.bits]
    refine Elab.safe_pure hd fun id hid => ?_
    obtain ⟨k, -, rfl⟩ := List.mem_map.1 hid
    exact hd.constantBit_known _
  bit hd k := by
    rw [Expr.bit]
    exact Elab.safe_pure hd (hd.constantBit_known _)

theorem ident_safe (name : String) : Safe cx (.ident name) where
  bits hd := by
    rw [Expr.bits]
    exact Elab.bitsOf_safe hd name
  bit hd k := by
    rw [Expr.bit]
    exact namedBit_safe hd name k

theorem memberOf_safe (hd : d.Accounted) (object : Expr) (field : String) :
    (memberOf object field).Safe d fun _ _ => True := by
  unfold memberOf
  split
  · exact Elab.safe_pure hd trivial
  · exact Elab.meets_throw trivial

theorem member_safe (object : Expr) (field : String) : Safe cx (.member object field) where
  bits hd := by
    rw [Expr.bits]
    apply (memberOf_safe hd object field).bind
    rintro name d₁ h₁ -
    exact Elab.bitsOf_safe h₁.accounted name
  bit hd k := by
    rw [Expr.bit]
    apply (memberOf_safe hd object field).bind
    rintro name d₁ h₁ -
    exact namedBit_safe h₁.accounted name k

/-! ## Single bits and ranges -/

theorem index_safe {object : Expr} (hobject : Safe cx object) (position : Nat) :
    Safe cx (.index object position) where
  bits hd := by
    rw [Expr.bits]
    apply (hobject.bit hd position).bind
    intro id d₁ h₁ hid
    exact Elab.safe_pure h₁.accounted (List.forall_mem_singleton.2 hid)
  bit hd k := by
    rw [Expr.bit]
    split
    · exact hobject.bit hd position
    · exact Elab.safe_pure hd hd.zero_known

theorem slice_safe {object : Expr} (hobject : Safe cx object) (first last : Nat) :
    Safe cx (.slice object first last) where
  bits hd := by
    rw [Expr.bits]
    split
    · exact Elab.meets_throw_bind trivial
    · apply (hobject.bits hd).bind
      intro base d₁ h₁ hbase
      refine Elab.safe_pure h₁.accounted fun id hid => ?_
      obtain ⟨i, -, rfl⟩ := List.mem_map.1 hid
      exact h₁.accounted.getD_known hbase _
  bit hd k := by
    rw [Expr.bit]
    split
    · exact Elab.meets_throw_bind trivial
    · split
      · exact Elab.safe_pure hd hd.zero_known
      · exact hobject.bit hd _

/-! ## Concatenations -/

theorem length_widths (s : Scope) (program : Program) (pending : NameMap Nat) (es : List Expr) :
    (Expr.widths s program pending es).length = es.length := by
  induction es with
  | nil => rfl
  | cons e rest ih => rw [widths, List.length_cons, ih, List.length_cons]

theorem concat_safe {parts : List Expr} (hparts : AllSafe cx parts) : Safe cx (.concat parts) where
  bits hd := by
    rw [Expr.bits]
    apply (hparts.bitsAll hd).bind
    intro values d₁ h₁ hvalues
    refine Elab.safe_pure h₁.accounted fun id hid => ?_
    obtain ⟨bits, hbits, hid⟩ := List.mem_flatten.1 hid
    exact hvalues bits (List.mem_reverse.1 hbits) id hid
  bit {d} hd k := by
    rw [Expr.bit]
    apply Elab.meets_scope_bind
    dsimp only
    split
    · next i offset hlocate =>
      obtain ⟨w, hw, -, -⟩ := locateConcatBit_eq_some.1 hlocate
      have hi := (List.getElem?_eq_some_iff.1 hw).1
      rw [length_widths] at hi
      exact hparts.bitOfPart hd hi offset
    · exact Elab.safe_pure hd hd.zero_known

/-! ## Calls -/

/-- A gate or flip-flop. Since there are two arguments, there are two signals to work on. -/
theorem primitive_safe {args : List Expr} (hargs : AllSafe cx args) (hcount : args.length = 2)
    {emit : SignalId → SignalId → Elab SignalId} (hemit : ∀ {d : Draft}, d.Accounted →
      ∀ {a b}, d.Known a → d.Known b → (emit a b).Safe d fun id d' => d'.Known id)
    (hd : d.Accounted) :
    Elab.Safe (do
      match ← Expr.lowBits cx args with
      | [a, b] => return [← emit a b]
      | _ => throw (.fault .outOfRange)) d fun bits d' => ∀ id ∈ bits, d'.Known id := by
  apply (hargs.lowBits hd).bind
  rintro ids d₁ h₁ ⟨hlength, hids⟩
  obtain ⟨a, b, rfl⟩ := List.length_eq_two.1 (hlength.trans hcount)
  obtain ⟨ha, hb⟩ := List.forall_mem_cons.1 hids
  apply (hemit h₁.accounted ha (List.forall_mem_singleton.1 hb)).bind
  intro out d₂ h₂ hout
  exact Elab.safe_pure h₂.accounted (List.forall_mem_singleton.2 hout)

theorem call_safe (hcx : cx.Safe) {args : List Expr} (hargs : AllSafe cx args) (hd : d.Accounted)
    (callee : String) (target : Option String) :
    (cx.call callee target args.length (Expr.lowBits cx args) (Expr.bitsAll cx args)).Safe d
      fun bits d' => ∀ id ∈ bits, d'.Known id := by
  unfold Context.call
  split
  · split
    · exact Elab.meets_throw_bind trivial
    · next hcount => exact primitive_safe hargs (not_not.1 hcount) Elab.emitNand_safe hd
  · split
    · split
      · exact Elab.meets_throw_bind trivial
      · next hcount => exact primitive_safe hargs (not_not.1 hcount) Elab.emitDff_safe hd
    · split
      · exact Elab.meets_scope_bind (Elab.meets_throw trivial)
      · next m _ =>
        split
        · exact Elab.meets_throw trivial
        · next expand hexpand =>
          dsimp only
          split
          · exact Elab.meets_throw_bind trivial
          · apply (hargs.bitsAll hd).bind
            intro values d₁ h₁ hvalues
            exact hcx expand hexpand m target h₁.accounted hvalues

theorem call_value_safe (hcx : cx.Safe) {args : List Expr} (hargs : AllSafe cx args)
    (callee : String) : Safe cx (.call callee args) where
  bits hd := by
    rw [Expr.bits]
    exact call_safe hcx hargs hd callee none
  bit hd k := by
    rw [Expr.bit]
    apply (call_safe hcx hargs hd callee none).bind
    intro bits d₁ h₁ hbits
    exact Elab.safe_pure h₁.accounted (h₁.accounted.getD_known hbits k)

/-! ## Several expressions -/

theorem nil_safe : AllSafe cx [] where
  bitsAll hd := by
    rw [Expr.bitsAll]
    exact Elab.safe_pure hd fun _ h => absurd h List.not_mem_nil
  lowBits hd := by
    rw [Expr.lowBits]
    exact Elab.safe_pure hd ⟨rfl, fun _ h => absurd h List.not_mem_nil⟩
  bitOfPart _ _ hi := absurd hi (Nat.not_lt_zero _)

theorem cons_safe {e : Expr} {rest : List Expr} (he : Safe cx e) (hrest : AllSafe cx rest) :
    AllSafe cx (e :: rest) where
  bitsAll hd := by
    rw [Expr.bitsAll]
    apply (he.bits hd).bind
    intro bits d₁ h₁ hbits
    apply (hrest.bitsAll h₁.accounted).bind
    intro values d₂ h₂ hvalues
    apply Elab.safe_pure h₂.accounted
    exact List.forall_mem_cons.2 ⟨h₂.known_all hbits, hvalues⟩
  lowBits hd := by
    rw [Expr.lowBits]
    apply (he.bit hd 0).bind
    intro id d₁ h₁ hid
    apply (hrest.lowBits h₁.accounted).bind
    rintro ids d₂ h₂ ⟨hlength, hids⟩
    apply Elab.safe_pure h₂.accounted
    exact ⟨congrArg (· + 1) hlength, List.forall_mem_cons.2 ⟨h₂.known hid, hids⟩⟩
  bitOfPart hd i hi k := by
    cases i with
    | zero => exact he.bit hd k
    | succ i => exact hrest.bitOfPart hd (Nat.lt_of_succ_lt_succ hi) k

/-! ## All expressions -/

mutual

/-- Every expression is safe where modules are expanded safely. -/
theorem safe (hcx : cx.Safe) : ∀ e : Expr, Safe cx e
  | .number value => number_safe value
  | .ident name => ident_safe name
  | .index object position => index_safe (safe hcx object) position
  | .slice object first last => slice_safe (safe hcx object) first last
  | .member object field => member_safe object field
  | .concat parts => concat_safe (all_safe hcx parts)
  | .call callee args => call_value_safe hcx (all_safe hcx args) callee

theorem all_safe (hcx : cx.Safe) : ∀ es : List Expr, AllSafe cx es
  | [] => nil_safe
  | e :: rest => cons_safe (safe hcx e) (all_safe hcx rest)

end

end Expr

/-- The right-hand side of a statement. -/
theorem Statement.bits_safe (hcx : cx.Safe) (s : Statement) (hd : d.Accounted) :
    (s.bits cx).Safe d fun bits d' => ∀ id ∈ bits, d'.Known id := by
  unfold Statement.bits
  split
  · next callee args _ => exact Expr.call_safe hcx (Expr.all_safe hcx args) hd callee _
  · exact (Expr.safe hcx _).bits hd

end NandHdl
