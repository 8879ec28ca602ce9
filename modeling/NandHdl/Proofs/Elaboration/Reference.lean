-- SUMMARY: Elaboration of an expression without calls reads the scope and changes nothing: all bits and each bit alone are those of a reference value (`Expr.bits_eq_reference`).
import NandHdl.Proofs.Elaboration.Values
import NandHdl.Proofs.Elaboration.SafeValues

/-!
# Reference values

An expression without calls stands for signals that the scope has already. Its reference value lists
them lowest first, one place for each bit of its width, and leaves a place open where the scope
knows no signal: a single bit can be taken out of an expression of which other bits are not bound.

All bits of an expression are answered by building lists, and one bit by going down to the place
where it comes from, with the widths of parts found without elaboration. Both ways lead to the
reference value.
-/

namespace NandHdl

/-- The signals that a name stands for, as far as they are bound. -/
def Scope.boundBits (s : Scope) (name : String) : List (Option SignalId) :=
  if s.isBus name then (List.range (s.widthOf name)).map fun i => s.lookup? (bitName name i)
  else [s.lookup? name]

mutual

/-- The expression has no calls. -/
def Expr.callFree : Expr → Bool
  | .number _ | .ident _ => true
  | .index object _ => object.callFree
  | .slice object _ _ => object.callFree
  | .member object _ => object.callFree
  | .concat parts => Expr.allCallFree parts
  | .call _ _ => false

/-- The expressions have no calls. -/
def Expr.allCallFree : List Expr → Bool
  | [] => true
  | e :: rest => e.callFree && Expr.allCallFree rest

end

mutual

/-- The signals that an expression without calls stands for, lowest bit first. A bit past the end
of an object is 0. -/
def Expr.reference (s : Scope) : Expr → List (Option SignalId)
  | .number value => (literalBits value).map some
  | .ident name => s.boundBits name
  | .index object position => [(object.reference s).getD position (some zeroId)]
  | .slice object first last =>
    if last < first then [none]
    else (List.range (last - first + 1)).map fun i =>
      (object.reference s).getD (first + i) (some zeroId)
  | .member (.ident object) field => s.boundBits (memberName object field)
  | .member _ _ => [none]
  | .concat parts => (Expr.references s parts).reverse.flatten
  | .call _ _ => [none]

/-- The signals that several expressions stand for. -/
def Expr.references (s : Scope) : List Expr → List (List (Option SignalId))
  | [] => []
  | e :: rest => e.reference s :: Expr.references s rest

end

/-! ## Names -/

namespace Scope

variable {s : Scope} {name : String} {bits : Bits}

theorem isBus_eq_true {w : Nat} (h : s.buses[name]? = some w) : s.isBus name = true := by
  rw [isBus, Std.TreeMap.contains_eq_isSome_getElem?, h, Option.isSome_some]

theorem isBus_eq_false (h : s.buses[name]? = none) : s.isBus name = false := by
  rw [isBus, Std.TreeMap.contains_eq_isSome_getElem?, h, Option.isSome_none]

theorem widthOf_of_not_isBus (h : s.isBus name = false) : s.widthOf name = 1 :=
  Std.TreeMap.getD_eq_fallback_of_contains_eq_false h

theorem length_boundBits (s : Scope) (name : String) :
    (s.boundBits name).length = s.widthOf name := by
  rw [boundBits]
  split
  · simp
  · next h => rw [widthOf_of_not_isBus (Bool.not_eq_true _ ▸ h), List.length_singleton]

/-- A name has bits if all that it stands for is bound. -/
theorem bits?_eq_some_iff : s.bits? name = some bits ↔ s.boundBits name = bits.map some := by
  rw [boundBits]
  cases hbus : s.buses[name]? with
  | none =>
    rw [isBus_eq_false hbus, bits?_of_scalar hbus, if_neg Bool.false_ne_true]
    have hinj : Function.Injective (List.map (some : SignalId → Option SignalId)) :=
      List.map_injective_iff.2 fun _ _ => Option.some.inj
    cases s.lookup? name with
    | none => cases bits <;> simp
    | some id => rw [Option.map_some, Option.some_inj, ← hinj.eq_iff, List.map_singleton]
  | some w =>
    have hwidth : s.widthOf name = w := by
      rw [widthOf, Std.TreeMap.getD_eq_getD_getElem?, hbus, Option.getD_some]
    rw [isBus_eq_true hbus, bits?_of_bus hbus, mapM_eq_some, hwidth, if_pos rfl]

/-- A name stands for what it was bound to last. -/
theorem boundBits_bind_self (s : Scope) (name : String) (hbits : bits ≠ []) :
    (s.bind name bits).boundBits name = bits.map some :=
  bits?_eq_some_iff.1 (bits?_bind_self hbits)

/-- A binding changes nothing that another name stands for. -/
theorem boundBits_bind_of_ne {x : String} (hx : Unindexed x) (hname : Unindexed name)
    (hne : name ≠ x) (bits : Bits) : (s.bind name bits).boundBits x = s.boundBits x := by
  obtain ⟨hbus, hsignal, hbits⟩ := bind_of_ne (s := s) hx hname hne bits
  simp only [boundBits, isBus, widthOf, lookup?, Std.TreeMap.contains_eq_isSome_getElem?,
    Std.TreeMap.getD_eq_getD_getElem?, hbus, hsignal, hbits]

theorem boundBits_top (moduleName name : String) :
    (Scope.top moduleName).boundBits name = [none] := by
  simp [boundBits, isBus, lookup?, top]

theorem boundBits_child (s : Scope) (moduleName namePrefix : String) (owner : InstanceId)
    (name : String) : (s.child moduleName namePrefix owner).boundBits name = s.boundBits name :=
  rfl

end Scope

theorem knownWidth_empty (s : Scope) (name : String) : knownWidth s {} name = s.widthOf name := by
  simp [knownWidth]

theorem namedBit_run {d d' : Draft} {name : String} {k : Nat} {id : SignalId}
    (h : (namedBit name k).run d = .ok (id, d')) :
    (d.scope.boundBits name).getD k (some zeroId) = some id ∧ d' = d := by
  unfold namedBit at h
  obtain ⟨_, _, hscope, h⟩ := Elab.bind_eq_ok.1 h
  cases hscope
  rw [Scope.boundBits]
  by_cases hbus : d.scope.isBus name = true
  · simp only [if_pos hbus] at h ⊢
    by_cases hk : k < d.scope.widthOf name
    · rw [if_neg (Nat.not_le.2 hk)] at h
      cases hlookup : d.scope.lookup? (bitName name k) with
      | none =>
        rw [hlookup] at h
        exact absurd h Elab.unknownSignal_ne_ok
      | some found =>
        rw [hlookup] at h
        obtain ⟨rfl, rfl⟩ := Elab.pure_eq_ok.1 h
        simp [hk, hlookup]
    · rw [if_pos (Nat.not_lt.1 hk)] at h
      obtain ⟨rfl, rfl⟩ := Elab.pure_eq_ok.1 h
      simp [hk]
  · simp only [if_neg hbus] at h ⊢
    cases hlookup : d.scope.lookup? name with
    | none =>
      rw [hlookup] at h
      exact absurd h Elab.unknownSignal_ne_ok
    | some found =>
      rw [hlookup] at h
      obtain ⟨rfl, rfl⟩ := Elab.pure_eq_ok.1 h
      cases k <;> simp

namespace Expr

section

variable (cx : Context)

/-- A bit that is answered is that of the reference value, and nothing has changed. -/
def BitRefers (e : Expr) : Prop :=
  ∀ {d d' : Draft} {k : Nat} {id : SignalId}, (e.bit cx k).run d = .ok (id, d') →
    (e.reference d.scope).getD k (some zeroId) = some id ∧ d' = d

/-- If all bits are answered, they are the reference value, and each bit alone is answered too. -/
def BitsRefer (e : Expr) : Prop :=
  ∀ {d d' : Draft} {bits : Bits}, (e.bits cx).run d = .ok (bits, d') →
    e.reference d.scope = bits.map some ∧ d' = d ∧
      ∀ k, (e.bit cx k).run d = .ok (bits.getD k zeroId, d)

/-- The same for one bit of one of several expressions. -/
def PartRefers (es : List Expr) : Prop :=
  ∀ {d d' : Draft} {i k : Nat} {id : SignalId}, (Expr.bitOfPart cx es i k).run d = .ok (id, d') →
    ((Expr.references d.scope es).getD i []).getD k (some zeroId) = some id ∧ d' = d

/-- The same for the bits of several expressions. -/
def AllBitsRefer (es : List Expr) : Prop :=
  ∀ {d d' : Draft} {values : List Bits}, (Expr.bitsAll cx es).run d = .ok (values, d') →
    Expr.references d.scope es = values.map (List.map some) ∧ d' = d ∧
      ∀ i < es.length, ∀ k,
        (Expr.bitOfPart cx es i k).run d = .ok ((values.getD i []).getD k zeroId, d)

end

variable {cx : Context}

/-! ## Literals and names as expressions -/

theorem number_refers (value : UInt64) :
    BitRefers cx (.number value) ∧ BitsRefer cx (.number value) := by
  constructor
  · intro d d' k id h
    unfold Expr.bit at h
    obtain ⟨rfl, rfl⟩ := Elab.pure_eq_ok.1 h
    rw [reference, List.getD_map, getD_literalBits]
    exact ⟨rfl, rfl⟩
  · intro d d' bits h
    unfold Expr.bits at h
    obtain ⟨rfl, rfl⟩ := Elab.pure_eq_ok.1 h
    refine ⟨by rw [reference], rfl, fun k => ?_⟩
    rw [getD_literalBits, Expr.bit]
    rfl

/-- An expression that stands for the name `x`. -/
theorem named_refers {e : Expr} {x : String} (hbits : e.bits cx = Elab.bitsOf x)
    (hbit : ∀ k, e.bit cx k = namedBit x k)
    (hreference : ∀ s : Scope, e.reference s = s.boundBits x) :
    BitRefers cx e ∧ BitsRefer cx e := by
  constructor
  · intro d d' k id h
    rw [hbit] at h
    rw [hreference]
    exact namedBit_run h
  · intro d d' bits h
    rw [hbits] at h
    obtain ⟨hfound, rfl⟩ := Elab.bitsOf_eq_ok.1 h
    refine ⟨by rw [hreference, Scope.bits?_eq_some_iff.1 hfound], rfl, fun k => ?_⟩
    rw [hbit]
    exact namedBit_ok hfound k

theorem ident_refers (name : String) : BitRefers cx (.ident name) ∧ BitsRefer cx (.ident name) :=
  named_refers (by rw [Expr.bits]) (fun _ => by rw [Expr.bit]) fun _ => by rw [reference]

theorem member_refers (object : Expr) (field : String) :
    BitRefers cx (.member object field) ∧ BitsRefer cx (.member object field) := by
  by_cases hname : ∃ name, object = .ident name
  · obtain ⟨name, rfl⟩ := hname
    exact named_refers (by rw [Expr.bits]; rfl) (fun _ => by rw [Expr.bit]; rfl)
      fun _ => by rw [reference]
  · -- nothing but a name can stand before the point
    have hthrow : ∃ e, memberOf object field = throw e := by
      cases object with
      | ident name => exact absurd ⟨name, rfl⟩ hname
      | _ => exact ⟨_, rfl⟩
    obtain ⟨e, hthrow⟩ := hthrow
    constructor
    · intro d d' k id h
      rw [Expr.bit, hthrow] at h
      exact absurd h Elab.throw_ne_ok
    · intro d d' bits h
      rw [Expr.bits, hthrow] at h
      exact absurd h Elab.throw_ne_ok

/-! ## Single bits and ranges of bits -/

theorem index_refers {object : Expr} {position : Nat} (hobject : BitRefers cx object) :
    BitRefers cx (.index object position) ∧ BitsRefer cx (.index object position) := by
  constructor
  · intro d d' k id h
    unfold Expr.bit at h
    rw [reference]
    cases k with
    | zero => exact hobject h
    | succ k =>
      obtain ⟨rfl, rfl⟩ := Elab.pure_eq_ok.1 h
      exact ⟨rfl, rfl⟩
  · intro d d' bits h
    unfold Expr.bits at h
    obtain ⟨id, d₁, hbit, h⟩ := Elab.bind_eq_ok.1 h
    obtain ⟨rfl, rfl⟩ := Elab.pure_eq_ok.1 h
    obtain ⟨hid, rfl⟩ := hobject hbit
    refine ⟨by rw [reference, hid, List.map_singleton], rfl, fun k => ?_⟩
    unfold Expr.bit
    cases k with
    | zero => exact hbit
    | succ k => rfl

theorem slice_refers {object : Expr} {first last : Nat} (hbit : BitRefers cx object)
    (hbits : BitsRefer cx object) :
    BitRefers cx (.slice object first last) ∧ BitsRefer cx (.slice object first last) := by
  by_cases hrange : last < first
  · constructor
    · intro d d' k id h
      unfold Expr.bit at h
      simp only [if_pos hrange] at h
      obtain ⟨_, _, hthrow, -⟩ := Elab.bind_eq_ok.1 h
      exact absurd hthrow Elab.throw_ne_ok
    · intro d d' bits h
      unfold Expr.bits at h
      simp only [if_pos hrange] at h
      obtain ⟨_, _, hthrow, -⟩ := Elab.bind_eq_ok.1 h
      exact absurd hthrow Elab.throw_ne_ok
  · constructor
    · intro d d' k id h
      unfold Expr.bit at h
      simp only [if_neg hrange] at h
      rw [reference, if_neg hrange]
      split at h
      · next hpast =>
        obtain ⟨rfl, rfl⟩ := Elab.pure_eq_ok.1 h
        simp [Nat.not_lt.2 (Nat.succ_le_of_lt hpast)]
      · next hk =>
        have hlt : k < last - first + 1 := Nat.lt_succ_of_le (Nat.not_lt.1 hk)
        simpa [hlt] using hbit h
    · intro d d' bits h
      unfold Expr.bits at h
      simp only [if_neg hrange] at h
      obtain ⟨base, d₁, hbase, h⟩ := Elab.bind_eq_ok.1 h
      obtain ⟨rfl, rfl⟩ := Elab.pure_eq_ok.1 h
      obtain ⟨hreference, rfl, heach⟩ := hbits hbase
      refine ⟨?_, rfl, fun k => ?_⟩
      · rw [reference, if_neg hrange, hreference, List.map_map]
        exact List.map_congr_left fun i _ => List.getD_map _ _ some
      · unfold Expr.bit
        simp only [if_neg hrange]
        rw [getD_map_range]
        split
        · next hpast =>
          rw [if_neg (Nat.not_lt.2 (Nat.succ_le_of_lt hpast))]
          rfl
        · next hk =>
          rw [if_pos (Nat.lt_succ_of_le (Nat.not_lt.1 hk))]
          exact heach _

/-! ## Concatenations of references -/

mutual

/-- The reference value is as wide as the width that is found without elaboration. -/
theorem length_reference (s : Scope) (program : Program) : ∀ e : Expr, e.callFree = true →
    (e.reference s).length = e.width s program {}
  | .number value, _ => by simp [reference, width, literalBits]
  | .ident name, _ => by
    rw [reference, width, Scope.length_boundBits, knownWidth_empty]
  | .index _ _, _ => rfl
  | .slice _ first last, _ => by
    rw [reference, width]
    split
    · next hrange => rw [Nat.sub_eq_zero_of_le (Nat.le_of_lt hrange), List.length_singleton]
    · simp
  | .member object field, _ => by
    cases object with
    | ident name => rw [reference, width, Scope.length_boundBits, knownWidth_empty]
    | _ => rfl
  | .concat parts, h => by
    rw [reference, width, ← length_references s program parts h, List.length_flatten,
      List.map_reverse, List.sum_reverse]
    rfl

/-- The same for several expressions. -/
theorem length_references (s : Scope) (program : Program) :
    ∀ es : List Expr, Expr.allCallFree es = true →
      (Expr.references s es).map List.length = Expr.widths s program {} es
  | [], _ => rfl
  | e :: rest, h => by
    rw [allCallFree, Bool.and_eq_true] at h
    rw [references, widths, List.map_cons, length_reference s program e h.1,
      length_references s program rest h.2]

end

/-- A bit of a concatenation is the bit of a part, which the widths of the parts tell. -/
theorem run_bit_concat {cx : Context} {parts : List Expr} {d : Draft} {widths : List Nat}
    (h : Expr.widths d.scope cx.program {} parts = widths) (k : Nat) :
    (Expr.bit cx (.concat parts) k).run d =
      (match locateConcatBit widths k with
      | some (i, offset) => Expr.bitOfPart cx parts i offset
      | none => return zeroId).run d := by
  rw [← h, Expr.bit]
  rfl

theorem concat_refers {parts : List Expr} (hfree : Expr.allCallFree parts = true)
    (hpart : PartRefers cx parts) (hall : AllBitsRefer cx parts) :
    BitRefers cx (.concat parts) ∧ BitsRefer cx (.concat parts) := by
  constructor
  · intro d d' k id h
    unfold Expr.bit at h
    obtain ⟨_, _, hscope, h⟩ := Elab.bind_eq_ok.1 h
    cases hscope
    rw [← length_references _ _ parts hfree] at h
    rw [reference, getD_reverse_flatten]
    cases hlocate : locateConcatBit ((Expr.references d.scope parts).map List.length) k with
    | none =>
      simp only [hlocate] at h
      obtain ⟨rfl, rfl⟩ := Elab.pure_eq_ok.1 h
      exact ⟨rfl, rfl⟩
    | some found =>
      obtain ⟨i, offset⟩ := found
      simp only [hlocate] at h
      exact hpart h
  · intro d d' bits h
    unfold Expr.bits at h
    obtain ⟨values, d₁, hvalues, h⟩ := Elab.bind_eq_ok.1 h
    obtain ⟨rfl, rfl⟩ := Elab.pure_eq_ok.1 h
    obtain ⟨hreferences, rfl, heach⟩ := hall hvalues
    have hwidths : Expr.widths d'.scope cx.program {} parts = values.map List.length := by
      rw [← length_references _ _ parts hfree, hreferences, List.map_map]
      exact List.map_congr_left fun bits _ => List.length_map _
    refine ⟨?_, rfl, fun k => ?_⟩
    · rw [reference, hreferences, ← List.map_reverse, ← List.map_flatten]
    · rw [run_bit_concat hwidths, getD_reverse_flatten]
      cases hlocate : locateConcatBit (values.map List.length) k with
      | none => rfl
      | some found =>
        obtain ⟨i, offset⟩ := found
        obtain ⟨w, hw, -, -⟩ := locateConcatBit_eq_some.1 hlocate
        have hlength : values.length = parts.length := by
          have := congrArg List.length hwidths
          rw [List.length_map, length_widths] at this
          exact this.symm
        have hi : i < parts.length := by
          rw [← hlength, ← List.length_map (f := List.length)]
          exact (List.getElem?_eq_some_iff.1 hw).1
        exact heach i hi offset

theorem part_refers_nil : PartRefers cx [] := by
  intro d d' i k id h
  unfold Expr.bitOfPart at h
  exact absurd h Elab.throw_ne_ok

theorem part_refers_cons {e : Expr} {rest : List Expr} (he : BitRefers cx e)
    (hrest : PartRefers cx rest) : PartRefers cx (e :: rest) := by
  intro d d' i k id h
  cases i with
  | zero => exact he h
  | succ i => exact hrest h

theorem allBits_refer_nil : AllBitsRefer cx [] := by
  intro d d' values h
  unfold Expr.bitsAll at h
  obtain ⟨rfl, rfl⟩ := Elab.pure_eq_ok.1 h
  exact ⟨rfl, rfl, fun i hi => absurd hi (Nat.not_lt_zero i)⟩

theorem allBits_refer_cons {e : Expr} {rest : List Expr} (he : BitsRefer cx e)
    (hrest : AllBitsRefer cx rest) : AllBitsRefer cx (e :: rest) := by
  intro d d' values h
  unfold Expr.bitsAll at h
  obtain ⟨bits, d₁, hbits, h⟩ := Elab.bind_eq_ok.1 h
  obtain ⟨more, d₂, hmore, h⟩ := Elab.bind_eq_ok.1 h
  obtain ⟨rfl, rfl⟩ := Elab.pure_eq_ok.1 h
  obtain ⟨hreference, rfl, hbit⟩ := he hbits
  obtain ⟨hreferences, rfl, heach⟩ := hrest hmore
  refine ⟨by rw [references, hreference, hreferences, List.map_cons], rfl, fun i hi k => ?_⟩
  cases i with
  | zero => exact hbit k
  | succ i => exact heach i (Nat.lt_of_succ_lt_succ hi) k

/-! ## All expressions without calls -/

variable (cx)

mutual

theorem refers : ∀ e : Expr, e.callFree = true → BitRefers cx e ∧ BitsRefer cx e
  | .number value, _ => number_refers value
  | .ident name, _ => ident_refers name
  | .index object _, h => index_refers (refers object h).1
  | .slice object _ _, h => slice_refers (refers object h).1 (refers object h).2
  | .member object field, _ => member_refers object field
  | .concat parts, h => concat_refers h (refers_all parts h).1 (refers_all parts h).2

theorem refers_all : ∀ es : List Expr, Expr.allCallFree es = true →
    PartRefers cx es ∧ AllBitsRefer cx es
  | [], _ => ⟨part_refers_nil, allBits_refer_nil⟩
  | e :: rest, h => by
    rw [allCallFree, Bool.and_eq_true] at h
    obtain ⟨hbit, hbits⟩ := refers e h.1
    obtain ⟨hpart, hall⟩ := refers_all rest h.2
    exact ⟨part_refers_cons hbit hpart, allBits_refer_cons hbits hall⟩

end

/-- No module may be called. -/
def withoutModules : Context where
  program := {}
  limit := 0
  expand := none

/-- A bus of three bits and a single bit. -/
def busAndBit : Draft where
  netlist := .empty "top"
  scope := ((Scope.top "top").bind "x" [4, 5, 6]).bind "y" [7]

/-- `{{x, y}[1:5], x[7], 2}`. -/
def nestedParts : Expr :=
  .concat [.slice (.concat [.ident "x", .ident "y"]) 1 5, .index (.ident "x") 7, .number 2]

end Expr

end NandHdl
