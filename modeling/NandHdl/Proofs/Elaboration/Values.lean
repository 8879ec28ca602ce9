-- SUMMARY: Elaborated expressions carry their meaning (`Expr.bits_mean`): one lemma for each form of expression.
import NandHdl.Proofs.Elaboration.Meaning
import Mathlib.Data.List.GetD

/-!
# Elaborated values

The bits that elaboration answers for an expression have the values that the expression means, in
every valuation in which the gates have settled. Elaboration asks for all bits of an expression or
for one of them, and the two are followed together.
-/

namespace NandHdl

/-- The names have these bits. -/
def Scope.Binds (s : Scope) (names : List String) (bound : String → Bits) : Prop :=
  ∀ x ∈ names, s.bits? x = some (bound x)

/-- The signal has the value of bit `k` of the expression whenever the gates have settled. -/
def Draft.Means (d : Draft) (bound : String → Bits) (q : DffOutputs) (e : Expr) (k : Nat)
    (id : SignalId) : Prop :=
  ∀ v, d.netlist.AtRest v → e.HasBit d.netlist v bound q k (v id)

theorem Draft.Means.mono {d d' : Draft} {bound : String → Bits} {q : DffOutputs} {e : Expr}
    {k : Nat} {id : SignalId} (h : d.Means bound q e k id) (hd : d.Extends d') :
    d'.Means bound q e k id :=
  fun v hv => (h v (hv.of_extends hd.netlist)).mono hd.netlist

namespace DffOutputs

/-- The flip-flops of an expression with one argument. -/
def wrap (q : DffOutputs) : DffOutputs
  | [] => zeroId
  | _ :: path => q path

/-- The flip-flops of one argument more. -/
def cons (first rest : DffOutputs) : DffOutputs
  | [] => zeroId
  | 0 :: path => first path
  | (i + 1) :: path => rest (i :: path)

/-- The flip-flops of a call that is a flip-flop itself. -/
def output (id : SignalId) (args : DffOutputs) : DffOutputs
  | [] => id
  | i :: path => args (i :: path)

end DffOutputs

namespace Expr

section

variable (cx : Context) (names : List String) (bound : String → Bits)

/-- The bits that are answered carry the meaning of the expression. -/
def BitsMean (e : Expr) : Prop :=
  ∀ {d d' : Draft} {bits : Bits}, d.Lawful → d.scope.Binds names bound →
    (e.bits cx).run d = .ok (bits, d') →
      d.Adds d' ∧ bits.length = e.size bound ∧
        ∃ q, ∀ k, d'.Means bound q e k (bits.getD k zeroId)

/-- The same for one bit. -/
def BitMeans (e : Expr) : Prop :=
  ∀ {d d' : Draft} {k : Nat} {id : SignalId}, d.Lawful → d.scope.Binds names bound →
    (e.bit cx k).run d = .ok (id, d') → d.Adds d' ∧ ∃ q, d'.Means bound q e k id

/-- The same for the bits of several expressions. -/
def AllBitsMean (es : List Expr) : Prop :=
  ∀ {d d' : Draft} {values : List Bits}, d.Lawful → d.scope.Binds names bound →
    (Expr.bitsAll cx es).run d = .ok (values, d') →
      d.Adds d' ∧ values.map List.length = Expr.sizes bound es ∧
        ∃ q : DffOutputs, ∀ (i : Nat) (e : Expr) (bits : Bits), es[i]? = some e →
          values[i]? = some bits → ∀ k, d'.Means bound (q.arg i) e k (bits.getD k zeroId)

/-- The same for bit 0 of several expressions. -/
def LowBitsMean (es : List Expr) : Prop :=
  ∀ {d d' : Draft} {ids : Bits}, d.Lawful → d.scope.Binds names bound →
    (Expr.lowBits cx es).run d = .ok (ids, d') →
      d.Adds d' ∧ ids.length = es.length ∧
        ∃ q : DffOutputs, ∀ (i : Nat) (e : Expr) (id : SignalId), es[i]? = some e →
          ids[i]? = some id → d'.Means bound (q.arg i) e 0 id

/-- The same for one bit of one of several expressions. -/
def PartMeans (es : List Expr) : Prop :=
  ∀ {d d' : Draft} {i k : Nat} {id : SignalId}, d.Lawful → d.scope.Binds names bound →
    (Expr.bitOfPart cx es i k).run d = .ok (id, d') →
      d.Adds d' ∧ ∃ e q, es[i]? = some e ∧ d'.Means bound q e k id

end

variable {cx : Context} {names : List String} {bound : String → Bits} {d d' : Draft}

/-! ## Literals and names -/

theorem getD_literalBits (value : UInt64) (k : Nat) :
    (literalBits value).getD k zeroId = constantBit (value.toNat.testBit k) := by
  unfold literalBits
  rw [List.getD_eq_getElem?_getD, List.getElem?_map]
  by_cases hk : k < literalWidth value
  · rw [List.getElem?_range hk]
    rfl
  · have hbit : value.toNat.testBit k = false := by
      unfold literalWidth at hk
      split at hk
      · next hzero => simp [hzero]
      · next hne =>
        have hne' : value.toNat ≠ 0 := fun h => hne (UInt64.toNat_inj.1 h)
        exact Nat.testBit_lt_two_pow ((Nat.log2_lt hne').1 (Nat.not_lt.1 hk))
    rw [List.getElem?_eq_none (by simpa using hk), hbit]
    rfl

theorem number_mean (value : UInt64) : BitsMean cx names bound (.number value) ∧
    BitMeans cx names bound (.number value) := by
  constructor
  · intro d d' bits hd _ h
    unfold Expr.bits at h
    obtain ⟨rfl, rfl⟩ := Elab.pure_eq_ok.1 h
    refine ⟨hd.adds_self, by simp [literalBits, size], fun _ => zeroId, fun k v hv => ?_⟩
    rw [getD_literalBits, hv.constantBit]
    exact .number
  · intro d d' k id hd _ h
    unfold Expr.bit at h
    obtain ⟨rfl, rfl⟩ := Elab.pure_eq_ok.1 h
    refine ⟨hd.adds_self, fun _ => zeroId, fun v hv => ?_⟩
    rw [hv.constantBit]
    exact .number

theorem namedBit_ok {x : String} {bits : Bits} (hbits : d.scope.bits? x = some bits) (k : Nat) :
    (namedBit x k).run d = .ok (bits.getD k zeroId, d) := by
  unfold namedBit
  rw [StateT.run_bind, Elab.scope_run, Except.ok_bind]
  simp only [Scope.isBus, Std.TreeMap.contains_eq_isSome_getElem?]
  cases hbus : d.scope.buses[x]? with
  | none =>
    rw [Scope.bits?_of_scalar hbus] at hbits
    obtain ⟨low, hlow, rfl⟩ := Option.map_eq_some_iff.1 hbits
    simp only [hlow]
    cases k <;> rfl
  | some w =>
    obtain ⟨rfl, hget⟩ := (Scope.bits?_eq_some_of_bus hbus).1 hbits
    have hwidth := (Scope.length_of_bits? hbits).symm
    simp only [Option.isSome_some, if_true, hwidth]
    by_cases hk : k < bits.length
    · rw [if_neg (Nat.not_le.2 hk), hget k hk, List.getElem?_eq_getElem hk,
        List.getD_eq_getElem _ _ hk]
      rfl
    · rw [if_pos (Nat.not_lt.1 hk), List.getD_eq_default _ _ (Nat.not_lt.1 hk)]
      rfl

theorem namedBit_eq_ok {x : String} {bits : Bits} {k : Nat} {id : SignalId}
    (hbits : d.scope.bits? x = some bits) (h : (namedBit x k).run d = .ok (id, d')) :
    id = bits.getD k zeroId ∧ d' = d := by
  rw [namedBit_ok hbits] at h
  cases h
  exact ⟨rfl, rfl⟩

/-- An expression that stands for the name `x`. -/
theorem named_mean {e : Expr} {x : String} (hx : x ∈ names) (hbits : e.bits cx = Elab.bitsOf x)
    (hbit : ∀ k, e.bit cx k = namedBit x k) (hsize : e.size bound = (bound x).length)
    (hvalue : ∀ n v q k, e.HasBit n v bound q k (bitAt v (bound x) k)) :
    BitsMean cx names bound e ∧ BitMeans cx names bound e := by
  constructor
  · intro d d' bits hd hbinds h
    rw [hbits] at h
    obtain ⟨hfound, rfl⟩ := Elab.bitsOf_eq_ok.1 h
    cases (hbinds x hx).symm.trans hfound
    refine ⟨hd.adds_self, hsize.symm, fun _ => zeroId, fun k v hv => ?_⟩
    rw [← bitAt_eq hv.zero]
    exact hvalue _ _ _ _
  · intro d d' k id hd hbinds h
    rw [hbit] at h
    obtain ⟨rfl, rfl⟩ := namedBit_eq_ok (hbinds x hx) h
    refine ⟨hd.adds_self, fun _ => zeroId, fun v hv => ?_⟩
    rw [← bitAt_eq hv.zero]
    exact hvalue _ _ _ _

theorem ident_mean {name : String} (hname : name ∈ names) :
    BitsMean cx names bound (.ident name) ∧ BitMeans cx names bound (.ident name) :=
  named_mean hname (by rw [Expr.bits]) (fun _ => by rw [Expr.bit]) (by rw [size])
    fun _ _ _ _ => .ident

theorem member_mean {object field : String} (hname : memberName object field ∈ names) :
    BitsMean cx names bound (.member (.ident object) field) ∧
      BitMeans cx names bound (.member (.ident object) field) :=
  named_mean hname (by rw [Expr.bits]; rfl) (fun _ => by rw [Expr.bit]; rfl) (by rw [size])
    fun _ _ _ _ => .member

/-! ## Single bits and ranges -/

theorem index_mean {object : Expr} {position : Nat} (hobject : BitMeans cx names bound object) :
    BitsMean cx names bound (.index object position) ∧
      BitMeans cx names bound (.index object position) := by
  constructor
  · intro d d' bits hd hbinds h
    unfold Expr.bits at h
    obtain ⟨id, d₁, hbit, h⟩ := Elab.bind_eq_ok.1 h
    obtain ⟨rfl, rfl⟩ := Elab.pure_eq_ok.1 h
    obtain ⟨hadds, q, hq⟩ := hobject hd hbinds hbit
    refine ⟨hadds, rfl, q.wrap, fun k v hv => ?_⟩
    cases k with
    | zero => exact .index (hq v hv)
    | succ k =>
      rw [hv.past]
      exact .index_past (Nat.succ_pos k)
  · intro d d' k id hd hbinds h
    unfold Expr.bit at h
    cases k with
    | zero =>
      obtain ⟨hadds, q, hq⟩ := hobject hd hbinds h
      exact ⟨hadds, q.wrap, fun v hv => .index (hq v hv)⟩
    | succ k =>
      obtain ⟨rfl, rfl⟩ := Elab.pure_eq_ok.1 h
      refine ⟨hd.adds_self, fun _ => zeroId, fun v hv => ?_⟩
      rw [hv.zero]
      exact .index_past (Nat.succ_pos k)

theorem getD_map_range {f : Nat → SignalId} (count k : Nat) :
    ((List.range count).map f).getD k zeroId = if k < count then f k else zeroId := by
  by_cases hk : k < count <;> simp [hk]

theorem slice_mean {object : Expr} {first last : Nat} (hbits : BitsMean cx names bound object)
    (hbit : BitMeans cx names bound object) :
    BitsMean cx names bound (.slice object first last) ∧
      BitMeans cx names bound (.slice object first last) := by
  constructor
  · intro d d' bits hd hbinds h
    unfold Expr.bits at h
    split at h
    · obtain ⟨_, _, hthrow, -⟩ := Elab.bind_eq_ok.1 h
      exact absurd hthrow Elab.throw_ne_ok
    · next hrange =>
      obtain ⟨base, d₁, hbase, h⟩ := Elab.bind_eq_ok.1 h
      obtain ⟨rfl, rfl⟩ := Elab.pure_eq_ok.1 h
      obtain ⟨hadds, -, q, hq⟩ := hbits hd hbinds hbase
      refine ⟨hadds, by simp [size], q.wrap, fun k v hv => ?_⟩
      rw [getD_map_range]
      split
      · next hk => exact .slice (Nat.not_lt.1 hrange) (Nat.le_of_lt_succ hk) (hq _ v hv)
      · next hk =>
        rw [hv.zero]
        exact .slice_past (Nat.not_lt.1 hrange) (Nat.not_lt.1 hk)
  · intro d d' k id hd hbinds h
    unfold Expr.bit at h
    by_cases hrange : last < first
    · simp only [if_pos hrange] at h
      obtain ⟨_, _, hthrow, -⟩ := Elab.bind_eq_ok.1 h
      exact absurd hthrow Elab.throw_ne_ok
    · simp only [if_neg hrange] at h
      split at h
      · next hpast =>
        obtain ⟨rfl, rfl⟩ := Elab.pure_eq_ok.1 h
        refine ⟨hd.adds_self, fun _ => zeroId, fun v hv => ?_⟩
        rw [hv.zero]
        exact .slice_past (Nat.not_lt.1 hrange) hpast
      · next hk =>
        obtain ⟨hadds, q, hq⟩ := hbit hd hbinds h
        exact ⟨hadds, q.wrap, fun v hv => .slice (Nat.not_lt.1 hrange) (Nat.not_lt.1 hk) (hq v hv)⟩

/-! ## Concatenations -/

/-- A bit of a concatenation means what the bit of the part means. -/
theorem means_concat {parts : List Expr} {q : DffOutputs} {i offset k : Nat} {e : Expr}
    {id : SignalId} (hlocate : locateConcatBit (Expr.sizes bound parts) k = some (i, offset))
    (he : parts[i]? = some e) (h : d.Means bound (q.arg i) e offset id) :
    d.Means bound q (.concat parts) k id := by
  obtain ⟨w, hw, hoffset, hk⟩ := locateConcatBit_eq_some.1 hlocate
  rw [sizes_eq, List.getElem?_map, he] at hw
  cases hw
  rw [sizes_eq, ← List.map_drop, ← sizes_eq] at hk
  exact fun v hv => .concat he hoffset hk (h v hv)

theorem means_concat_past {parts : List Expr} {q : DffOutputs} {k : Nat}
    (hlocate : locateConcatBit (Expr.sizes bound parts) k = none) :
    d.Means bound q (.concat parts) k zeroId := by
  intro v hv
  rw [hv.zero]
  exact .concat_past (locateConcatBit_eq_none.1 hlocate)

theorem concat_bits_mean {parts : List Expr} (hparts : AllBitsMean cx names bound parts) :
    BitsMean cx names bound (.concat parts) := by
  intro d d' bits hd hbinds h
  unfold Expr.bits at h
  obtain ⟨values, d₁, hvalues, h⟩ := Elab.bind_eq_ok.1 h
  obtain ⟨rfl, rfl⟩ := Elab.pure_eq_ok.1 h
  obtain ⟨hadds, hsizes, q, hq⟩ := hparts hd hbinds hvalues
  refine ⟨hadds, ?_, q, fun k => ?_⟩
  · rw [size, ← hsizes, List.length_flatten, List.map_reverse, List.sum_reverse]
  · rw [getD_reverse_flatten, hsizes]
    cases hlocate : locateConcatBit (Expr.sizes bound parts) k with
    | none => exact means_concat_past hlocate
    | some found =>
      obtain ⟨i, offset⟩ := found
      obtain ⟨w, hw, -, -⟩ := locateConcatBit_eq_some.1 hlocate
      rw [sizes_eq, List.getElem?_map, Option.map_eq_some_iff] at hw
      obtain ⟨e, he, -⟩ := hw
      have hi : i < values.length := by
        have := congrArg List.length hsizes
        rw [sizes_eq, List.length_map, List.length_map] at this
        exact this ▸ (List.getElem?_eq_some_iff.1 he).1
      refine means_concat hlocate he (hq i e _ he ?_ offset)
      rw [List.getD_eq_getElem?_getD, List.getElem?_eq_getElem hi]
      rfl

theorem knownWidth_eq {s : Scope} {x : String} (hbinds : s.Binds names bound) (hx : x ∈ names) :
    knownWidth s {} x = (bound x).length := by
  rw [Scope.length_of_bits? (hbinds x hx)]
  simp [knownWidth]

mutual

/-- Widths that are found without elaboration are right. -/
theorem width_eq_size {s : Scope} (program : Program) (hbinds : s.Binds names bound) :
    ∀ e : Expr, e.readsOnly names → e.width s program {} = e.size bound
  | .number _, _ => rfl
  | .ident name, h => by
    rw [width, size]
    exact knownWidth_eq hbinds (List.contains_iff_mem.1 h)
  | .index _ _, _ => rfl
  | .slice _ _ _, _ => rfl
  | .member object field, h => by
    cases object with
    | ident name =>
      rw [width, size]
      exact knownWidth_eq hbinds (List.contains_iff_mem.1 h)
    | _ => rfl
  | .concat parts, h => by
    rw [width, size, widths_eq_sizes program hbinds parts h]
    rfl
  | .call callee args, h => by
    rw [readsOnly, Bool.and_eq_true, isPrimitive_iff] at h
    rw [width, size, callWidth, if_pos h.1]

theorem widths_eq_sizes {s : Scope} (program : Program) (hbinds : s.Binds names bound) :
    ∀ parts : List Expr, Expr.allReadOnly names parts →
      Expr.widths s program {} parts = Expr.sizes bound parts
  | [], _ => rfl
  | e :: rest, h => by
    rw [allReadOnly, Bool.and_eq_true] at h
    rw [widths, sizes, width_eq_size program hbinds e h.1,
      widths_eq_sizes program hbinds rest h.2]

end

theorem concat_bit_means {parts : List Expr} (hreads : Expr.allReadOnly names parts)
    (hparts : PartMeans cx names bound parts) : BitMeans cx names bound (.concat parts) := by
  intro d d' k id hd hbinds h
  unfold Expr.bit at h
  obtain ⟨_, _, hscope, h⟩ := Elab.bind_eq_ok.1 h
  cases hscope
  rw [widths_eq_sizes cx.program hbinds parts hreads] at h
  cases hlocate : locateConcatBit (Expr.sizes bound parts) k with
  | none =>
    simp only [hlocate] at h
    obtain ⟨rfl, rfl⟩ := Elab.pure_eq_ok.1 h
    exact ⟨hd.adds_self, fun _ => zeroId, means_concat_past hlocate⟩
  | some found =>
    obtain ⟨i, offset⟩ := found
    simp only [hlocate] at h
    obtain ⟨hadds, e, q, he, hq⟩ := hparts hd hbinds h
    exact ⟨hadds, q.wrap, means_concat hlocate he hq⟩

/-! ## Gates and flip-flops -/

section

variable {target : Option String} {count : Nat} {low : Elab Bits} {all : Elab (List Bits)}
  {bits : Bits}

theorem call_nand (h : (cx.call nandName target count low all).run d = .ok (bits, d')) :
    count = 2 ∧ ∃ a b d₁ out, low.run d = .ok ([a, b], d₁) ∧
      (Elab.emitNand a b).run d₁ = .ok (out, d') ∧ bits = [out] := by
  unfold Context.call at h
  rw [if_pos rfl] at h
  by_cases hcount : count = 2
  · simp only [hcount, ne_eq, not_true_eq_false, if_false] at h
    obtain ⟨ids, d₁, hlow, h⟩ := Elab.bind_eq_ok.1 h
    split at h
    · next a b =>
      obtain ⟨out, d₂, hout, h⟩ := Elab.bind_eq_ok.1 h
      obtain ⟨rfl, rfl⟩ := Elab.pure_eq_ok.1 h
      exact ⟨hcount, a, b, d₁, out, hlow, hout, rfl⟩
    · exact absurd h Elab.throw_ne_ok
  · simp only [ne_eq, hcount, not_false_eq_true, if_true] at h
    obtain ⟨_, _, hthrow, -⟩ := Elab.bind_eq_ok.1 h
    exact absurd hthrow Elab.throw_ne_ok

theorem call_dff (h : (cx.call dffName target count low all).run d = .ok (bits, d')) :
    count = 2 ∧ ∃ a clk d₁ q, low.run d = .ok ([a, clk], d₁) ∧
      (Elab.emitDff a clk).run d₁ = .ok (q, d') ∧ bits = [q] := by
  unfold Context.call at h
  rw [if_neg (by decide), if_pos rfl] at h
  by_cases hcount : count = 2
  · simp only [hcount, ne_eq, not_true_eq_false, if_false] at h
    obtain ⟨ids, d₁, hlow, h⟩ := Elab.bind_eq_ok.1 h
    split at h
    · next a clk =>
      obtain ⟨q, d₂, hq, h⟩ := Elab.bind_eq_ok.1 h
      obtain ⟨rfl, rfl⟩ := Elab.pure_eq_ok.1 h
      exact ⟨hcount, a, clk, d₁, q, hlow, hq, rfl⟩
    · exact absurd h Elab.throw_ne_ok
  · simp only [ne_eq, hcount, not_false_eq_true, if_true] at h
    obtain ⟨_, _, hthrow, -⟩ := Elab.bind_eq_ok.1 h
    exact absurd hthrow Elab.throw_ne_ok

/-- A call of a primitive takes the lowest bits of two arguments. -/
theorem call_primitive {callee : String} (hcallee : isPrimitive callee = true)
    (h : (cx.call callee target count low all).run d = .ok (bits, d')) :
    count = 2 ∧ ∃ a b d₁ out, low.run d = .ok ([a, b], d₁) ∧ bits = [out] ∧
      ((Elab.emitNand a b).run d₁ = .ok (out, d') ∨ (Elab.emitDff a b).run d₁ = .ok (out, d')) := by
  rcases isPrimitive_iff.1 hcallee with rfl | rfl
  · obtain ⟨hcount, a, b, d₁, out, hlow, hout, rfl⟩ := call_nand h
    exact ⟨hcount, a, b, d₁, out, hlow, rfl, .inl hout⟩
  · obtain ⟨hcount, a, clk, d₁, q, hlow, hq, rfl⟩ := call_dff h
    exact ⟨hcount, a, clk, d₁, q, hlow, rfl, .inr hq⟩

/-- Any other call is of a module of the program, and the arguments are elaborated before the module
is expanded on them. -/
theorem call_module {callee : String} (hcallee : isPrimitive callee = false)
    (h : (cx.call callee target count low all).run d = .ok (bits, d')) :
    ∃ m expand values d₁, cx.program.find? callee = some m ∧ cx.expand = some expand ∧
      count = m.params.length ∧ all.run d = .ok (values, d₁) ∧
        (expand m values target).run d₁ = .ok (bits, d') := by
  obtain ⟨hnand, hdff⟩ := isPrimitive_eq_false.1 hcallee
  unfold Context.call at h
  rw [if_neg hnand, if_neg hdff] at h
  cases hfind : cx.program.find? callee with
  | none =>
    simp only [hfind] at h
    obtain ⟨_, _, -, hthrow⟩ := Elab.bind_eq_ok.1 h
    exact absurd hthrow Elab.throw_ne_ok
  | some m =>
    cases hexpand : cx.expand with
    | none =>
      simp only [hfind, hexpand] at h
      exact absurd h Elab.throw_ne_ok
    | some expand =>
      by_cases hcount : count = m.params.length
      · simp only [hfind, hexpand, hcount, ne_eq, not_true_eq_false, if_false] at h
        obtain ⟨values, d₁, hvalues, h⟩ := Elab.bind_eq_ok.1 h
        exact ⟨m, expand, values, d₁, rfl, rfl, hcount, hvalues, h⟩
      · simp only [hfind, hexpand, ne_eq, hcount, not_false_eq_true, if_true] at h
        obtain ⟨_, _, hthrow, -⟩ := Elab.bind_eq_ok.1 h
        exact absurd hthrow Elab.throw_ne_ok

/-- A gate or flip-flop, with or without a target. -/
theorem primitive_mean {callee : String} {args : List Expr} (hcallee : isPrimitive callee)
    (hargs : LowBitsMean cx names bound args) (hd : d.Lawful) (hbinds : d.scope.Binds names bound)
    (h : (cx.call callee target args.length (Expr.lowBits cx args) all).run d = .ok (bits, d')) :
    d.Adds d' ∧ bits.length = 1 ∧
      ∃ q, ∀ k, d'.Means bound q (.call callee args) k (bits.getD k zeroId) := by
  rcases isPrimitive_iff.1 hcallee with rfl | rfl
  · obtain ⟨hcount, a, b, d₁, out, hlow, hout, rfl⟩ := call_nand h
    obtain ⟨x, y, rfl⟩ := List.length_eq_two.1 hcount
    obtain ⟨hadds, -, q, hq⟩ := hargs hd hbinds hlow
    obtain ⟨hadds', hvalue⟩ := Elab.emitNand_spec hadds.lawful hout
    have hx := (hq 0 x a rfl rfl).mono hadds'.toExtends
    have hy := (hq 1 y b rfl rfl).mono hadds'.toExtends
    refine ⟨hadds.trans hadds', rfl, q, fun k v hv => ?_⟩
    cases k with
    | zero =>
      have hout : v ([out].getD 0 zeroId) = !(v a && v b) := hvalue v hv.settled
      rw [hout]
      exact .nand (hx v hv) (hy v hv)
    | succ k =>
      rw [hv.past]
      exact .nand_past (Nat.succ_pos k)
  · obtain ⟨hcount, a, clk, d₁, out, hlow, hout, rfl⟩ := call_dff h
    obtain ⟨x, y, rfl⟩ := List.length_eq_two.1 hcount
    obtain ⟨hadds, -, q, hq⟩ := hargs hd hbinds hlow
    obtain ⟨hadds', f, hf, rfl, rfl, rfl⟩ := Elab.emitDff_spec hadds.lawful hout
    have hx := (hq 0 x f.d rfl rfl).mono hadds'.toExtends
    have hy := (hq 1 y f.clk rfl rfl).mono hadds'.toExtends
    refine ⟨hadds.trans hadds', rfl, .output f.q q, fun k v hv => ?_⟩
    cases k with
    | zero => exact .dff hf rfl (hx v hv) (hy v hv)
    | succ k =>
      rw [hv.past]
      exact .dff_past (Nat.succ_pos k)

end

theorem call_mean {callee : String} {args : List Expr} (hcallee : isPrimitive callee)
    (hargs : LowBitsMean cx names bound args) : BitsMean cx names bound (.call callee args) ∧
      BitMeans cx names bound (.call callee args) := by
  constructor
  · intro d d' bits hd hbinds h
    unfold Expr.bits at h
    exact primitive_mean hcallee hargs hd hbinds h
  · intro d d' k id hd hbinds h
    unfold Expr.bit at h
    obtain ⟨bits, d₁, hcall, h⟩ := Elab.bind_eq_ok.1 h
    obtain ⟨rfl, rfl⟩ := Elab.pure_eq_ok.1 h
    obtain ⟨hadds, -, q, hq⟩ := primitive_mean hcallee hargs hd hbinds hcall
    exact ⟨hadds, q, hq k⟩

/-! ## Several expressions -/

theorem allBits_mean_nil : AllBitsMean cx names bound [] := by
  intro d d' values hd _ h
  unfold Expr.bitsAll at h
  obtain ⟨rfl, rfl⟩ := Elab.pure_eq_ok.1 h
  exact ⟨hd.adds_self, rfl, fun _ => zeroId,
    fun _ _ _ h => absurd h.symm (Option.some_ne_none _)⟩

theorem allBits_mean_cons {e : Expr} {rest : List Expr} (he : BitsMean cx names bound e)
    (hrest : AllBitsMean cx names bound rest) : AllBitsMean cx names bound (e :: rest) := by
  intro d d' values hd hbinds h
  unfold Expr.bitsAll at h
  obtain ⟨bits, d₁, hbits, h⟩ := Elab.bind_eq_ok.1 h
  obtain ⟨more, d₂, hmore, h⟩ := Elab.bind_eq_ok.1 h
  obtain ⟨rfl, rfl⟩ := Elab.pure_eq_ok.1 h
  obtain ⟨hadds, hlength, q, hq⟩ := he hd hbinds hbits
  have hbinds₁ : d₁.scope.Binds names bound := hadds.scope_eq ▸ hbinds
  obtain ⟨hadds', hsizes, qs, hqs⟩ := hrest hadds.lawful hbinds₁ hmore
  refine ⟨hadds.trans hadds', ?_, .cons q qs, fun i e' bits' hi hbits' k => ?_⟩
  · rw [List.map_cons, hlength, hsizes, Expr.sizes]
  · cases i with
    | zero =>
      cases hi
      cases hbits'
      exact (hq k).mono hadds'.toExtends
    | succ i => exact hqs i e' bits' hi hbits' k

theorem lowBits_mean_nil : LowBitsMean cx names bound [] := by
  intro d d' ids hd _ h
  unfold Expr.lowBits at h
  obtain ⟨rfl, rfl⟩ := Elab.pure_eq_ok.1 h
  exact ⟨hd.adds_self, rfl, fun _ => zeroId,
    fun _ _ _ h => absurd h.symm (Option.some_ne_none _)⟩

theorem lowBits_mean_cons {e : Expr} {rest : List Expr} (he : BitMeans cx names bound e)
    (hrest : LowBitsMean cx names bound rest) : LowBitsMean cx names bound (e :: rest) := by
  intro d d' ids hd hbinds h
  unfold Expr.lowBits at h
  obtain ⟨id, d₁, hid, h⟩ := Elab.bind_eq_ok.1 h
  obtain ⟨more, d₂, hmore, h⟩ := Elab.bind_eq_ok.1 h
  obtain ⟨rfl, rfl⟩ := Elab.pure_eq_ok.1 h
  obtain ⟨hadds, q, hq⟩ := he hd hbinds hid
  have hbinds₁ : d₁.scope.Binds names bound := hadds.scope_eq ▸ hbinds
  obtain ⟨hadds', hlength, qs, hqs⟩ := hrest hadds.lawful hbinds₁ hmore
  refine ⟨hadds.trans hadds', congrArg (· + 1) hlength, .cons q qs, fun i e' id' hi hid' => ?_⟩
  cases i with
  | zero =>
    cases hi
    cases hid'
    exact hq.mono hadds'.toExtends
  | succ i => exact hqs i e' id' hi hid'

theorem part_means_nil : PartMeans cx names bound [] := by
  intro d d' i k id _ _ h
  unfold Expr.bitOfPart at h
  exact absurd h Elab.throw_ne_ok

theorem part_means_cons {e : Expr} {rest : List Expr} (he : BitMeans cx names bound e)
    (hrest : PartMeans cx names bound rest) : PartMeans cx names bound (e :: rest) := by
  intro d d' i k id hd hbinds h
  cases i with
  | zero =>
    obtain ⟨hadds, q, hq⟩ := he hd hbinds h
    exact ⟨hadds, e, q, rfl, hq⟩
  | succ i =>
    obtain ⟨hadds, e', q, he', hq⟩ := hrest hd hbinds h
    exact ⟨hadds, e', q, he', hq⟩

/-! ## All expressions -/

variable (cx bound)

mutual

/-- All bits of an expression and each one alone carry its meaning. -/
theorem bits_mean : ∀ e : Expr, e.readsOnly names →
    BitsMean cx names bound e ∧ BitMeans cx names bound e
  | .number value, _ => number_mean value
  | .ident name, h => ident_mean (List.contains_iff_mem.1 h)
  | .index object position, h => by
    rw [readsOnly] at h
    exact index_mean (bits_mean object h).2
  | .slice object first last, h => by
    rw [readsOnly] at h
    exact slice_mean (bits_mean object h).1 (bits_mean object h).2
  | .member object field, h => by
    cases object with
    | ident name => exact member_mean (List.contains_iff_mem.1 h)
    | _ => exact nomatch h
  | .concat parts, h => by
    rw [readsOnly] at h
    obtain ⟨hall, -, hpart⟩ := all_mean parts h
    exact ⟨concat_bits_mean hall, concat_bit_means h hpart⟩
  | .call callee args, h => by
    rw [readsOnly, Bool.and_eq_true] at h
    exact call_mean h.1 (all_mean args h.2).2.1

/-- The same for several expressions. -/
theorem all_mean : ∀ es : List Expr, Expr.allReadOnly names es →
    AllBitsMean cx names bound es ∧ LowBitsMean cx names bound es ∧ PartMeans cx names bound es
  | [], _ => ⟨allBits_mean_nil, lowBits_mean_nil, part_means_nil⟩
  | e :: rest, h => by
    rw [allReadOnly, Bool.and_eq_true] at h
    obtain ⟨hbits, hbit⟩ := bits_mean e h.1
    obtain ⟨hall, hlow, hpart⟩ := all_mean rest h.2
    exact ⟨allBits_mean_cons hbits hall, lowBits_mean_cons hbit hlow, part_means_cons hbit hpart⟩

end

end Expr

end NandHdl
