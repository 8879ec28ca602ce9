-- SUMMARY: A statement that calls no module adds the same fragment to two drafts, up to a map of signals, or fails on both (`elaborateStatement_mirrored`).
import NandHdl.Proofs.Renaming.Steps
import NandHdl.Proofs.Elaboration.SingleDrivers
import NandHdl.Proofs.Reordering.Widths
import NandHdl.Proofs.Reordering.Wiring

/-!
# Statements on two drafts

One statement is elaborated from two drafts whose scopes answer alike, up to a map of signals. The
values of its right-hand side are found in the same way on both sides, and what is emitted for them
has new outputs, so it is never refused. Only then is the target wired.

No module is called, so neither the program nor the depth that is left has a part in it.
-/

namespace NandHdl

open Elab

/-! ## Scopes -/

/-- The scope `s'` answers as `s` does, with other signals. -/
structure Scope.Relabeled (f : SignalId → SignalId) (s s' : Scope) : Prop where
  lookup_eq : ∀ name : String, s'.lookup? name = (s.lookup? name).map f
  buses_eq : ∀ name : String, s'.buses[name]? = s.buses[name]?
  isPort_eq : ∀ name : String, s'.isPort name = s.isPort name
  namePrefix_eq : s'.namePrefix = s.namePrefix

namespace Scope.Relabeled

variable {f g : SignalId → SignalId} {s s' s'' : Scope}

/-- A map that leaves the signals of a scope alone changes nothing in it. -/
theorem of_fixed (h : s.All fun i => f i = i) : s.Relabeled f s := by
  refine ⟨fun name => ?_, fun _ => rfl, fun _ => rfl, rfl⟩
  cases hname : s.lookup? name with
  | none => rfl
  | some i => exact congrArg some (h name i hname).symm

theorem trans (h : s.Relabeled f s') (h' : s'.Relabeled g s'') : s.Relabeled (g ∘ f) s'' where
  lookup_eq name := by rw [h'.lookup_eq, h.lookup_eq, Option.map_map]
  buses_eq name := (h'.buses_eq name).trans (h.buses_eq name)
  isPort_eq name := (h'.isPort_eq name).trans (h.isPort_eq name)
  namePrefix_eq := h'.namePrefix_eq.trans h.namePrefix_eq

variable (h : s.Relabeled f s')

include h

theorem widthOf_eq (name : String) : s'.widthOf name = s.widthOf name := by
  rw [widthOf, widthOf, Std.TreeMap.getD_eq_getD_getElem?, Std.TreeMap.getD_eq_getD_getElem?,
    h.buses_eq]

theorem isBus_eq (name : String) : s'.isBus name = s.isBus name := by
  rw [isBus, isBus, Std.TreeMap.contains_eq_isSome_getElem?,
    Std.TreeMap.contains_eq_isSome_getElem?, h.buses_eq]

theorem bits?_eq (name : String) : s'.bits? name = (s.bits? name).map (List.map f) := by
  unfold bits?
  rw [h.buses_eq]
  cases s.buses[name]? with
  | none =>
    dsimp only
    rw [h.lookup_eq, Option.map_map, Option.map_map]
    rfl
  | some width =>
    dsimp only
    generalize List.range width = positions
    induction positions with
    | nil => rfl
    | cons i rest ih =>
      rw [List.mapM_cons, List.mapM_cons, h.lookup_eq, ih]
      cases s.lookup? (bitName name i) with
      | none => rfl
      | some id =>
        cases rest.mapM fun i => s.lookup? (bitName name i) with
        | none => rfl
        | some bits => rfl

end Scope.Relabeled

/-! ## Drafts -/

namespace Draft

/-- What one sees in `b'` is what one sees in `b`, through a map of signals. -/
structure Mirrors (f : SignalId → SignalId) (b b' : Draft) : Prop where
  injective : Function.Injective f
  zero : f zeroId = zeroId
  one : f oneId = oneId
  next : ∀ j, f (b.netlist.signals.size + j) = b'.netlist.signals.size + j
  scope : b.scope.Relabeled f b'.scope
  accounted : b.Accounted
  accounted' : b'.Accounted

/-- Both drafts have gained the same fragment, up to the map of signals. -/
def Alongside (f : SignalId → SignalId) (b b' d d' : Draft) : Prop :=
  ∃ F, b.Emits d F ∧ b'.Emits d' (F.map f)

variable {f : SignalId → SignalId} {b b' d d' : Draft}

theorem Mirrors.alongside (h : b.Mirrors f b') : Alongside f b b' b b' :=
  ⟨{}, .refl h.accounted.driven_size, .refl h.accounted'.driven_size⟩

theorem Mirrors.constantBit (h : b.Mirrors f b') (value : Bool) :
    f (constantBit value) = constantBit value := by
  cases value with
  | false => exact h.zero
  | true => exact h.one

/-- Past the end of a value is the constant 0 on both sides. -/
theorem Mirrors.getD_map (h : b.Mirrors f b') (bits : Bits) (k : Nat) :
    (bits.map f).getD k zeroId = f (bits.getD k zeroId) := by
  rw [List.getD_eq_getElem?_getD, List.getD_eq_getElem?_getD, List.getElem?_map]
  cases bits[k]? with
  | none => exact h.zero.symm
  | some i => rfl

end Draft

/-! ## Steps -/

namespace Elab

variable {α β : Type} {f : SignalId → SignalId} {b b' : Draft}

/-- Both steps emit the same fragment, up to the map of signals, and the answers differ by `g`. Or
both fail. -/
abbrev Mirrored (f : SignalId → SignalId) (b b' : Draft) (g : α → α) (x y : Elab α) : Prop :=
  Together (Draft.Alongside f b b') x y fun a a' d d' => a' = g a ∧ Draft.Alongside f b b' d d'

theorem Mirrored.bind {g : α → α} {x y : Elab α} {k k' : α → Elab β}
    {Q : β → β → Draft → Draft → Prop} (hx : Mirrored f b b' g x y)
    (hk : ∀ a, Together (Draft.Alongside f b b') (k a) (k' (g a)) Q) :
    Together (Draft.Alongside f b b') (x >>= k) (y >>= k') Q := by
  refine Together.bind hx fun a a' => together_of_and ?_
  rintro rfl
  exact hk a

theorem mirrored_pure {g : α → α} {a a' : α} (h : a' = g a) :
    Mirrored f b b' g (pure a) (pure a') :=
  together_pure fun _ _ hd => ⟨h, hd⟩

/-- Both sides go on in the scopes that they started with. -/
theorem together_scope {k k' : Scope → Elab α} {Q : α → α → Draft → Draft → Prop}
    (hk : Together (Draft.Alongside f b b') (k b.scope) (k' b'.scope) Q) :
    Together (Draft.Alongside f b b') (scope >>= k) (scope >>= k') Q := by
  rintro d d' ⟨F, hd, hd'⟩
  have h := hk d d' ⟨F, hd, hd'⟩
  rw [← hd.scope_eq, ← hd'.scope_eq] at h
  exact h

section

variable (h : b.Mirrors f b')

include h

/-- A step that answers a new signal and emits a fragment for it. -/
theorem mirrored_emit {x y : Elab SignalId} {F : SignalId → Fragment} {F' : SignalId → Fragment}
    (hmap : ∀ next, F' (f next) = (F next).map f)
    (hx : ∀ d : Draft, d.driven.size = d.netlist.signals.size →
      ∃ e, x.run d = .ok (d.netlist.signals.size, e) ∧ d.Emits e (F d.netlist.signals.size))
    (hy : ∀ d : Draft, d.driven.size = d.netlist.signals.size →
      ∃ e, y.run d = .ok (d.netlist.signals.size, e) ∧ d.Emits e (F' d.netlist.signals.size)) :
    Mirrored f b b' f x y := by
  rintro d d' ⟨G, hd, hd'⟩
  obtain ⟨e, hx, he⟩ := hx d hd.driven_size
  obtain ⟨e', hy, he'⟩ := hy d' hd'.driven_size
  have hnext : f d.netlist.signals.size = d'.netlist.signals.size := by
    rw [hd.size_eq, hd'.size_eq, h.next]
    rfl
  refine .inl ⟨_, _, e, e', hx, hy, hnext.symm, G ++ F d.netlist.signals.size, hd.trans he, ?_⟩
  rw [Fragment.map_append, ← hmap, hnext]
  exact hd'.trans he'

theorem emitNand_mirrored (a c : SignalId) :
    Mirrored f b b' f (emitNand a c) (emitNand (f a) (f c)) :=
  mirrored_emit h (fun _ => rfl) (fun _ hd => emitNand_run hd a c)
    fun _ hd => emitNand_run hd (f a) (f c)

theorem emitDff_mirrored (a clk : SignalId) :
    Mirrored f b b' f (emitDff a clk) (emitDff (f a) (f clk)) :=
  mirrored_emit h (fun _ => rfl) (fun _ hd => emitDff_run hd a clk)
    fun _ hd => emitDff_run hd (f a) (f clk)

theorem bitsOf_mirrored (name : String) :
    Mirrored f b b' (List.map f) (bitsOf name) (bitsOf name) := by
  refine together_scope ?_
  rw [h.scope.bits?_eq]
  cases b.scope.bits? name with
  | none => exact together_unknownSignal
  | some bits => exact mirrored_pure rfl

theorem namedBit_mirrored (name : String) (k : Nat) :
    Mirrored f b b' f (namedBit name k) (namedBit name k) := by
  refine together_scope ?_
  rw [h.scope.isBus_eq, h.scope.widthOf_eq, h.scope.lookup_eq, h.scope.lookup_eq]
  split
  · split
    · exact mirrored_pure h.zero.symm
    · cases b.scope.lookup? (bitName name k) with
      | none => exact together_unknownSignal
      | some id => exact mirrored_pure rfl
  · cases b.scope.lookup? name with
    | none => exact together_unknownSignal
    | some id =>
      dsimp only [Option.map_some]
      split
      · exact mirrored_pure rfl
      · exact mirrored_pure h.zero.symm

end

end Elab

/-! ## Expressions -/

variable {f : SignalId → SignalId} {b b' : Draft} {cx cx' : Context}

/-- A gate or flip-flop on the low bits of its arguments. -/
theorem primitive_mirrored {low low' : Elab Bits} (hlow : Mirrored f b b' (List.map f) low low')
    {emit : SignalId → SignalId → Elab SignalId}
    (hemit : ∀ a c, Mirrored f b b' f (emit a c) (emit (f a) (f c))) :
    Mirrored f b b' (List.map f)
      (do
        match ← low with
        | [a, c] => return [← emit a c]
        | _ => throw (.fault .outOfRange))
      (do
        match ← low' with
        | [a, c] => return [← emit a c]
        | _ => throw (.fault .outOfRange)) := by
  refine hlow.bind fun ids => ?_
  match ids with
  | [a, c] => exact (hemit a c).bind fun id => mirrored_pure rfl
  | [] | [_] | _ :: _ :: _ :: _ => exact together_throw

/-- A call of a primitive. The target and the arguments as a whole are not asked for. -/
theorem call_mirrored (h : b.Mirrors f b') {callee : String}
    (hprimitive : isPrimitive callee = true) (target : Option String) (count : Nat)
    {low low' : Elab Bits}
    (hlow : Mirrored f b b' (List.map f) low low') (all all' : Elab (List Bits)) :
    Mirrored f b b' (List.map f) (cx.call callee target count low all)
      (cx'.call callee target count low' all') := by
  unfold Context.call
  by_cases hnand : callee = nandName
  · rw [if_pos hnand, if_pos hnand]
    split
    · exact together_throw_bind
    · exact primitive_mirrored hlow (emitNand_mirrored h)
  · have hdff := (isPrimitive_iff.1 hprimitive).resolve_left hnand
    rw [if_neg hnand, if_neg hnand, if_pos hdff, if_pos hdff]
    split
    · exact together_throw_bind
    · exact primitive_mirrored hlow (emitDff_mirrored h)

mutual

/-- An expression has the same bits on both sides. -/
theorem Expr.bits_mirrored (h : b.Mirrors f b') : ∀ e : Expr, e.callees = [] →
    Mirrored f b b' (List.map f) (e.bits cx) (e.bits cx')
  | .number value, _ => by
    rw [Expr.bits, Expr.bits]
    refine mirrored_pure ?_
    rw [literalBits, List.map_map]
    exact List.map_congr_left fun k _ => (h.constantBit _).symm
  | .ident name, _ => by
    rw [Expr.bits, Expr.bits]
    exact bitsOf_mirrored h name
  | .index object position, hcalls => by
    rw [Expr.bits, Expr.bits]
    exact (Expr.bit_mirrored h object hcalls position).bind fun _ => mirrored_pure rfl
  | .slice object first last, hcalls => by
    rw [Expr.bits, Expr.bits]
    split
    · exact together_throw_bind
    · refine (Expr.bits_mirrored h object hcalls).bind fun base => mirrored_pure ?_
      rw [List.map_map]
      exact List.map_congr_left fun i _ => h.getD_map base _
  | .member object field, _ => by
    rw [Expr.bits, Expr.bits]
    cases object with
    | ident name => exact bitsOf_mirrored h (memberName name field)
    | _ => exact together_throw_bind
  | .concat parts, hcalls => by
    rw [Expr.bits, Expr.bits]
    refine (Expr.bitsAll_mirrored h parts hcalls).bind fun values => mirrored_pure ?_
    rw [← List.map_reverse, List.map_flatten]
  | .call callee args, hcalls => by
    obtain ⟨hprimitive, hargs⟩ := Expr.callees_call hcalls
    rw [Expr.bits, Expr.bits]
    exact call_mirrored h hprimitive none _ (Expr.lowBits_mirrored h args hargs) _ _

/-- An expression has the same bit at a position on both sides. -/
theorem Expr.bit_mirrored (h : b.Mirrors f b') : ∀ e : Expr, e.callees = [] → ∀ k,
    Mirrored f b b' f (e.bit cx k) (e.bit cx' k)
  | .number value, _, k => by
    rw [Expr.bit, Expr.bit]
    exact mirrored_pure (h.constantBit _).symm
  | .ident name, _, k => by
    rw [Expr.bit, Expr.bit]
    exact namedBit_mirrored h name k
  | .index object position, hcalls, k => by
    rw [Expr.bit, Expr.bit]
    split
    · exact Expr.bit_mirrored h object hcalls position
    · exact mirrored_pure h.zero.symm
  | .slice object first last, hcalls, k => by
    rw [Expr.bit, Expr.bit]
    split
    · exact together_throw_bind
    · dsimp only
      split
      · exact mirrored_pure h.zero.symm
      · exact Expr.bit_mirrored h object hcalls _
  | .member object field, _, k => by
    rw [Expr.bit, Expr.bit]
    cases object with
    | ident name => exact namedBit_mirrored h (memberName name field) k
    | _ => exact together_throw_bind
  | .concat parts, hcalls, k => by
    rw [Expr.bit, Expr.bit]
    refine together_scope ?_
    have hwidths : Expr.widths b'.scope cx'.program {} parts =
        Expr.widths b.scope cx.program {} parts :=
      Expr.widths_congr hcalls fun r _ => by rw [knownWidth, knownWidth, h.scope.widthOf_eq]
    rw [hwidths]
    dsimp only
    split
    · exact Expr.bitOfPart_mirrored h parts hcalls _ _
    · exact mirrored_pure h.zero.symm
  | .call callee args, hcalls, k => by
    obtain ⟨hprimitive, hargs⟩ := Expr.callees_call hcalls
    rw [Expr.bit, Expr.bit]
    exact (call_mirrored h hprimitive none _ (Expr.lowBits_mirrored h args hargs) _ _).bind
      fun bits => mirrored_pure (h.getD_map bits k)

theorem Expr.bitsAll_mirrored (h : b.Mirrors f b') : ∀ es : List Expr, Expr.allCallees es = [] →
    Mirrored f b b' (List.map (List.map f)) (Expr.bitsAll cx es) (Expr.bitsAll cx' es)
  | [], _ => by
    rw [Expr.bitsAll, Expr.bitsAll]
    exact mirrored_pure rfl
  | e :: rest, hcalls => by
    obtain ⟨he, hrest⟩ := List.append_eq_nil_iff.1 hcalls
    rw [Expr.bitsAll, Expr.bitsAll]
    exact (Expr.bits_mirrored h e he).bind fun bits =>
      (Expr.bitsAll_mirrored h rest hrest).bind fun values => mirrored_pure rfl

theorem Expr.lowBits_mirrored (h : b.Mirrors f b') : ∀ es : List Expr, Expr.allCallees es = [] →
    Mirrored f b b' (List.map f) (Expr.lowBits cx es) (Expr.lowBits cx' es)
  | [], _ => by
    rw [Expr.lowBits, Expr.lowBits]
    exact mirrored_pure rfl
  | e :: rest, hcalls => by
    obtain ⟨he, hrest⟩ := List.append_eq_nil_iff.1 hcalls
    rw [Expr.lowBits, Expr.lowBits]
    exact (Expr.bit_mirrored h e he 0).bind fun bit =>
      (Expr.lowBits_mirrored h rest hrest).bind fun ids => mirrored_pure rfl

theorem Expr.bitOfPart_mirrored (h : b.Mirrors f b') :
    ∀ es : List Expr, Expr.allCallees es = [] → ∀ position k,
      Mirrored f b b' f (Expr.bitOfPart cx es position k) (Expr.bitOfPart cx' es position k)
  | [], _, _, _ => by
    rw [Expr.bitOfPart, Expr.bitOfPart]
    exact together_throw
  | e :: _, hcalls, 0, k => by
    rw [Expr.bitOfPart, Expr.bitOfPart]
    exact Expr.bit_mirrored h e (List.append_eq_nil_iff.1 hcalls).1 k
  | _ :: rest, hcalls, position + 1, k => by
    rw [Expr.bitOfPart, Expr.bitOfPart]
    exact Expr.bitOfPart_mirrored h rest (List.append_eq_nil_iff.1 hcalls).2 position k

end

/-! ## Statements -/

theorem Statement.bits_mirrored (h : b.Mirrors f b') {s : Statement}
    (hcalls : s.expr.callees = []) :
    Mirrored f b b' (List.map f) (s.bits cx) (s.bits cx') := by
  obtain ⟨target, e⟩ := s
  have hvalue : Mirrored f b b' (List.map f) (e.bits cx) (e.bits cx') :=
    Expr.bits_mirrored h e hcalls
  cases e with
  | call callee args =>
    obtain ⟨hprimitive, hargs⟩ := Expr.callees_call hcalls
    exact call_mirrored h hprimitive (some target) _ (Expr.lowBits_mirrored h args hargs) _ _
  | _ => exact hvalue

/-- The bits of a name are there after a fragment has been added. -/
theorem Draft.Emits.bits_lt {d : Draft} {F : Fragment} (hd : b.Emits d F) (hb : b.Accounted)
    {name : String} {bits : Bits} (h : d.scope.bits? name = some bits) :
    ∀ i ∈ bits, i < d.netlist.signals.size := by
  intro i hi
  rw [hd.scope_eq] at h
  rw [hd.size_eq]
  exact Nat.lt_add_right _ (hb.scope_known.bits? h i hi).lt

/-- A value is copied into corresponding bits by corresponding gates. -/
theorem wire_mirrored (h : b.Mirrors f b') {d d' : Draft} {F : Fragment} (hd : b.Emits d F)
    (hd' : b'.Emits d' (F.map f)) (src : Bits) {dst : Bits}
    (hdst : ∀ i ∈ dst, i < d.netlist.signals.size)
    (hdst' : ∀ i ∈ dst.map f, i < d'.netlist.signals.size) :
    ∃ G, (wire src dst).Commits d G ∧ (wire (src.map f) (dst.map f)).Commits d' (G.map f) := by
  have hnext : ∀ j, f (d.netlist.signals.size + j) = d'.netlist.signals.size + j := by
    intro j
    rw [hd.size_eq, hd'.size_eq, Nat.add_assoc, h.next, Nat.add_assoc]
    rfl
  refine ⟨_, wire_commits hd.driven_size hdst, ?_⟩
  rw [map_copiesFragment h.injective h.zero src dst hnext]
  exact wire_commits hd'.driven_size hdst'

/-- A statement fails on both sides for want of a value, or it commits to the same fragment on both
sides, up to the map of signals. -/
theorem elaborateStatement_mirrored (h : b.Mirrors f b') (cx cx' : Context) {s : Statement}
    (hcalls : s.expr.callees = []) :
    (∃ e e', (elaborateStatement cx s).run b = .error e ∧
      (elaborateStatement cx' s).run b' = .error e') ∨
    ∃ F, (elaborateStatement cx s).Commits b F ∧
      (elaborateStatement cx' s).Commits b' (F.map f) := by
  have hstatement : ∀ cx : Context, elaborateStatement cx s =
      s.bits cx >>= fun src => bitsOf s.target >>= fun dst => wire src dst := fun _ => rfl
  have hvalue : Mirrored f b b' (List.map f) (s.bits cx) (s.bits cx') :=
    Statement.bits_mirrored h hcalls
  rw [hstatement, hstatement]
  rcases hvalue b b' h.alongside with
    ⟨src, _, d, d', hsrc, hsrc', rfl, F, hd, hd'⟩ | ⟨e, e', hsrc, hsrc'⟩
  · have hbits : d'.scope.bits? s.target = (d.scope.bits? s.target).map (List.map f) := by
      rw [hd.scope_eq, hd'.scope_eq, h.scope.bits?_eq]
    cases hdst : d.scope.bits? s.target with
    | none =>
      rw [hdst] at hbits
      obtain ⟨e, he⟩ := bitsOf_error hdst
      obtain ⟨e', he'⟩ := bitsOf_error hbits
      refine .inl ⟨e, e', ?_, ?_⟩
      · rw [StateT.run_bind, hsrc, Except.ok_bind, StateT.run_bind, he]
        rfl
      · rw [StateT.run_bind, hsrc', Except.ok_bind, StateT.run_bind, he']
        rfl
    | some dst =>
      rw [hdst] at hbits
      obtain ⟨G, hwire, hwire'⟩ := wire_mirrored h hd hd' src (hd.bits_lt h.accounted hdst)
        (hd'.bits_lt h.accounted' hbits)
      refine .inr ⟨_, commits_of_run hsrc hd (commits_of_run (bitsOf_eq_ok.2 ⟨hdst, rfl⟩)
        (.refl hd.driven_size) hwire), ?_⟩
      rw [Fragment.map_append, Fragment.map_append]
      exact commits_of_run hsrc' hd' (commits_of_run (bitsOf_eq_ok.2 ⟨hbits, rfl⟩)
        (.refl hd'.driven_size) hwire')
  · refine .inl ⟨e, e', ?_, ?_⟩
    · rw [StateT.run_bind, hsrc]
      rfl
    · rw [StateT.run_bind, hsrc']
      rfl

end NandHdl
