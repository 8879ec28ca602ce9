-- SUMMARY: How many bits an elaborated expression has (`Expr.length_bits`), and when that is the width that was inferred without elaboration (`Expr.length_bits_eq_width_iff`).
import NandHdl.Proofs.Elaboration.Growth
import NandHdl.Proofs.Elaboration.Reference
import NandHdl.Proofs.Elaboration.Sizing

/-!
# Widths of elaborated expressions

The width of an expression is asked for before its calls are elaborated, and the bits come
afterwards. Two things make a difference. A module whose first output is declared with width 0 has
one bit all the same. And a call without a target makes one and binds it in the scope of the caller,
with the further outputs of the instance; the name of such a target carries the number of the
instance, so names that do not look like this keep their widths.
-/

namespace NandHdl

/-! ## Names that instances bind -/

/-- The target that an instance makes if it has none. -/
def ModuleDecl.temporary (m : ModuleDecl) (id : InstanceId) : String := m.name ++ "_" ++ toString id

/-- An instance without a target binds the name in the scope of its caller. -/
def ModuleDecl.Binds (m : ModuleDecl) (id : InstanceId) (name : String) : Prop :=
  name = m.temporary id ∨
    ∃ out ∈ m.outputs.drop 1, name = memberName (m.temporary id) out.name

/-- Some instance without a target binds the name, if instances are numbered from `size` on. -/
def Program.MayBind (p : Program) (size : Nat) (name : String) : Prop :=
  ∃ m ∈ p.modules, ∃ id, size ≤ id ∧ m.Binds id name

theorem Program.MayBind.mono {p : Program} {size size' : Nat} {name : String}
    (h : p.MayBind size' name) (hle : size ≤ size') : p.MayBind size name := by
  obtain ⟨m, hm, id, hid, hbinds⟩ := h
  exact ⟨m, hm, id, Nat.le_trans hle hid, hbinds⟩

/-- A name without an underscore is not bound. -/
theorem Program.not_mayBind {p : Program} {size : Nat} {name : String}
    (h : '_' ∉ name.toList) : ¬ p.MayBind size name := by
  rintro ⟨m, -, id, -, rfl | ⟨out, -, rfl⟩⟩
  all_goals
    refine h ?_
    simp [ModuleDecl.temporary, toList_memberName]

/-! ## Widths of names -/

theorem Scope.widthOf_bind_of_ne (s : Scope) {name x : String} (hne : x ≠ name) (bits : Bits) :
    (s.bind name bits).widthOf x = s.widthOf x := by
  have hcompare : compare name x ≠ .eq := fun h =>
    hne (Std.LawfulEqCmp.compare_eq_iff_eq.1 h).symm
  unfold bind
  split <;> simp [widthOf, Std.TreeMap.getD_insert, Std.TreeMap.getD_erase, hcompare]

/-- The second scope has further bindings of names that may be bound, and no other difference. -/
def Scope.BindsOnly (bound : String → Prop) : Scope → Scope → Prop :=
  Relation.ReflTransGen fun s s' => ∃ name bits, bound name ∧ s' = s.bind name bits

theorem Scope.BindsOnly.widthOf_eq {bound : String → Prop} {s s' : Scope} (h : s.BindsOnly bound s')
    {x : String} (hx : ¬ bound x) : s'.widthOf x = s.widthOf x := by
  induction h with
  | refl => rfl
  | tail _ hstep ih =>
    obtain ⟨name, bits, hname, rfl⟩ := hstep
    exact (widthOf_bind_of_ne _ (fun heq : x = name => hx (heq ▸ hname)) bits).trans ih

namespace Draft

/-- The scope is the same. -/
def SameScope (d d' : Draft) : Prop := d'.scope = d.scope

/-- The scope gets bindings of names that may be bound, and changes in nothing else. -/
def BindsOnly (bound : String → Prop) (d d' : Draft) : Prop := d.scope.BindsOnly bound d'.scope

/-- All names but the ones that may be bound keep their widths. -/
def SizesBut (bound : String → Prop) (d d' : Draft) : Prop :=
  ∀ x, ¬ bound x → d'.scope.widthOf x = d.scope.widthOf x

/-- All names keep their widths but those that instances without a target may bind. -/
def KeepsSizes (p : Program) (d d' : Draft) : Prop :=
  d.netlist.instances.size ≤ d'.netlist.instances.size ∧
    d.SizesBut (p.MayBind d.netlist.instances.size) d'

instance : IsPreorder Draft SameScope where
  refl _ := rfl
  trans _ _ _ h h' := Eq.trans h' h

instance (bound : String → Prop) : IsPreorder Draft (BindsOnly bound) where
  refl _ := .refl
  trans _ _ _ := .trans

instance (bound : String → Prop) : IsPreorder Draft (SizesBut bound) where
  refl _ _ _ := rfl
  trans _ _ _ h h' x hx := (h' x hx).trans (h x hx)

instance (p : Program) : IsPreorder Draft (KeepsSizes p) where
  refl _ := ⟨Nat.le_refl _, fun _ _ => rfl⟩
  trans _ _ _ h h' := ⟨Nat.le_trans h.1 h'.1, fun x hx =>
    (h'.2 x fun hbinds => hx (hbinds.mono h.1)).trans (h.2 x hx)⟩

variable {d d' : Draft}

theorem SameScope.sizesBut (h : d.SameScope d') (bound : String → Prop) : d.SizesBut bound d' :=
  fun _ _ => by rw [h]

theorem SameScope.bindsOnly (h : d.SameScope d') (bound : String → Prop) : d.BindsOnly bound d' := by
  rw [BindsOnly, h]
  exact .refl

theorem bindsOnly_bind {bound : String → Prop} {name : String} (hname : bound name) (bits : Bits) :
    d.BindsOnly bound { d with scope := d.scope.bind name bits } :=
  .single ⟨name, bits, hname, rfl⟩

theorem BindsOnly.sizesBut {bound : String → Prop} (h : d.BindsOnly bound d') :
    d.SizesBut bound d' :=
  fun _ hx => Scope.BindsOnly.widthOf_eq h hx

end Draft

open Draft

/-! ## Steps that leave the scope -/

namespace Elab

theorem newSignal_sameScope (name : String) (owner : InstanceId) :
    (newSignal name owner).Respects SameScope := by
  rintro d d' id ⟨⟩
  rfl

theorem claimDriver_sameScope (id : SignalId) : (claimDriver id).Respects SameScope := by
  intro d d' u h
  obtain ⟨-, rfl⟩ := claimDriver_eq_ok h
  rfl

theorem modifyNetlist_sameScope (f : Netlist → Netlist) :
    (modifyNetlist f).Respects SameScope :=
  respects_modifyNetlist fun _ => rfl

theorem respectsParts_sameScope : RespectsParts SameScope where
  signal := newSignal_sameScope
  driver := claimDriver_sameScope
  gate _ _ _ := modifyNetlist_sameScope _
  named _ _ := modifyNetlist_sameScope _

theorem emitDff_sameScope (d clk : SignalId) : (emitDff d clk).Respects SameScope :=
  respects_get.bind fun _ => (newSignal_sameScope _ _).bind fun q =>
    (claimDriver_sameScope q).bind fun _ => respects_get.bind fun _ =>
      (respects_ofChecked _).bind fun _ => (modifyNetlist_sameScope _).bind fun _ => respects_pure _

end Elab

open Elab

/-! ## Instances without a target -/

section

variable {d d' : Draft}

theorem bindOutputs_bindsOnly (bound : String → Prop) {target : String} (callerPrefix : String)
    (inst : Instance) (child : Scope) {outs : List Port}
    (houts : ∀ out ∈ outs, bound (memberName target out.name)) :
    (bindOutputs target callerPrefix inst child outs).Respects (BindsOnly bound) := by
  induction outs generalizing child with
  | nil => exact respects_pure _
  | cons out rest ih =>
    obtain ⟨hout, hrest⟩ := List.forall_mem_cons.1 houts
    have hsame : ∀ {d d' : Draft}, d.SameScope d' → d.BindsOnly bound d' := fun h => h.bindsOnly bound
    refine ((respectsParts_sameScope.newSignals _ _).mono fun _ _ => hsame).bind fun bits => ?_
    refine ((respectsParts_sameScope.aliasBits _ _).mono fun _ _ => hsame).bind fun _ => ?_
    exact (respects_modifyScope fun _ => bindsOnly_bind hout bits).bind fun _ => ih _ hrest

/-- The target of an instance is wide enough for its first output. -/
theorem firstOutput_of_declared {m : ModuleDecl} {target : String} {inst : Instance}
    {bits first : Bits} (hbits : d.scope.bits? target = some bits)
    (hlength : m.firstWidth ≤ bits.length)
    (h : (firstOutput m target inst).run d = .ok (first, d')) :
    first.length = m.firstWidth ∧ d' = d := by
  unfold firstOutput at h
  unfold ModuleDecl.firstWidth at hlength ⊢
  cases houts : m.outputs with
  | nil =>
    simp only [houts] at h
    obtain ⟨rfl, rfl⟩ := pure_eq_ok.1 h
    exact ⟨rfl, rfl⟩
  | cons out rest =>
    simp only [houts, List.head?_cons, Option.map_some, Option.getD_some] at h hlength ⊢
    obtain ⟨rfl, hkept⟩ := firstOutputBits_of_le hbits hlength h
    exact ⟨List.length_take_of_le hlength, hkept⟩

theorem openInstance_without_target {m : ModuleDecl} {args : List Bits} {first : Bits}
    {child : Scope} (h : (openInstance m args none).run d = .ok ((first, child), d')) :
    first.length = m.firstWidth ∧ d.BindsOnly (m.Binds d.netlist.instances.size) d' := by
  obtain ⟨_, d₁, d₂, d₃, d₄, _, _, htarget, hfirst, hparams, hout, houts⟩ := openInstance_steps h
  obtain ⟨_, _, hdeclare, htarget⟩ := bind_eq_ok.1 htarget
  obtain ⟨bits, hdeclare⟩ := discard_eq_ok hdeclare
  obtain ⟨rfl, rfl⟩ := pure_eq_ok.1 htarget
  obtain ⟨hlength, names, d₀, hmade, hmoved⟩ := declare_eq_ok hdeclare
  have hbound : d₁.scope = d.scope.bind (m.temporary d.netlist.instances.size) bits := by
    rw [hmoved, respectsParts_sameScope.newSignals _ _ _ _ _ hmade]
    rfl
  have hbits : d₁.scope.bits? (m.temporary d.netlist.instances.size) = some bits := by
    rw [hbound]
    exact Scope.bits?_bind_self (ne_nil_of_length hlength)
  have hfits : m.firstWidth ≤ bits.length := hlength ▸ Nat.le_max_right _ _
  obtain ⟨hwidth, rfl⟩ := firstOutput_of_declared hbits hfits hfirst
  have hcaller := bindOutputs_bindsOnly (m.Binds d.netlist.instances.size) _ _ _
    (fun out hmem => .inr ⟨out, hmem, rfl⟩) _ _ _ houts
  have hsame : d₄.scope = d₂.scope :=
    (respectsParts_sameScope.bindFirst _ _ _ _ _ _ _ hout).trans
      (respectsParts_sameScope.bindParams _ _ _ _ _ _ _ hparams)
  rw [BindsOnly, hsame, hbound] at hcaller
  exact ⟨hwidth, .head ⟨_, bits, .inl rfl, rfl⟩ hcaller⟩

/-- An instance without a target has as many bits as its first output, and it binds nothing but its
target and further outputs. Its body leaves no trace in the scope of the caller. -/
theorem instantiate_without_target {m : ModuleDecl} {args : List Bits} {body : Elab Unit}
    {first : Bits} (h : (instantiate m args none body).run d = .ok (first, d')) :
    first.length = m.firstWidth ∧ d.BindsOnly (m.Binds d.netlist.instances.size) d' := by
  obtain ⟨child, d₁, d₂, hopen, -, rfl⟩ := instantiate_eq_ok h
  obtain ⟨hlength, hbinds⟩ := openInstance_without_target hopen
  exact ⟨hlength, hbinds⟩

end

/-! ## Expressions -/

variable {program : Program} {limit depth : Nat}

/-- Expressions keep the widths of names that no instance binds. -/
theorem contextAt_keepsSizes (program : Program) (limit depth : Nat) :
    (contextAt program limit depth).Respects (KeepsSizes program) := by
  have hgrows := contextAt_grows program limit depth
  refine ⟨fun a b d d' out h => ?_, fun a clk d d' q h => ?_, ?_⟩
  · exact ⟨(hgrows.nand a b d d' out h).instances_le,
      SameScope.sizesBut (respectsParts_sameScope.emitNand a b d d' out h) _⟩
  · exact ⟨(hgrows.dff a clk d d' q h).instances_le,
      SameScope.sizesBut (emitDff_sameScope a clk d d' q h) _⟩
  · intro expand hexpand callee m hfind args d d' first h
    refine ⟨(hgrows.expand expand hexpand callee m hfind args d d' first h).instances_le,
      fun x hx => ?_⟩
    rw [contextAt_program] at hfind
    obtain ⟨k, rfl, rfl⟩ := contextAt_expand hexpand
    refine (instantiate_without_target h).2.sizesBut x fun hbinds => hx ?_
    exact ⟨m, List.mem_of_find?_eq_some hfind, _, Nat.le_refl _, hbinds⟩

section

variable {d d' : Draft}

/-- A call has as many bits as are inferred for it, with at least one for a first output. -/
theorem length_call {callee : String} {count : Nat} {low : Elab Bits} {all : Elab (List Bits)}
    {bits : Bits}
    (h : ((contextAt program limit depth).call callee none count low all).run d = .ok (bits, d')) :
    bits.length = callWidth program.raised callee := by
  cases hprimitive : isPrimitive callee with
  | true =>
    rw [callWidth_of_primitive hprimitive]
    obtain ⟨-, a, b, d₁, out, -, rfl, -⟩ := Expr.call_primitive hprimitive h
    rfl
  | false =>
    obtain ⟨m, _, values, d₁, hfind, hexpand, -, -, h⟩ := Expr.call_module hprimitive h
    obtain ⟨k, rfl, rfl⟩ := contextAt_expand hexpand
    rw [contextAt_program] at hfind
    rw [callWidth_raised hprimitive hfind]
    exact (instantiate_without_target h).1

mutual

/-- An elaborated expression is as wide as inferred beforehand, if first outputs count as one bit at
least. -/
theorem Expr.length_bits : ∀ (e : Expr) {d d' : Draft} {bits : Bits},
    (e.bits (contextAt program limit depth)).run d = .ok (bits, d') →
    (∀ r ∈ e.sizing, ¬ program.MayBind d.netlist.instances.size r.text) →
      bits.length = e.width d.scope program.raised {}
  | .number value, _, _, _, h, _ => by
    rw [Expr.bits] at h
    obtain ⟨rfl, rfl⟩ := pure_eq_ok.1 h
    simp [literalBits, Expr.width]
  | .ident name, _, _, _, h, _ => by
    rw [Expr.bits] at h
    obtain ⟨hbits, rfl⟩ := bitsOf_eq_ok.1 h
    rw [Scope.length_of_bits? hbits, Expr.width, knownWidth_empty]
  | .index _ _, _, _, _, h, _ => by
    rw [Expr.bits] at h
    obtain ⟨id, d₁, -, h⟩ := bind_eq_ok.1 h
    obtain ⟨rfl, rfl⟩ := pure_eq_ok.1 h
    rfl
  | .slice object first last, _, _, _, h, _ => by
    rw [Expr.bits] at h
    split at h
    · obtain ⟨_, _, hthrow, -⟩ := bind_eq_ok.1 h
      exact absurd hthrow throw_ne_ok
    · obtain ⟨base, d₁, -, h⟩ := bind_eq_ok.1 h
      obtain ⟨rfl, rfl⟩ := pure_eq_ok.1 h
      simp [Expr.width]
  | .member object field, _, _, _, h, _ => by
    rw [Expr.bits] at h
    obtain ⟨name, d₁, hname, h⟩ := bind_eq_ok.1 h
    cases object with
    | ident object =>
      obtain ⟨rfl, rfl⟩ := pure_eq_ok.1 hname
      obtain ⟨hbits, rfl⟩ := bitsOf_eq_ok.1 h
      rw [Scope.length_of_bits? hbits, Expr.width, knownWidth_empty]
    | _ => exact absurd hname throw_ne_ok
  | .concat parts, _, _, _, h, hfresh => by
    rw [Expr.bits] at h
    obtain ⟨values, d₁, hvalues, h⟩ := bind_eq_ok.1 h
    obtain ⟨rfl, rfl⟩ := pure_eq_ok.1 h
    rw [Expr.width, ← Expr.lengths_bitsAll parts hvalues hfresh, List.length_flatten,
      List.map_reverse, List.sum_reverse]
    rfl
  | .call callee args, _, _, _, h, _ => by
    rw [Expr.bits] at h
    exact length_call h

/-- The same for several expressions. The calls of one leave the widths of the others alone. -/
theorem Expr.lengths_bitsAll : ∀ (es : List Expr) {d d' : Draft} {values : List Bits},
    (Expr.bitsAll (contextAt program limit depth) es).run d = .ok (values, d') →
    (∀ r ∈ Expr.allSizing es, ¬ program.MayBind d.netlist.instances.size r.text) →
      values.map List.length = Expr.widths d.scope program.raised {} es
  | [], _, _, _, h, _ => by
    rw [Expr.bitsAll] at h
    obtain ⟨rfl, rfl⟩ := pure_eq_ok.1 h
    rfl
  | e :: rest, d, _, _, h, hfresh => by
    rw [Expr.bitsAll] at h
    obtain ⟨bits, d₁, hbits, h⟩ := bind_eq_ok.1 h
    obtain ⟨more, d₂, hmore, h⟩ := bind_eq_ok.1 h
    obtain ⟨rfl, rfl⟩ := pure_eq_ok.1 h
    obtain ⟨hsize, hkeeps⟩ :=
      Expr.bits_respects (contextAt_keepsSizes program limit depth) e _ _ _ hbits
    have hlater := fun r hr => hfresh r (List.mem_append_right _ hr)
    have hwidths : Expr.widths d₁.scope program.raised {} rest =
        Expr.widths d.scope program.raised {} rest :=
      Expr.widths_eq_of_sizing (fun _ _ => rfl) fun r hr => by
        rw [knownWidth_empty, knownWidth_empty, hkeeps _ (hlater r hr)]
    rw [List.map_cons, Expr.widths,
      Expr.length_bits e hbits fun r hr => hfresh r (List.mem_append_left _ hr),
      Expr.lengths_bitsAll rest hmore fun r hr hbinds => hlater r hr (hbinds.mono hsize), hwidths]

end

theorem Expr.bitOfPart_eq {cx : Context} {parts : List Expr} {i : Nat} {part : Expr}
    (h : parts[i]? = some part) (k : Nat) : Expr.bitOfPart cx parts i k = part.bit cx k := by
  induction parts generalizing i with
  | nil => exact nomatch h
  | cons e rest ih =>
    cases i with
    | zero =>
      cases h
      rw [Expr.bitOfPart]
    | succ i =>
      rw [Expr.bitOfPart]
      exact ih h

/-- With widths that are the lengths of the values, a bit of a concatenation is looked up in the
part that has it, and past the end there is nothing but 0. -/
theorem Expr.bit_concat {cx : Context} {parts : List Expr} {values : List Bits}
    (hwidths : Expr.widths d.scope cx.program {} parts = values.map List.length) (k : Nat) :
    if k < values.reverse.flatten.length then
      ∃ (i offset : Nat) (part : Expr) (value : Bits),
        parts[i]? = some part ∧ values[i]? = some value ∧ offset < value.length ∧
          values.reverse.flatten.getD k zeroId = value.getD offset zeroId ∧
          (Expr.bit cx (.concat parts) k).run d = (part.bit cx offset).run d
    else (Expr.bit cx (.concat parts) k).run d = .ok (zeroId, d) := by
  have hlength : values.reverse.flatten.length = (values.map List.length).sum := by
    rw [List.length_flatten, List.map_reverse, List.sum_reverse]
  have hcount : parts.length = values.length := by
    rw [← Expr.length_widths d.scope cx.program {} parts, hwidths, List.length_map]
  have hvalue := getD_reverse_flatten values k zeroId
  rw [Expr.run_bit_concat hwidths, hlength]
  cases hlocate : locateConcatBit (values.map List.length) k with
  | none => rw [if_neg (Nat.not_lt.2 (locateConcatBit_eq_none.1 hlocate))]; rfl
  | some found =>
    obtain ⟨i, offset⟩ := found
    obtain ⟨w, hw, hoffset, -⟩ := locateConcatBit_eq_some.1 hlocate
    have hlt : k < (values.map List.length).sum := by
      by_contra hge
      exact nomatch hlocate.symm.trans (locateConcatBit_eq_none.2 (Nat.not_lt.1 hge))
    obtain ⟨value, hfound, rfl⟩ : ∃ value, values[i]? = some value ∧ value.length = w := by
      rw [List.getElem?_map] at hw
      exact Option.map_eq_some_iff.1 hw
    have hi : i < parts.length := hcount ▸ (List.getElem?_eq_some_iff.1 hfound).1
    rw [if_pos hlt]
    refine ⟨i, offset, parts[i], value, List.getElem?_eq_getElem hi, hfound, hoffset, ?_, ?_⟩
    · rw [hvalue, hlocate]
      simp only [List.getD_eq_getElem?_getD, hfound, Option.getD_some]
    · exact congrArg (·.run d) (Expr.bitOfPart_eq (List.getElem?_eq_getElem hi) offset)

/-- Elaboration answers as many bits as were inferred for the expression with one bit at least for
each first output. Without that, the inferred width is right exactly if no part of the expression
calls a module that declares its first output with width 0. Then the bits of a concatenation are
also looked up where elaboration puts them. -/
theorem Expr.length_bits_eq_width_iff {e : Expr} {bits : Bits}
    (h : (e.bits (contextAt program limit depth)).run d = .ok (bits, d'))
    (hunbound : ∀ r ∈ e.sizing, ¬ program.MayBind d.netlist.instances.size r.text) :
    bits.length = e.width d.scope program.raised {} ∧
      (bits.length = e.width d.scope program {} ↔
        ∀ callee ∈ e.sizingCalls, ¬ program.DeclaresEmpty callee) ∧
      ∀ parts, e = .concat parts → (∀ callee ∈ e.sizingCalls, ¬ program.DeclaresEmpty callee) →
        ∃ values, (Expr.bitsAll (contextAt program limit depth) parts).run d = .ok (values, d') ∧
          bits = values.reverse.flatten ∧
          ∀ k, if k < bits.length then
              ∃ (i offset : Nat) (part : Expr) (value : Bits),
                parts[i]? = some part ∧ values[i]? = some value ∧ offset < value.length ∧
                  bits.getD k zeroId = value.getD offset zeroId ∧
                  (e.bit (contextAt program limit depth) k).run d =
                    (part.bit (contextAt program limit depth) offset).run d
            else (e.bit (contextAt program limit depth) k).run d = .ok (zeroId, d) := by
  have hlength := Expr.length_bits e h hunbound
  refine ⟨hlength, ?_, ?_⟩
  · rw [hlength, eq_comm, Expr.width_eq_iff fun c => (callWidth_le_raised program c).1]
    exact forall₂_congr fun c _ => (callWidth_le_raised program c).2
  · rintro parts rfl hcalls
    rw [Expr.bits] at h
    obtain ⟨values, d₁, hvalues, h⟩ := bind_eq_ok.1 h
    obtain ⟨rfl, rfl⟩ := pure_eq_ok.1 h
    refine ⟨values, hvalues, rfl, Expr.bit_concat ?_⟩
    rw [contextAt_program, Expr.lengths_bitsAll parts hvalues hunbound]
    exact Expr.widths_eq_of_sizing
      (fun c hc => (callWidth_le_raised program c).2.2 (hcalls c hc)) fun _ _ => rfl

end

/-- A copy above its original, if `m` copies its parameter. -/
def copyAboveOriginal : Expr := .concat [.call "m" [.ident "x"], .ident "x"]

/-- Has both bits as `y`, and the higher one as `z`. -/
def copying : ModuleDecl where
  name := "top"
  params := [{ name := "x" }]
  outputs := [{ name := "y", width := 2 }, { name := "z" }]
  statements := [
    { target := "y", expr := .slice copyAboveOriginal 0 1 },
    { target := "z", expr := .index copyAboveOriginal 1 }]

/-- The output of the module that copies has a declared width. -/
def copyOfWidth (width : Nat) : Program where
  modules := [
    { name := "m"
      params := [{ name := "a" }]
      outputs := [{ name := "o", width }]
      statements := [{ target := "o", expr := .ident "a" }] },
    copying]

theorem length_bits_eq_width_iff_copy :
    ∃ d bits d', (openTop copying).run (.empty "top") = .ok ((), d) ∧
      (copyAboveOriginal.bits (contextAt (copyOfWidth 2) 64 64)).run d = .ok (bits, d') ∧
      (∀ r ∈ copyAboveOriginal.sizing,
        ¬ (copyOfWidth 2).MayBind d.netlist.instances.size r.text) ∧
      bits.length = 3 ∧ bits.length = copyAboveOriginal.width d.scope (copyOfWidth 2) {} := by
  have hruns : (match (openTop copying).run (.empty "top") with
      | .error _ => false
      | .ok (_, d) =>
        match (copyAboveOriginal.bits (contextAt (copyOfWidth 2) 64 64)).run d with
        | .error _ => false
        | .ok (bits, _) => decide (bits.length = 3)) = true := by decide +kernel
  have hunbound : ∀ size, ∀ r ∈ copyAboveOriginal.sizing,
      ¬ (copyOfWidth 2).MayBind size r.text :=
    fun size r hr => List.mem_singleton.1 hr ▸ Program.not_mayBind (by decide)
  have hdeclared : ∀ callee ∈ copyAboveOriginal.sizingCalls,
      ¬ (copyOfWidth 2).DeclaresEmpty callee := by
    intro callee hcallee
    obtain rfl := List.mem_singleton.1 hcallee
    rintro ⟨-, m, out, hm, hout, hwidth⟩
    cases hm
    cases hout
    exact nomatch hwidth
  split at hruns
  · exact nomatch hruns
  · next d hopen =>
    split at hruns
    · exact nomatch hruns
    · next bits d' hbits =>
      refine ⟨d, bits, d', hopen, hbits, hunbound _, of_decide_eq_true hruns, ?_⟩
      exact (Expr.length_bits_eq_width_iff hbits (hunbound _)).2.1.2 hdeclared

/-- Without a width for the output, one bit is inferred for the two that there are, and the higher
bit is 0 if it is looked up alone. -/
theorem length_bits_of_copy_without_width :
    ∃ d bits d', (openTop copying).run (.empty "top") = .ok ((), d) ∧
      (copyAboveOriginal.bits (contextAt (copyOfWidth 0) 64 64)).run d = .ok (bits, d') ∧
      bits.length = 2 ∧ copyAboveOriginal.width d.scope (copyOfWidth 0) {} = 1 ∧
      bits.getD 1 zeroId ≠ zeroId ∧
      (copyAboveOriginal.bit (contextAt (copyOfWidth 0) 64 64) 1).run d = .ok (zeroId, d) := by
  have hruns : (match (openTop copying).run (.empty "top") with
      | .error _ => false
      | .ok (_, d) =>
        match (copyAboveOriginal.bits (contextAt (copyOfWidth 0) 64 64)).run d with
        | .error _ => false
        | .ok (bits, _) =>
          decide (bits.length = 2 ∧ copyAboveOriginal.width d.scope (copyOfWidth 0) {} = 1 ∧
            bits.getD 1 zeroId ≠ zeroId)) = true := by decide +kernel
  split at hruns
  · exact nomatch hruns
  · next d hopen =>
    split at hruns
    · exact nomatch hruns
    · next bits d' hbits =>
      obtain ⟨hlength, hwidth, hcopy⟩ := of_decide_eq_true hruns
      refine ⟨d, bits, d', hopen, hbits, hlength, hwidth, hcopy, ?_⟩
      have hpast : locateConcatBit
          (Expr.widths d.scope (copyOfWidth 0) {} [.call "m" [.ident "x"], .ident "x"]) 1 = none :=
        locateConcatBit_eq_none.2 (Nat.le_of_eq hwidth)
      rw [copyAboveOriginal, Expr.run_bit_concat rfl, contextAt_program, hpast]
      rfl

-- The instance takes the name `m_1` from a bus of two bits before the bus is read.
example :
    let program : Program := { modules := [{ name := "m", outputs := [{ name := "o" }] }] }
    let e : Expr := .concat [.call "m" [], .ident "m_1"]
    let scope := (Scope.top "top").bind "m_1" [2, 3]
    (e.width scope program {},
      (match (e.bits (contextAt program 1 1)).run { netlist := .empty "top", scope } with
      | .ok (bits, _) => some bits.length
      | .error _ => none)) = (3, some 2) := by
  decide +kernel

end NandHdl
