-- SUMMARY: If elaboration succeeds, every name and every call that it has asked for is resolved (`elaborate_resolves`), and so is all of an expression of which it passes over nothing (`Expr.Thorough`).
import NandHdl.Proofs.Elaboration.Nesting

/-!
# Resolved names and calls

A name that is not bound, a call of a module that is not there and a call with the wrong number of
arguments are errors when elaboration gets to them. It does not get to the parts that are passed over:
the other parts of a concatenation of which one bit is asked for, and the objects of indices and slices
that are asked past their ends. They may hold any name and any call.
-/

namespace NandHdl

open Elab Draft

/-! ## Parts of expressions -/

namespace Expr

/-- The second expression stands directly in the first one. -/
inductive HasPart : Expr → Expr → Prop
  | index {e : Expr} {i : Nat} : HasPart (.index e i) e
  | slice {e : Expr} {first last : Nat} : HasPart (.slice e first last) e
  | member {e : Expr} {field : String} : HasPart (.member e field) e
  | concat {parts : List Expr} {e : Expr} (he : e ∈ parts) : HasPart (.concat parts) e
  | call {callee : String} {args : List Expr} {e : Expr} (he : e ∈ args) :
      HasPart (.call callee args) e

/-- The second expression occurs in the first one, anywhere. -/
abbrev Contains : Expr → Expr → Prop := Relation.ReflTransGen HasPart

/-- Asked for a bit of the expression, or for all of them, elaboration passes over none of its
parts. -/
inductive Thorough : Expr → Option Nat → Prop
  | number {value : UInt64} {bit : Option Nat} : Thorough (.number value) bit
  | ident {name : String} {bit : Option Nat} : Thorough (.ident name) bit
  | member {e : Expr} {field : String} {bit : Option Nat} : Thorough (.member e field) bit
  | index {e : Expr} {i : Nat} (he : Thorough e (some i)) : Thorough (.index e i) none
  | indexBit {e : Expr} {i : Nat} (he : Thorough e (some i)) : Thorough (.index e i) (some 0)
  | slice {e : Expr} {first last : Nat} (he : Thorough e none) : Thorough (.slice e first last) none
  | sliceBit {e : Expr} {first last k : Nat} (hk : k ≤ last - first)
      (he : Thorough e (some (first + k))) : Thorough (.slice e first last) (some k)
  | concat {parts : List Expr} (hparts : ∀ e ∈ parts, Thorough e none) :
      Thorough (.concat parts) none
  | primitive {callee : String} {args : List Expr} {bit : Option Nat}
      (hcallee : isPrimitive callee = true) (hargs : ∀ e ∈ args, Thorough e (some 0)) :
      Thorough (.call callee args) bit
  | inst {callee : String} {args : List Expr} {bit : Option Nat}
      (hcallee : isPrimitive callee = false) (hargs : ∀ e ∈ args, Thorough e none) :
      Thorough (.call callee args) bit

/-- What the outermost operation of an expression refers to is there: the name is bound, or the member
of a name; or the call has as many arguments as it takes. -/
def Resolved (p : Program) (s : Scope) : Expr → Prop
  | .ident name => ∃ bits, s.bits? name = some bits
  | .member object field =>
    ∃ t, object = .ident t ∧ ∃ bits, s.bits? (memberName t field) = some bits
  | .call callee args =>
    if isPrimitive callee then args.length = 2
    else ∃ m, p.find? callee = some m ∧ args.length = m.params.length
  | .number _ | .index _ _ | .slice _ _ _ | .concat _ => True

variable {p : Program} {s s' : Scope} {e e' : Expr}

/-- What is resolved stays so. -/
theorem Resolved.mono (h : e.Resolved p s) (hs : s.Full) (hbecomes : s.Becomes p s') :
    e.Resolved p s' := by
  have hbound : ∀ {x : String}, (∃ bits, s.bits? x = some bits) → ∃ bits, s'.bits? x = some bits :=
    fun hx => (hbecomes.full hs).bound_iff.2 (hbecomes.has (hs.bound_iff.1 hx))
  cases e with
  | ident name => exact hbound h
  | member object field =>
    obtain ⟨t, hobject, ht⟩ := h
    exact ⟨t, hobject, hbound ht⟩
  | call callee args => exact h
  | _ => trivial

theorem contains_ident {name : String} (h : (ident name).Contains e) : e = .ident name := by
  induction h with
  | refl => rfl
  | tail _ hpart ih =>
    subst ih
    cases hpart

end Expr

/-! ## Queries that are answered -/

namespace Query

variable {cx : Context} {q : Query} {e e' : Expr} {bit : Option Nat} {target : Option String}
  {d d' : Draft}

theorem memberOf_eq_ok {object : Expr} {field name : String}
    (h : (memberOf object field).run d = .ok (name, d')) :
    ∃ t, object = .ident t ∧ name = memberName t field ∧ d' = d := by
  unfold memberOf at h
  split at h
  · next t =>
    obtain ⟨rfl, rfl⟩ := pure_eq_ok.1 h
    exact ⟨t, rfl, rfl, rfl⟩
  · exact absurd h throw_ne_ok

/-- An answer needs the outermost operation resolved. -/
theorem Answered.resolved (hfull : q.draft.scope.Full) (h : q.Answered cx target d') :
    q.expr.Resolved cx.program q.draft.scope := by
  obtain ⟨expr, bit, d⟩ := q
  cases expr with
  | ident name =>
    cases bit with
    | none =>
      obtain ⟨bits, h⟩ := h
      simp only [run, Expr.bits] at h
      obtain ⟨hbits, -⟩ := bitsOf_eq_ok.1 h
      exact ⟨bits, hbits⟩
    | some k =>
      obtain ⟨id, h⟩ := bit_of_answered (fun _ _ h => Expr.noConfusion h) h
      rw [Expr.bit] at h
      exact hfull.bound_iff.2 (namedBit_has hfull h)
  | member object field =>
    cases bit with
    | none =>
      obtain ⟨bits, h⟩ := h
      simp only [run, Expr.bits] at h
      obtain ⟨name, d₁, hname, h⟩ := bind_eq_ok.1 h
      obtain ⟨t, rfl, rfl, rfl⟩ := memberOf_eq_ok hname
      obtain ⟨hbits, -⟩ := bitsOf_eq_ok.1 h
      exact ⟨t, rfl, bits, hbits⟩
    | some k =>
      obtain ⟨id, h⟩ := bit_of_answered (fun _ _ h => Expr.noConfusion h) h
      rw [Expr.bit] at h
      obtain ⟨name, d₁, hname, h⟩ := bind_eq_ok.1 h
      obtain ⟨t, rfl, rfl, rfl⟩ := memberOf_eq_ok hname
      exact ⟨t, rfl, hfull.bound_iff.2 (namedBit_has hfull h)⟩
  | call callee args =>
    obtain ⟨bits, h⟩ := h
    rw [run] at h
    cases hcallee : isPrimitive callee with
    | true =>
      obtain ⟨hcount, -⟩ := Expr.call_primitive hcallee h
      rwa [Expr.Resolved, hcallee, if_pos rfl]
    | false =>
      obtain ⟨m, -, -, -, hfind, -, hlength, -⟩ := Expr.call_module hcallee h
      rw [Expr.Resolved, hcallee, if_neg Bool.false_ne_true]
      exact ⟨m, hfind, hlength⟩
  | _ => trivial

end Query

/-! ## Expressions that are asked for as a whole -/

namespace Expr

variable {cx : Context} {e e' : Expr} {bit : Option Nat} {target : Option String} {d d' : Draft}

/-- A part is asked for, or it is the object of a member. -/
theorem Thorough.part (h : e.Thorough bit) (hq : Query.Answered cx target ⟨e, bit, d⟩ d')
    (hpart : e.HasPart e') :
    (∃ bit' d₁, Query.Asks cx ⟨e, bit, d⟩ ⟨e', bit', d₁⟩ ∧ e'.Thorough bit') ∨
      ∃ field, e = .member e' field := by
  cases hpart with
  | index =>
    cases h with
    | index he => exact .inl ⟨_, d, .index, he⟩
    | indexBit he => exact .inl ⟨_, d, .indexBit, he⟩
  | slice =>
    cases h with
    | slice he => exact .inl ⟨_, d, .slice, he⟩
    | sliceBit hk he => exact .inl ⟨_, d, .sliceBit hk, he⟩
  | member => exact .inr ⟨_, rfl⟩
  | concat he =>
    cases h with
    | concat hparts =>
      obtain ⟨bits, h⟩ := hq
      simp only [Query.run, Expr.bits] at h
      obtain ⟨values, d₁, hvalues, -⟩ := bind_eq_ok.1 h
      obtain ⟨before, after, rfl⟩ := List.append_of_mem he
      rw [bitsAll_eq_mapM] at hvalues
      obtain ⟨_, d₂, _, hbefore, -, -⟩ := mapM_append_eq_ok.1 hvalues
      rw [← bitsAll_eq_mapM] at hbefore
      exact .inl ⟨_, d₂, .part hbefore, hparts e' he⟩
  | call he =>
    obtain ⟨bits, hrun⟩ := hq
    rw [Query.run] at hrun
    obtain ⟨before, after, rfl⟩ := List.append_of_mem he
    cases h with
    | primitive hcallee hargs =>
      obtain ⟨-, a, b, d₁, out, hids, -⟩ := call_primitive hcallee hrun
      rw [lowBits_eq_mapM] at hids
      obtain ⟨_, d₂, _, hbefore, -, -⟩ := mapM_append_eq_ok.1 hids
      rw [← lowBits_eq_mapM] at hbefore
      exact .inl ⟨_, d₂, .low hcallee hbefore, hargs e' he⟩
    | inst hcallee hargs =>
      obtain ⟨m, expand, values, d₁, -, -, -, hvalues, -⟩ := call_module hcallee hrun
      rw [bitsAll_eq_mapM] at hvalues
      obtain ⟨_, d₂, _, hbefore, -, -⟩ := mapM_append_eq_ok.1 hvalues
      rw [← bitsAll_eq_mapM] at hbefore
      exact .inl ⟨_, d₂, .arg hcallee hbefore, hargs e' he⟩

variable {R : Draft → Draft → Prop} [IsPreorder Draft R]

/-- Whatever occurs in the expression is asked for, or it is the object of a member that is. -/
theorem Thorough.asked (hcx : cx.Respects R) (h : e.Thorough bit)
    (htarget : cx.RespectsFor target R)
    (hq : Query.Answered cx target ⟨e, bit, d⟩ d') (hcontains : e.Contains e') :
    ∃ q, Query.Leads cx ⟨e, bit, d⟩ q ∧
      (q.expr = e' ∨ ∃ t field, e' = .ident t ∧ q.expr = .member e' field) := by
  induction hcontains using Relation.ReflTransGen.head_induction_on
    generalizing bit target d d' with
  | refl => exact ⟨_, .refl, .inl rfl⟩
  | @head e e₁ hpart hrest ih =>
    rcases h.part hq hpart with ⟨bit₁, d₁, hasks, hthorough⟩ | ⟨field, rfl⟩
    · obtain ⟨d₂, hanswered, -⟩ := hasks.answered hcx htarget hq
      obtain ⟨q, hleads, hexpr⟩ := ih hthorough hcx.expand hanswered
      exact ⟨q, .head hasks hleads, hexpr⟩
    · -- Only a name can stand before the point, and a name has no parts.
      have hobject : ∃ t, e₁ = .ident t := by
        cases bit with
        | none =>
          obtain ⟨bits, hrun⟩ := hq
          simp only [Query.run, Expr.bits] at hrun
          obtain ⟨name, d₁, hname, -⟩ := bind_eq_ok.1 hrun
          obtain ⟨t, rfl, -⟩ := Query.memberOf_eq_ok hname
          exact ⟨t, rfl⟩
        | some k =>
          obtain ⟨id, hrun⟩ := Query.bit_of_answered (fun _ _ h => Expr.noConfusion h) hq
          rw [Expr.bit] at hrun
          obtain ⟨name, d₁, hname, -⟩ := bind_eq_ok.1 hrun
          obtain ⟨t, rfl, -⟩ := Query.memberOf_eq_ok hname
          exact ⟨t, rfl⟩
      obtain ⟨t, rfl⟩ := hobject
      exact ⟨_, .refl, .inr ⟨t, field, contains_ident hrest, by rw [contains_ident hrest]⟩⟩

end Expr

/-! ## Objects of members -/

/-- Where a further output is bound, so is what it is an output of. -/
def Scope.Rooted (s : Scope) : Prop := ∀ t field, s.Has (memberName t field) → s.Has t

variable {program : Program}

theorem Scope.Rooted.bind {s : Scope} (h : s.Rooted) {x : String}
    (hx : ∀ t field i, memberName t field = x ∨ memberName t field = bitName x i → s.Has t)
    (bits : Bits) : (s.bind x bits).Rooted := by
  intro t field hhas
  rcases hhas.of_bind with hbefore | heq | ⟨i, heq⟩
  · exact (h t field hbefore).bind x bits
  · exact (hx t field 0 (.inl heq)).bind x bits
  · exact (hx t field i (.inr heq)).bind x bits

theorem Scope.Rooted.bind_plain {s : Scope} (h : s.Rooted) {x : String} (hx : PlainName x)
    (bits : Bits) : (s.bind x bits).Rooted := by
  refine h.bind (fun t field i heq => ?_) bits
  have hpoint : '.' ∈ (memberName t field).toList := by simp [toList_memberName]
  rcases heq with heq | heq
  · exact absurd (heq ▸ hpoint) hx.2
  · exact absurd (heq ▸ hpoint) (not_mem_bitName rfl (by decide) (by decide) hx.2 i)

theorem Scope.rooted_invariant (hnames : program.PlainNames) :
    Invariant program fun s => s.Full ∧ s.Rooted where
  full h := h.1
  bind bits hx h := by
    refine ⟨h.1.bind _ bits, ?_⟩
    cases hx with
    | target hx hport => exact h.2.bind_plain (hnames.target (.inl hx)) bits
    | temporary hx => exact h.2.bind_plain (hnames.target (.inr hx)) bits
    | @member t m out ht hbound hm hout =>
      have hplain := hnames.target ht
      have hfield := hnames.port hm (List.mem_append_right _ hout)
      refine h.2.bind (fun t' field i heq => ?_) bits
      have hroot : t' = t := by
        rcases heq with heq | heq
        · exact memberName_left_inj hplain.2 hfield.2 heq
        · rw [bitName_memberName] at heq
          exact memberName_left_inj hplain.2
            (not_mem_bitName rfl (by decide) (by decide) hfield.2 i) heq
      exact hroot ▸ hbound
  child _ _ _ h := h
  port m hm q hq s bits h := ⟨h.1.bind q.name bits, h.2.bind_plain (hnames.port hm hq) bits⟩

theorem Scope.rooted_constants (top : String) : (Draft.constants top).scope.Rooted := by
  have htop : (Scope.top top).Rooted := by
    rintro t field ⟨id, hid⟩
    rw [Scope.lookup?, Scope.top, Std.TreeMap.getElem?_emptyc] at hid
    exact absurd hid.symm (Option.some_ne_none id)
  exact (htop.bind_plain (by decide) [zeroId]).bind_plain (by decide) [oneId]

/-! ## Elaborated programs -/

variable {limit depth : Nat} {top : String} {m : ModuleDecl} {start finish d : Draft}
  {before after : List Statement} {s : Statement}

section

variable (hrun : NestedRun program limit top depth m start finish)
  (hsplit : m.statements = before ++ s :: after)
  (harrives : m.Arrives (contextAt program limit depth) start before d)

include hrun hsplit harrives

theorem NestedRun.becomes_query {q : Query}
    (hq : Query.Leads (contextAt program limit depth) ⟨s.expr, none, d⟩ q) :
    start.scope.Becomes program q.draft.scope := by
  have hd := harrives.takesOnly hrun.mem hsplit hrun.full
  exact hd.trans (hq.related (contextAt_takesOnly program limit depth) (hd.full hrun.full))

/-- What elaboration asks for is resolved, and it stays so until the body is done. -/
theorem NestedRun.resolved {q : Query}
    (hq : Query.Leads (contextAt program limit depth) ⟨s.expr, none, d⟩ q) :
    q.expr.Resolved program q.draft.scope ∧ q.draft.scope.Becomes program finish.scope := by
  have hfull := (hrun.becomes_query hsplit harrives hq).full hrun.full
  have htarget := Program.HasTarget.of_split hrun.mem hsplit
  obtain ⟨d', hanswered, hfinish⟩ := harrives.answered hrun.mem hsplit hrun.body
  obtain ⟨⟨t, d₁, hq₁⟩, hrest⟩ := hq.answered (contextAt_takesOnly program limit depth)
    (contextAt_takesOnly_for htarget.of_some) hanswered
  have hresolved := hq₁.resolved hfull
  rw [contextAt_program] at hresolved
  have hbecomes := hrest hfull
  exact ⟨hresolved, hbecomes.trans (hfinish (hbecomes.full hfull))⟩

/-- So is all of an expression of which nothing is passed over. -/
theorem NestedRun.resolved_of_thorough (hnames : program.PlainNames) (h : s.expr.Thorough none)
    {e : Expr} (he : s.expr.Contains e) : e.Resolved program finish.scope := by
  have htarget := Program.HasTarget.of_split hrun.mem hsplit
  obtain ⟨d', hanswered, -⟩ := harrives.answered hrun.mem hsplit hrun.body
  obtain ⟨q, hq, hexpr⟩ := h.asked (contextAt_takesOnly program limit depth)
    (contextAt_takesOnly_for htarget.of_some) hanswered he
  have hbefore := hrun.becomes_query hsplit harrives hq
  obtain ⟨hresolved, hbecomes⟩ := hrun.resolved hsplit harrives hq
  have hfinish := hresolved.mono (hbefore.full hrun.full) hbecomes
  rcases hexpr with rfl | ⟨t, field, rfl, hmember⟩
  · exact hfinish
  · rw [hmember] at hfinish
    obtain ⟨t', ht, hbound⟩ := hfinish
    cases ht
    have hrooted := Scope.rooted_invariant hnames
    have hstart := hrun.scope_start hrooted ⟨Scope.full_constants top, Scope.rooted_constants top⟩
    obtain ⟨hfull, hroot⟩ := hrooted.becomes (hbefore.trans hbecomes) hstart
    exact hfull.bound_iff.2 (hroot t field (hfull.bound_iff.1 hbound))

end

variable {config : ElabConfig} {n : Netlist}

/-- If elaboration succeeds, then every instance has a run, and in every run each statement has its
turn. All names and calls are resolved that elaboration asks for in the course of the right-hand side.
If it passes over no part of that, these are all the names and calls that occur in it. -/
theorem elaborate_resolves (he : elaborate program top config = .ok n) :
    (∀ i < n.instances.size, HasNestedRun program config.maxInlineDepth top n i) ∧
      ∀ {depth : Nat} {m : ModuleDecl} {start finish : Draft},
        NestedRun program config.maxInlineDepth top depth m start finish →
          ∀ {before after : List Statement} {s : Statement}, m.statements = before ++ s :: after →
            ∃ d, m.Arrives (contextAt program config.maxInlineDepth depth) start before d ∧
              (∀ q, Query.Leads (contextAt program config.maxInlineDepth depth) ⟨s.expr, none, d⟩ q →
                q.expr.Resolved program q.draft.scope) ∧
              (program.PlainNames → s.expr.Thorough none →
                ∀ e, s.expr.Contains e → e.Resolved program finish.scope) := by
  refine ⟨fun i hi => hasNestedRun_of_instance he hi, fun hrun _ _ _ hsplit => ?_⟩
  obtain ⟨d, harrives⟩ := ModuleDecl.Arrives.of_body hsplit hrun.body
  exact ⟨d, harrives, fun q hq => (hrun.resolved hsplit harrives hq).1,
    fun hnames hthorough e he => hrun.resolved_of_thorough hsplit harrives hnames hthorough he⟩

theorem elaborate_resolves_heldPair :
    ∃ n, elaborate heldPair "top" {} = .ok n ∧
      (∀ i < n.instances.size, HasNestedRun heldPair 64 "top" n i) ∧
        ∀ {depth : Nat} {m : ModuleDecl} {start finish : Draft},
          NestedRun heldPair 64 "top" depth m start finish →
            ∀ {before after : List Statement} {s : Statement}, m.statements = before ++ s :: after →
              ∃ d, m.Arrives (contextAt heldPair 64 depth) start before d ∧
                (∀ q, Query.Leads (contextAt heldPair 64 depth) ⟨s.expr, none, d⟩ q →
                  q.expr.Resolved heldPair q.draft.scope) ∧
                (heldPair.PlainNames → s.expr.Thorough none →
                  ∀ e, s.expr.Contains e → e.Resolved heldPair finish.scope) := by
  have hruns : (elaborate heldPair "top" {}).toBool = true := by decide +kernel
  cases he : elaborate heldPair "top" {} with
  | error e =>
    rw [he] at hruns
    exact absurd hruns Bool.false_ne_true
  | ok n => exact ⟨n, rfl, elaborate_resolves he⟩

/-- A name that nothing gives a value, and the input to its right. -/
def ghostAndInput : Expr := .concat [.ident "ghost", .ident "x"]

/-- The gate on the input and the low bit of such an expression. -/
def gateOnLowBit : Expr := .call "nand" [ghostAndInput, .ident "x"]

/-- Gives its output the value of an expression. -/
def assigning (e : Expr) : ModuleDecl where
  name := "top"
  params := [{ name := "x" }]
  outputs := [{ name := "o" }]
  statements := [{ target := "o", expr := e }]

/-- Where all bits of the concatenation are asked for, the name is an error. Where its low bit is asked
for, nobody looks at the name. -/
theorem ghost_passed_over :
    elaborate ⟨[assigning ghostAndInput]⟩ "top" {} = .error (.unknownSignal "ghost" "top") ∧
      ∃ n start finish, elaborate ⟨[assigning gateOnLowBit]⟩ "top" {} = .ok n ∧
        NestedRun ⟨[assigning gateOnLowBit]⟩ 64 "top" 64 (assigning gateOnLowBit) start finish ∧
          gateOnLowBit.Contains (.ident "ghost") ∧ finish.scope.bits? "ghost" = none := by
  have herror : (match elaborate ⟨[assigning ghostAndInput]⟩ "top" {} with
      | .error e => decide (e = .unknownSignal "ghost" "top")
      | .ok _ => false) = true := by decide +kernel
  have hruns : (match (elaborateTop (contextAt ⟨[assigning gateOnLowBit]⟩ 64 64)
        (assigning gateOnLowBit)).run (.empty "top") with
      | .error _ => false
      | .ok (_, d) => decide (d.scope.bits? "ghost" = none)) = true := by decide +kernel
  constructor
  · split at herror
    · next e he => rw [he, of_decide_eq_true herror]
    · exact absurd herror Bool.false_ne_true
  · split at hruns
    · exact absurd hruns Bool.false_ne_true
    · next finish hrun =>
      obtain ⟨_, start, hopen, hbody⟩ := bind_eq_ok.1 hrun
      refine ⟨finish.netlist, start, finish, (elaborate_of_run rfl hrun).2, .top rfl hopen hbody, ?_,
        of_decide_eq_true hruns⟩
      exact .head (.call List.mem_cons_self) (.single (.concat List.mem_cons_self))

end NandHdl
