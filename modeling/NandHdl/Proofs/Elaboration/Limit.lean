-- SUMMARY: The limit of nesting is only a guard (`elaborate_limit`): a higher limit gives the same result unless the lower one was met, and it is met only where calls are nested deeper.
import NandHdl.Proofs.Elaboration.InstanceTree
import NandHdl.Proofs.Elaboration.Unlimited
import NandHdl.Proofs.Renaming.Programs
import Mathlib.Data.List.Chain

/-!
# The limit of nesting

A body is elaborated with a number of levels of nesting that are left, and the bodies of its instances
have one level less. Where none is left, a call ends with an error. Two runs with different numbers of
levels go side by side until the one with fewer levels gets there.

How many levels are needed can be read off the program: as many as the longest chain of modules has
calls, each module containing a call of the next one. If a module calls itself again, along statements
that are calls as a whole, no number is enough, for elaboration cannot pass over such a call.
-/

namespace NandHdl

open Elab Draft

/-! ## Steps side by side -/

namespace Elab

variable {α β : Type} {P : Prop} {x y : Elab α} {f g : α → Elab β}

/-- The first step ends at the limit of nesting only if the condition holds. Where it does not end
there, the second step does the same. -/
def Agrees (P : Prop) (x y : Elab α) : Prop :=
  ∀ d, x.AtLimit d ∧ P ∨ ¬ x.AtLimit d ∧ x.run d = y.run d

theorem Unlimited.agrees (hx : x.Unlimited) : x.Agrees P x := fun d => .inr ⟨hx d, rfl⟩

theorem agrees_pure (a : α) : (pure a : Elab α).Agrees P (pure a) := (unlimited_pure a).agrees

theorem agrees_throw {e : ElabError} (h : ∀ name limit, e ≠ .recursionLimit name limit) :
    (throw e : Elab α).Agrees P (throw e) :=
  (unlimited_throw h).agrees

theorem Agrees.bind (hx : x.Agrees P y) (hf : ∀ a, (f a).Agrees P (g a)) :
    (x >>= f).Agrees P (y >>= g) := by
  intro d
  rcases hx d with ⟨hlimit, hP⟩ | ⟨hfree, heq⟩
  · exact .inl ⟨atLimit_bind.2 (.inl hlimit), hP⟩
  rw [StateT.run_bind, StateT.run_bind, ← heq]
  cases hrun : x.run d with
  | error e =>
    refine .inr ⟨fun h => ?_, rfl⟩
    obtain ⟨a, d', hok, -⟩ := (atLimit_bind.1 h).resolve_left hfree
    cases hrun.symm.trans hok
  | ok r =>
    rcases hf r.1 r.2 with ⟨hlimit, hP⟩ | ⟨hfree', heq'⟩
    · exact .inl ⟨atLimit_bind.2 (.inr ⟨r.1, r.2, hrun, hlimit⟩), hP⟩
    · refine .inr ⟨fun h => ?_, heq'⟩
      obtain ⟨a, d', hok, hlimit⟩ := (atLimit_bind.1 h).resolve_left hfree
      cases hrun.symm.trans hok
      exact hfree' hlimit

end Elab

/-! ## Expressions -/

variable {P : Prop} {cx cx' : Context}

/-- For calls of `c` either the first context has no level left, and this only if the condition holds,
or what the contexts expand them to agrees. -/
inductive Context.ExpansionsAgree (P : Prop) (cx cx' : Context) (c : ModuleDecl) : Prop
  | limit (hnone : cx.expand = none) (hP : P) : ExpansionsAgree P cx cx' c
  | levels {expand expand' : ModuleDecl → List Bits → Option String → Elab Bits}
      (hsome : cx.expand = some expand) (hsome' : cx'.expand = some expand')
      (hagrees : ∀ args target, (expand c args target).Agrees P (expand' c args target)) :
      ExpansionsAgree P cx cx' c

/-- All calls of modules that occur in the expression are expanded alike. -/
def Expr.CallsAgree (P : Prop) (cx cx' : Context) (e : Expr) : Prop :=
  ∀ {callee : String} {args : List Expr} {c : ModuleDecl}, e.Contains (.call callee args) →
    isPrimitive callee = false → cx.program.find? callee = some c → cx.ExpansionsAgree P cx' c

theorem Expr.CallsAgree.part {e e' : Expr} (h : e.CallsAgree P cx cx') (hpart : e.HasPart e') :
    e'.CallsAgree P cx cx' :=
  fun hcontains => h (.head hpart hcontains)

/-- A gate or flip-flop on the low bits of its arguments. -/
theorem primitive_agrees {low low' : Elab Bits} (hlow : low.Agrees P low')
    {emit : SignalId → SignalId → Elab SignalId} (hemit : ∀ a b, (emit a b).Unlimited) :
    Elab.Agrees P
      (do
        match ← low with
        | [a, b] => return [← emit a b]
        | _ => throw (.fault .outOfRange) : Elab Bits)
      (do
        match ← low' with
        | [a, b] => return [← emit a b]
        | _ => throw (.fault .outOfRange)) := by
  refine hlow.bind fun ids => ?_
  split
  · exact ((hemit _ _).bind fun _ => unlimited_pure _).agrees
  · exact agrees_throw fun _ _ h => ElabError.noConfusion h

theorem Context.call_agrees (hprogram : cx'.program = cx.program) {callee : String}
    (hcallee : ∀ {c}, isPrimitive callee = false → cx.program.find? callee = some c →
      cx.ExpansionsAgree P cx' c) (target : Option String) (count : Nat) {low low' : Elab Bits}
    (hlow : low.Agrees P low') {all all' : Elab (List Bits)} (hall : all.Agrees P all') :
    (cx.call callee target count low all).Agrees P (cx'.call callee target count low' all') := by
  have harity : ∀ (name : String) (expected : Nat) {x y : Elab Bits}, x.Agrees P y →
      Elab.Agrees P
        (do
          if count ≠ expected then throw (.arityMismatch name expected count)
          x)
        (do
          if count ≠ expected then throw (.arityMismatch name expected count)
          y) := by
    intro name expected x y h
    by_cases hcount : count ≠ expected
    · simp only [if_pos hcount]
      exact (agrees_throw fun _ _ h => ElabError.noConfusion h).bind fun _ => h
    · simp only [if_neg hcount]
      exact h
  unfold Context.call
  by_cases hnand : callee = nandName
  · rw [if_pos hnand, if_pos hnand]
    exact harity _ _ (primitive_agrees hlow emitNand_unlimited)
  rw [if_neg hnand, if_neg hnand]
  by_cases hdff : callee = dffName
  · rw [if_pos hdff, if_pos hdff]
    exact harity _ _ (primitive_agrees hlow emitDff_unlimited)
  rw [if_neg hdff, if_neg hdff, hprogram]
  cases hfind : cx.program.find? callee with
  | none =>
    exact unlimited_scope.agrees.bind fun _ => agrees_throw fun _ _ h => ElabError.noConfusion h
  | some c =>
    cases hcallee (isPrimitive_eq_false.2 ⟨hnand, hdff⟩) hfind with
    | limit hnone hP =>
      rw [hnone]
      exact fun d => .inl ⟨⟨c.name, cx.limit, rfl⟩, hP⟩
    | levels hsome hsome' hagrees =>
      rw [hsome, hsome']
      exact harity _ _ (hall.bind fun args => hagrees args target)

mutual

/-- Expressions whose calls are expanded alike agree. -/
theorem Expr.bits_agrees (hprogram : cx'.program = cx.program) :
    ∀ e : Expr, e.CallsAgree P cx cx' → (e.bits cx).Agrees P (e.bits cx')
  | .number value, _ => by
    rw [Expr.bits, Expr.bits]
    exact agrees_pure _
  | .ident name, _ => by
    rw [Expr.bits, Expr.bits]
    exact (bitsOf_unlimited name).agrees
  | .index object position, h => by
    rw [Expr.bits, Expr.bits]
    exact (Expr.bit_agrees hprogram object (h.part .index) position).bind fun _ => agrees_pure _
  | .slice object first last, h => by
    rw [Expr.bits, Expr.bits]
    have hrest := (Expr.bits_agrees hprogram object (h.part .slice)).bind fun base =>
      agrees_pure (P := P)
        ((List.range (last - first + 1)).map fun i => base.getD (first + i) zeroId)
    split
    · exact (agrees_throw fun _ _ h => ElabError.noConfusion h).bind fun _ => hrest
    · exact hrest
  | .member object field, _ => by
    rw [Expr.bits, Expr.bits]
    exact ((memberOf_unlimited object field).bind fun name => bitsOf_unlimited name).agrees
  | .concat parts, h => by
    rw [Expr.bits, Expr.bits]
    exact (Expr.bitsAll_agrees hprogram parts fun e he => h.part (.concat he)).bind fun _ =>
      agrees_pure _
  | .call callee args, h => by
    rw [Expr.bits, Expr.bits]
    exact Context.call_agrees hprogram (h .refl) none _
      (Expr.lowBits_agrees hprogram args fun e he => h.part (.call he))
      (Expr.bitsAll_agrees hprogram args fun e he => h.part (.call he))

theorem Expr.bit_agrees (hprogram : cx'.program = cx.program) :
    ∀ e : Expr, e.CallsAgree P cx cx' → ∀ k, (e.bit cx k).Agrees P (e.bit cx' k)
  | .number value, _, k => by
    rw [Expr.bit, Expr.bit]
    exact agrees_pure _
  | .ident name, _, k => by
    rw [Expr.bit, Expr.bit]
    exact (namedBit_unlimited name k).agrees
  | .index object position, h, k => by
    rw [Expr.bit, Expr.bit]
    split
    · exact Expr.bit_agrees hprogram object (h.part .index) position
    · exact agrees_pure _
  | .slice object first last, h, k => by
    rw [Expr.bit, Expr.bit]
    have hrest : Elab.Agrees P
        (do
          if k > last - first then return zeroId
          object.bit cx (first + k))
        (do
          if k > last - first then return zeroId
          object.bit cx' (first + k)) := by
      split
      · exact agrees_pure _
      · exact Expr.bit_agrees hprogram object (h.part .slice) _
    split
    · exact (agrees_throw fun _ _ h => ElabError.noConfusion h).bind fun _ => hrest
    · exact hrest
  | .member object field, _, k => by
    rw [Expr.bit, Expr.bit]
    exact ((memberOf_unlimited object field).bind fun name => namedBit_unlimited name k).agrees
  | .concat parts, h, k => by
    rw [Expr.bit, Expr.bit, hprogram]
    refine unlimited_scope.agrees.bind fun s => ?_
    dsimp only
    split
    · exact Expr.bitOfPart_agrees hprogram parts (fun e he => h.part (.concat he)) _ _
    · exact agrees_pure _
  | .call callee args, h, k => by
    rw [Expr.bit, Expr.bit]
    exact (Context.call_agrees hprogram (h .refl) none _
      (Expr.lowBits_agrees hprogram args fun e he => h.part (.call he))
      (Expr.bitsAll_agrees hprogram args fun e he => h.part (.call he))).bind fun _ => agrees_pure _

theorem Expr.bitsAll_agrees (hprogram : cx'.program = cx.program) :
    ∀ es : List Expr, (∀ e ∈ es, e.CallsAgree P cx cx') →
      (Expr.bitsAll cx es).Agrees P (Expr.bitsAll cx' es)
  | [], _ => by
    rw [Expr.bitsAll, Expr.bitsAll]
    exact agrees_pure _
  | e :: rest, h => by
    rw [Expr.bitsAll, Expr.bitsAll]
    obtain ⟨he, hrest⟩ := List.forall_mem_cons.1 h
    exact (Expr.bits_agrees hprogram e he).bind fun _ =>
      (Expr.bitsAll_agrees hprogram rest hrest).bind fun _ => agrees_pure _

theorem Expr.lowBits_agrees (hprogram : cx'.program = cx.program) :
    ∀ es : List Expr, (∀ e ∈ es, e.CallsAgree P cx cx') →
      (Expr.lowBits cx es).Agrees P (Expr.lowBits cx' es)
  | [], _ => by
    rw [Expr.lowBits, Expr.lowBits]
    exact agrees_pure _
  | e :: rest, h => by
    rw [Expr.lowBits, Expr.lowBits]
    obtain ⟨he, hrest⟩ := List.forall_mem_cons.1 h
    exact (Expr.bit_agrees hprogram e he 0).bind fun _ =>
      (Expr.lowBits_agrees hprogram rest hrest).bind fun _ => agrees_pure _

theorem Expr.bitOfPart_agrees (hprogram : cx'.program = cx.program) :
    ∀ es : List Expr, (∀ e ∈ es, e.CallsAgree P cx cx') → ∀ position k,
      (Expr.bitOfPart cx es position k).Agrees P (Expr.bitOfPart cx' es position k)
  | [], _, _, _ => by
    rw [Expr.bitOfPart, Expr.bitOfPart]
    exact agrees_throw fun _ _ h => ElabError.noConfusion h
  | e :: _, h, 0, k => by
    rw [Expr.bitOfPart, Expr.bitOfPart]
    exact Expr.bit_agrees hprogram e (h e List.mem_cons_self) k
  | _ :: rest, h, position + 1, k => by
    rw [Expr.bitOfPart, Expr.bitOfPart]
    exact Expr.bitOfPart_agrees hprogram rest (fun e he => h e (List.mem_cons_of_mem _ he)) position k

end

/-! ## Bodies -/

/-- All calls that the body contains are expanded alike. -/
def ModuleDecl.CallsAgree (P : Prop) (cx cx' : Context) (m : ModuleDecl) : Prop :=
  ∀ s ∈ m.statements, s.expr.CallsAgree P cx cx'

theorem Statement.bits_agrees (hprogram : cx'.program = cx.program) {s : Statement}
    (h : s.expr.CallsAgree P cx cx') : (s.bits cx).Agrees P (s.bits cx') := by
  unfold Statement.bits
  cases hexpr : s.expr with
  | call callee args =>
    rw [hexpr] at h
    exact Context.call_agrees hprogram (h .refl) _ _
      (Expr.lowBits_agrees hprogram args fun e he => h.part (.call he))
      (Expr.bitsAll_agrees hprogram args fun e he => h.part (.call he))
  | _ => exact Expr.bits_agrees hprogram _ (hexpr ▸ h)

theorem elaborateBody_agrees (hprogram : cx'.program = cx.program) {m : ModuleDecl}
    (h : m.CallsAgree P cx cx') :
    (elaborateBody cx m.statements).Agrees P (elaborateBody cx' m.statements) := by
  have hdeclare : declareBody cx' m.statements = declareBody cx m.statements := by
    rw [declareBody, declareBody, hprogram]
  have hstatements : ∀ statements : List Statement, (∀ s ∈ statements, s.expr.CallsAgree P cx cx') →
      (elaborateStatements cx statements).Agrees P (elaborateStatements cx' statements) := by
    intro statements h
    induction statements with
    | nil => exact agrees_pure _
    | cons s rest ih =>
      obtain ⟨hs, hrest⟩ := List.forall_mem_cons.1 h
      refine ((Statement.bits_agrees hprogram hs).bind fun src => ?_).bind fun _ => ih hrest
      exact ((bitsOf_unlimited s.target).bind fun dst => wire_unlimited src dst).agrees
  rw [elaborateBody, elaborateBody, hdeclare]
  exact (declareBody_unlimited cx _).agrees.bind fun _ => hstatements _ h

theorem instantiate_agrees (m : ModuleDecl) (args : List Bits) (target : Option String)
    {body body' : Elab Unit} (h : body.Agrees P body') :
    (instantiate m args target body).Agrees P (instantiate m args target body') :=
  (openInstance_unlimited m args target).agrees.bind fun _ => unlimited_scope.agrees.bind fun _ =>
    (unlimited_modify _).agrees.bind fun _ => h.bind fun _ =>
      (unlimited_modify _).agrees.bind fun _ => agrees_pure _

/-! ## Chains of calls -/

namespace Expr

theorem mem_allCallees {es : List Expr} {callee : String} :
    callee ∈ allCallees es ↔ ∃ e ∈ es, callee ∈ e.callees := by
  induction es with
  | nil => exact ⟨nofun, fun ⟨_, he, _⟩ => nomatch he⟩
  | cons e rest ih => rw [allCallees, List.mem_append, ih, List.exists_mem_cons_iff]

theorem HasPart.callees_subset {e e' : Expr} (h : e.HasPart e') : e'.callees ⊆ e.callees := by
  intro callee hcallee
  cases h with
  | index | slice | member =>
    rw [callees]
    exact hcallee
  | concat he =>
    rw [callees]
    exact mem_allCallees.2 ⟨_, he, hcallee⟩
  | call he =>
    have hargs := mem_allCallees.2 ⟨_, he, hcallee⟩
    rw [callees]
    split
    · exact hargs
    · exact List.mem_cons_of_mem _ hargs

/-- A module that is called anywhere in an expression is one of those that the expression calls. -/
theorem Contains.mem_callees {e : Expr} {callee : String} {args : List Expr}
    (h : e.Contains (.call callee args)) (hcallee : isPrimitive callee = false) :
    callee ∈ e.callees := by
  induction h using Relation.ReflTransGen.head_induction_on with
  | refl =>
    rw [callees, hcallee]
    exact List.mem_cons_self
  | head hpart _ ih => exact hpart.callees_subset ih

end Expr

/-- Below `m` there is a chain of as many modules, each called by the one before it. -/
def Program.Nests (p : Program) (m : ModuleDecl) (levels : Nat) : Prop :=
  ∃ chain : List ModuleDecl, List.IsChain p.Calls (m :: chain) ∧ chain.length = levels

theorem Program.nests_zero (p : Program) (m : ModuleDecl) : p.Nests m 0 :=
  ⟨[], .singleton m, rfl⟩

theorem Program.Nests.succ {p : Program} {m c : ModuleDecl} {levels : Nat} (h : p.Nests c levels)
    (hcalls : p.Calls m c) : p.Nests m (levels + 1) := by
  obtain ⟨chain, hchain, hlength⟩ := h
  exact ⟨c :: chain, .cons_cons hcalls hchain, congrArg (· + 1) hlength⟩

variable {program : Program} {m c : ModuleDecl} {limit limit' depth depth' : Nat} {top : String}

/-- With more levels that are left calls of `c` are expanded alike, unless as many modules as there are
levels are nested below `c`. -/
theorem contextAt_expansionsAgree (hle : depth ≤ depth') (hP : program.Nests c depth → P) :
    (contextAt program limit depth).ExpansionsAgree P (contextAt program limit' depth') c := by
  induction depth generalizing depth' c with
  | zero => exact .limit rfl (hP (program.nests_zero c))
  | succ depth ih =>
    obtain ⟨depth', rfl⟩ := Nat.exists_eq_add_of_lt hle
    refine .levels rfl rfl fun args target => instantiate_agrees c args target ?_
    refine elaborateBody_agrees ?_ fun s hs callee args' c' hcontains hcallee hfind => ?_
    · rw [contextAt_program, contextAt_program]
    · rw [contextAt_program] at hfind
      exact ih (by omega) fun hnests =>
        hP (hnests.succ ⟨s, hs, callee, hcontains.mem_callees hcallee, hfind⟩)

/-- Elaboration of the top module with a higher limit goes the same way, unless more modules are nested
than the lower limit admits. -/
theorem elaborateTop_agrees (hle : depth ≤ depth') (m : ModuleDecl) :
    (elaborateTop (contextAt program limit depth) m).Agrees (program.Nests m (depth + 1))
      (elaborateTop (contextAt program limit' depth') m) := by
  refine (openTop_unlimited m).agrees.bind fun _ => elaborateBody_agrees ?_ fun s hs callee args c
    hcontains hcallee hfind => ?_
  · rw [contextAt_program, contextAt_program]
  · rw [contextAt_program] at hfind
    exact contextAt_expansionsAgree hle fun hnests =>
      hnests.succ ⟨s, hs, callee, hcontains.mem_callees hcallee, hfind⟩

/-- Elaboration ends at the limit only if more modules are nested than it admits. Otherwise a higher
limit gives the same result. -/
theorem elaborate_agrees (program : Program) (top : String) {config config' : ElabConfig}
    (hle : config.maxInlineDepth ≤ config'.maxInlineDepth) :
    (∃ m name limit, program.find? top = some m ∧ program.Nests m (config.maxInlineDepth + 1) ∧
        elaborate program top config = .error (.recursionLimit name limit)) ∨
      (∀ name limit, elaborate program top config ≠ .error (.recursionLimit name limit)) ∧
        elaborate program top config' = elaborate program top config := by
  unfold elaborate
  cases hfind : program.find? top with
  | none => exact .inr ⟨fun _ _ h => ElabError.noConfusion (Except.error.inj h), rfl⟩
  | some m =>
    dsimp only
    let cx := contextAt program config.maxInlineDepth config.maxInlineDepth
    let cx' := contextAt program config'.maxInlineDepth config'.maxInlineDepth
    have hagrees : (elaborateTop cx m).Agrees _ (elaborateTop cx' m) := elaborateTop_agrees hle m
    rcases hagrees (.empty top) with ⟨⟨name, limit, hrun⟩, hnests⟩ | ⟨hfree, heq⟩
    · refine .inl ⟨m, name, limit, rfl, hnests, ?_⟩
      rw [hrun]
      rfl
    · rw [← heq]
      refine .inr ⟨fun name limit h => ?_, rfl⟩
      cases hrun : (elaborateTop cx m).run (.empty top) with
      | error e =>
        rw [hrun] at h
        exact hfree ⟨name, limit, hrun.trans (congrArg Except.error (Except.error.inj h))⟩
      | ok r =>
        rw [hrun, Except.ok_bind] at h
        split at h
        · cases h
        · cases h

/-! ## Modules that call themselves -/

/-- A statement of `m` is a call of the module `c` as a whole. -/
def Program.Instantiates (p : Program) (m c : ModuleDecl) : Prop :=
  ∃ s ∈ m.statements, ∃ callee args, s.expr = .call callee args ∧ isPrimitive callee = false ∧
    p.find? callee = some c

namespace NestedRun

variable {start finish : Draft}

/-- Such a call is always expanded, which takes one level. -/
theorem instantiates (hrun : NestedRun program limit top depth m start finish)
    (h : program.Instantiates m c) :
    ∃ k start' finish', depth = k + 1 ∧ NestedRun program limit top k c start' finish' := by
  obtain ⟨s, hs, callee, args, hexpr, hcallee, hfind⟩ := h
  obtain ⟨before, after, hsplit⟩ := List.append_of_mem hs
  obtain ⟨d, harrives⟩ := ModuleDecl.Arrives.of_body hsplit hrun.body
  obtain ⟨d₁, hstatement, -⟩ := harrives.next hsplit hrun.body
  obtain ⟨src, d₂, hsrc, -⟩ := bind_eq_ok.1 hstatement
  simp only [Statement.bits, hexpr] at hsrc
  obtain ⟨k, x, rfl, -⟩ := inlining_of_call hcallee hsrc
  cases hfind.symm.trans x.find_eq
  have hcalls : Query.Calls (contextAt program limit (k + 1)) (some s.target) ⟨s.expr, none, d⟩
      callee args (some s.target) d := hexpr ▸ .itself
  exact ⟨k, _, _, rfl, .call hrun hsplit harrives hcalls x⟩

theorem reaches (hrun : NestedRun program limit top depth m start finish)
    (h : Relation.ReflTransGen program.Instantiates m c) :
    ∃ k ≤ depth, ∃ start' finish', NestedRun program limit top k c start' finish' := by
  induction h with
  | refl => exact ⟨depth, Nat.le_refl _, start, finish, hrun⟩
  | tail _ hstep ih =>
    obtain ⟨_, hle, _, _, hnext⟩ := ih
    obtain ⟨k, start', finish', rfl, hlast⟩ := hnext.instantiates hstep
    exact ⟨k, Nat.le_of_succ_le hle, start', finish', hlast⟩

/-- No body of a module that calls itself again is elaborated, however many levels are left. -/
theorem acyclic (hrun : NestedRun program limit top depth c start finish) :
    ¬ Relation.TransGen program.Instantiates c c := by
  intro h
  induction depth using Nat.strong_induction_on generalizing start finish with
  | _ depth ih =>
    obtain ⟨c', hfirst, hrest⟩ := Relation.TransGen.head'_iff.1 h
    obtain ⟨_, _, _, rfl, hnext⟩ := hrun.instantiates hfirst
    obtain ⟨k, hle, _, _, hagain⟩ := hnext.reaches hrest
    exact ih k (Nat.lt_succ_of_le hle) hagain

end NestedRun

/-! ## Elaborated programs -/

/-- A result that is not the error for the limit stays the same with any higher limit, and no instance is
nested deeper than the limit. If no chain of calls has more modules below the top than the limit, the
limit is not met. If the top module reaches one that calls itself again, by statements that are calls as
a whole, the program is refused whatever the limit is. -/
theorem elaborate_limit (program : Program) (top : String) :
    (∀ {config config' : ElabConfig}, config.maxInlineDepth ≤ config'.maxInlineDepth →
      (∀ name limit, elaborate program top config ≠ .error (.recursionLimit name limit)) →
        elaborate program top config' = elaborate program top config) ∧
    (∀ {config : ElabConfig} {n : Netlist}, elaborate program top config = .ok n →
      ∀ i < n.instances.size, (n.instancePath i).length ≤ config.maxInlineDepth + 1) ∧
    (∀ {config : ElabConfig}, (∀ m levels, program.find? top = some m → program.Nests m levels →
      levels ≤ config.maxInlineDepth) →
        ∀ name limit, elaborate program top config ≠ .error (.recursionLimit name limit)) ∧
    ∀ {m c : ModuleDecl}, program.find? top = some m →
      Relation.ReflTransGen program.Instantiates m c → Relation.TransGen program.Instantiates c c →
        ∀ config, ∃ e, elaborate program top config = .error e := by
  refine ⟨fun {config config'} hle hfree => ?_, fun {config n} he i hi => ?_,
    fun {config} hnests name limit => ?_, fun {m c} hfind hreaches hcycle config => ?_⟩
  · rcases elaborate_agrees program top hle with ⟨_, name, limit, -, -, h⟩ | ⟨-, h⟩
    · exact absurd h (hfree name limit)
    · exact h
  · obtain ⟨path, hpath, hlength⟩ := pathTo_of_elaborate he hi
    rwa [(instanceTree_of_elaborate he).instancePath_eq hpath hi]
  · have hsame := Nat.le_refl config.maxInlineDepth
    rcases elaborate_agrees program top hsame with ⟨m, _, _, hfind, hdeep, -⟩ | ⟨hfree, -⟩
    · exact absurd (hnests m _ hfind hdeep) (Nat.not_succ_le_self _)
    · exact hfree name limit
  · cases he : elaborate program top config with
    | error e => exact ⟨e, rfl⟩
    | ok n =>
      obtain ⟨m', start, finish, hfind', hopen, hbody, -⟩ := elaborate_eq_ok he
      cases hfind.symm.trans hfind'
      obtain ⟨_, -, _, _, hrun⟩ := (NestedRun.top hfind hopen hbody).reaches hreaches
      exact absurd hcycle hrun.acyclic

/-- A module that is a call of itself. -/
def selfCaller : Program where
  modules := [
    { name := "loop"
      params := [{ name := "a" }]
      outputs := [{ name := "o" }]
      statements := [{ target := "o", expr := .call "loop" [.ident "a"] }] }]

theorem heldPair_nests {m : ModuleDecl} {levels : Nat} (hfind : heldPair.find? "top" = some m)
    (h : heldPair.Nests m levels) : levels ≤ 1 := by
  obtain ⟨chain, hchain, rfl⟩ := h
  match chain, hchain with
  | [], _ | [_], _ => simp
  | c :: c' :: _, .cons_cons htop (.cons_cons hpair _) =>
    obtain ⟨s, hs, callee, hcallee, hc⟩ := htop
    obtain ⟨s', hs', callee', hcallee', hc'⟩ := hpair
    have hnone : ∀ m ∈ heldPair.find? "top", ∀ s ∈ m.statements, ∀ callee ∈ s.expr.callees,
        ∀ c ∈ heldPair.find? callee, ∀ s ∈ c.statements, ∀ callee ∈ s.expr.callees,
          (heldPair.find? callee).isNone := by decide
    have hleft := hnone m hfind s hs callee hcallee c hc s' hs' callee' hcallee'
    rw [hc'] at hleft
    cases hleft

theorem elaborate_limit_heldPair :
    elaborate heldPair "top" {} = elaborate heldPair "top" { maxInlineDepth := 1 } ∧
      (∃ n, elaborate heldPair "top" {} = .ok n ∧
        ∀ i < n.instances.size, (n.instancePath i).length ≤ 65) ∧
      (∀ name limit, elaborate heldPair "top" { maxInlineDepth := 1 } ≠
        .error (.recursionLimit name limit)) ∧
      ∀ config, ∃ e, elaborate selfCaller "loop" config = .error e := by
  obtain ⟨hsame, hpaths, hfree, -⟩ := elaborate_limit heldPair "top"
  obtain ⟨-, -, -, hcycle⟩ := elaborate_limit selfCaller "loop"
  let one : ElabConfig := { maxInlineDepth := 1 }
  have hone : ∀ name limit, elaborate heldPair "top" one ≠ .error (.recursionLimit name limit) :=
    hfree fun m levels => heldPair_nests
  have hloop : ∀ m, selfCaller.find? "loop" = some m → selfCaller.Instantiates m m := by
    rintro m hm
    have hfound := hm
    cases hm
    exact ⟨_, List.mem_cons_self, "loop", _, rfl, by decide, hfound⟩
  have hruns : (elaborate heldPair "top" {}).toBool = true := by decide +kernel
  refine ⟨hsame (by decide) hone, ?_, hone, ?_⟩
  · cases he : elaborate heldPair "top" {} with
    | error e =>
      rw [he] at hruns
      exact absurd hruns Bool.false_ne_true
    | ok n => exact ⟨n, rfl, hpaths he⟩
  · exact hcycle rfl .refl (.single (hloop _ rfl))

end NandHdl
