-- SUMMARY: An expression and its renamed version have the same bits (`Expr.bits_lockstep`), if modules are expanded alike (`Context.Renamed`).
import NandHdl.Proofs.Renaming.Steps
import NandHdl.Proofs.Renaming.Widths

/-!
# Values up to a renaming

An expression and its renamed version are elaborated in lockstep, as long as all that they read may
be read on both sides. Only a call of a statement gives something to a target, the members of an
instance. A call within an expression gives them to a name that the instance makes up, and that is
not the old name.
-/

namespace NandHdl

open Elab

variable {ρ : Renaming} {v : View} {seen : Ref → Prop} {p : Program} {i : Nat}
  {cx cx' : Context}

/-! ## Contexts -/

/-- A body may read the references, and it may call the modules: one that starts clear is called by a
body that is clear. -/
structure Allows (ρ : Renaming) (p : Program) (v : View) (seen : Ref → Prop) (refs : List Ref)
    (callees : List String) : Prop where
  read : ∀ r ∈ refs, r.Readable ρ seen
  call : ∀ callee ∈ callees, ∀ m, p.find? callee = some m → p.StartsClear ρ m → v.clear

namespace Allows

variable {refs refs' : List Ref} {callees callees' : List String}

theorem left (h : Allows ρ p v seen (refs ++ refs') (callees ++ callees')) :
    Allows ρ p v seen refs callees :=
  ⟨fun r hr => h.read r (List.mem_append_left _ hr), fun callee hcallee =>
    h.call callee (List.mem_append_left _ hcallee)⟩

theorem right (h : Allows ρ p v seen (refs ++ refs') (callees ++ callees')) :
    Allows ρ p v seen refs' callees' :=
  ⟨fun r hr => h.read r (List.mem_append_right _ hr), fun callee hcallee =>
    h.call callee (List.mem_append_right _ hcallee)⟩

/-- A call needs its arguments, and the called module if it is no primitive. -/
theorem of_call {callee : String} {args : List Expr}
    (h : Allows ρ p v seen (Expr.call callee args).refs (Expr.call callee args).callees) :
    Allows ρ p v seen (Expr.allRefs args) (Expr.allCallees args) ∧
      (isPrimitive callee = false →
        ∀ m, p.find? callee = some m → p.StartsClear ρ m → v.clear) := by
  obtain ⟨hread, hcall⟩ := h
  rw [Expr.callees] at hcall
  cases hprimitive : isPrimitive callee with
  | true =>
    rw [hprimitive, if_pos rfl] at hcall
    exact ⟨⟨hread, hcall⟩, nofun⟩
  | false =>
    rw [hprimitive, if_neg Bool.false_ne_true, List.forall_mem_cons] at hcall
    exact ⟨⟨hread, hcall.2⟩, fun _ => hcall.1⟩

end Allows

/-- A module and its renamed version are expanded in lockstep, from whatever module they are called.
The target has its members from then on. -/
def ExpandsAlike (ρ : Renaming) (p : Program) (i : Nat)
    (expand expand' : ModuleDecl → List Bits → Option String → Elab Bits) : Prop :=
  ∀ {m : ModuleDecl} {on : Bool} {v : View} {seen : Ref → Prop} {args : List Bits}
    {target : Option String}, m ∈ p.modules → (on = true → p.modules[i]? = some m) →
    (p.StartsClear ρ m → v.clear) → args.length = m.params.length →
    (∀ x ∈ target, Ref.Assignable ρ v seen { name := x }) →
    Lockstep ρ v seen (fun r => seen r ∨ ∃ x ∈ target, r ∈ m.memberRefs x)
      (expand m args target) (expand' (m.rename (ρ.name on)) args (target.map (ρ.name v.active)))

/-- The contexts are those of a program and of its renamed version, with the same depth left. -/
structure Context.Renamed (ρ : Renaming) (p : Program) (i : Nat) (cx cx' : Context) : Prop where
  program : cx.program = p
  program_renamed : cx'.program = p.renameIn i ρ
  expand : Option.Rel (ExpandsAlike ρ p i) cx.expand cx'.expand

/-- A gate or flip-flop on the low bits of its arguments. -/
theorem primitive_lockstep {low low' : Elab Bits} (hlow : Lockstep ρ v seen seen low low')
    {emit : SignalId → SignalId → Elab SignalId}
    (hemit : ∀ a b, Lockstep ρ v seen seen (emit a b) (emit a b)) :
    Lockstep ρ v seen seen
      (do
        match ← low with
        | [a, b] => return [← emit a b]
        | _ => throw (.fault .outOfRange))
      (do
        match ← low' with
        | [a, b] => return [← emit a b]
        | _ => throw (.fault .outOfRange)) := by
  refine hlow.bind fun ids => ?_
  split
  · exact (hemit _ _).bind fun id => lockstep_pure [id]
  · exact together_throw

theorem Context.Renamed.call (hcx : cx.Renamed ρ p i cx') (callee : String)
    (hclear : isPrimitive callee = false →
      ∀ m, p.find? callee = some m → p.StartsClear ρ m → v.clear)
    (target : Option String) (htarget : ∀ x ∈ target, Ref.Assignable ρ v seen { name := x })
    {count : Nat} {low low' : Elab Bits} (hlow : Lockstep ρ v seen seen low low')
    {all all' : Elab (List Bits)}
    (hall : LockstepTo ρ v seen seen (·.length = count) all all') :
    Lockstep ρ v seen (fun r => seen r ∨ ∃ x ∈ target, r ∈ p.membersOf callee x)
      (cx.call callee target count low all)
      (cx'.call callee (target.map (ρ.name v.active)) count low' all') := by
  have hprimitive : ∀ {x y : Elab Bits}, isPrimitive callee = true →
      Lockstep ρ v seen seen x y →
      Lockstep ρ v seen (fun r => seen r ∨ ∃ x ∈ target, r ∈ p.membersOf callee x) x y := by
    intro x y hcallee h
    refine h.congr fun r _ => (or_iff_left ?_).symm
    rintro ⟨x, -, hr⟩
    rw [Program.membersOf_of_primitive hcallee] at hr
    exact nomatch hr
  unfold Context.call
  by_cases hnand : callee = nandName
  · rw [if_pos hnand, if_pos hnand]
    refine hprimitive (isPrimitive_iff.2 (.inl hnand)) ?_
    split
    · exact together_throw_bind
    · exact primitive_lockstep hlow emitNand_lockstep
  rw [if_neg hnand, if_neg hnand]
  by_cases hdff : callee = dffName
  · rw [if_pos hdff, if_pos hdff]
    refine hprimitive (isPrimitive_iff.2 (.inr hdff)) ?_
    split
    · exact together_throw_bind
    · exact primitive_lockstep hlow emitDff_lockstep
  rw [if_neg hdff, if_neg hdff, hcx.program, hcx.program_renamed]
  rcases p.find?_renameIn i ρ callee with ⟨hnone, hnone'⟩ | ⟨m, on, hfind, hfind', hon⟩
  · rw [hnone, hnone']
    exact together_scope_bind fun _ _ _ => together_throw
  rw [hfind, hfind']
  have hmodule := isPrimitive_eq_false.2 ⟨hnand, hdff⟩
  have hmembers := p.membersOf_of_find? hmodule hfind
  have hexpand := hcx.expand
  generalize cx.expand = expand at hexpand
  generalize cx'.expand = expand' at hexpand
  cases hexpand with
  | none => exact together_throw
  | @some expand expand' hexpand =>
    dsimp only
    rw [ModuleDecl.params_rename]
    by_cases hcount : count = m.params.length
    · rw [if_neg (not_not.2 hcount), if_neg (not_not.2 hcount)]
      refine hall.bind fun args hlength => ?_
      simp only [hmembers]
      exact hexpand (Program.find?_eq_some hfind).1 hon (hclear hmodule m hfind)
        (hlength.trans hcount) htarget
    · rw [if_pos hcount, if_pos hcount]
      exact together_throw_bind

mutual

/-- An expression and its renamed version have the same bits. -/
theorem Expr.bits_lockstep (hcx : cx.Renamed ρ p i cx') :
    ∀ e : Expr, Allows ρ p v seen e.refs e.callees →
      Lockstep ρ v seen seen (e.bits cx) ((e.rename (ρ.name v.active)).bits cx')
  | .number value, _ => by
    rw [Expr.rename, Expr.bits, Expr.bits]
    exact lockstep_pure _
  | .ident name, h => by
    rw [Expr.rename, Expr.bits, Expr.bits]
    exact bitsOf_lockstep (h.read { name } (List.mem_singleton_self _))
  | .index object position, h => by
    rw [Expr.rename, Expr.bits, Expr.bits]
    exact (Expr.bit_lockstep hcx object h position).bind fun _ => lockstep_pure _
  | .slice object first last, h => by
    rw [Expr.rename, Expr.bits, Expr.bits]
    split
    · exact together_throw_bind
    · exact (Expr.bits_lockstep hcx object h).bind fun _ => lockstep_pure _
  | .member object field, h => by
    rw [Expr.rename, Expr.bits, Expr.bits]
    cases object with
    | ident name =>
      exact bitsOf_lockstep (h.read { name, field := some field } (List.mem_singleton_self _))
    | _ => exact together_throw_bind
  | .concat parts, h => by
    rw [Expr.rename, Expr.bits, Expr.bits]
    exact (Expr.bitsAll_lockstep hcx parts h).bind fun values _ => lockstep_pure _
  | .call callee args, h => by
    rw [Expr.rename, Expr.bits, Expr.bits]
    exact Expr.call_lockstep hcx callee args h

/-- An expression and its renamed version have the same bit at a position. -/
theorem Expr.bit_lockstep (hcx : cx.Renamed ρ p i cx') :
    ∀ e : Expr, Allows ρ p v seen e.refs e.callees → ∀ k,
      Lockstep ρ v seen seen (e.bit cx k) ((e.rename (ρ.name v.active)).bit cx' k)
  | .number value, _, k => by
    rw [Expr.rename, Expr.bit, Expr.bit]
    exact lockstep_pure _
  | .ident name, h, k => by
    rw [Expr.rename, Expr.bit, Expr.bit]
    exact namedBit_lockstep (h.read { name } (List.mem_singleton_self _)) k
  | .index object position, h, k => by
    rw [Expr.rename, Expr.bit, Expr.bit]
    split
    · exact Expr.bit_lockstep hcx object h position
    · exact lockstep_pure _
  | .slice object first last, h, k => by
    rw [Expr.rename, Expr.bit, Expr.bit]
    split
    · exact together_throw_bind
    · dsimp only
      split
      · exact lockstep_pure _
      · exact Expr.bit_lockstep hcx object h _
  | .member object field, h, k => by
    rw [Expr.rename, Expr.bit, Expr.bit]
    cases object with
    | ident name =>
      exact namedBit_lockstep (h.read { name, field := some field } (List.mem_singleton_self _)) k
    | _ => exact together_throw_bind
  | .concat parts, h, k => by
    rw [Expr.rename, Expr.bit, Expr.bit]
    refine together_scope_bind fun s s' hs => ?_
    have hsized : ∀ r ∈ Expr.allSizing parts, r.Sized ρ seen {} := by
      intro r hr
      obtain ⟨hplain, hnew, hold⟩ := h.read r (Expr.allRefs_of_allSizing parts r hr)
      exact ⟨hplain, hnew, fun heq => .inl (hold heq)⟩
    have hwidths : WidthsRenamed ρ v {} {} := fun r _ _ => by simp
    rw [hcx.program, hcx.program_renamed, Expr.widths_rename hs hwidths parts hsized]
    dsimp only
    split
    · exact Expr.bitOfPart_lockstep hcx parts h _ _
    · exact lockstep_pure _
  | .call callee args, h, k => by
    rw [Expr.rename, Expr.bit, Expr.bit]
    exact (Expr.call_lockstep hcx callee args h).bind fun _ => lockstep_pure _

/-- A call within an expression. -/
theorem Expr.call_lockstep (hcx : cx.Renamed ρ p i cx') (callee : String) :
    ∀ args : List Expr,
      Allows ρ p v seen (Expr.call callee args).refs (Expr.call callee args).callees →
      Lockstep ρ v seen seen
        (cx.call callee none args.length (Expr.lowBits cx args) (Expr.bitsAll cx args))
        (cx'.call callee none (Expr.renameAll (ρ.name v.active) args).length
          (Expr.lowBits cx' (Expr.renameAll (ρ.name v.active) args))
          (Expr.bitsAll cx' (Expr.renameAll (ρ.name v.active) args)))
  | args, h => by
    rw [Expr.length_renameAll]
    obtain ⟨hargs, hclear⟩ := h.of_call
    refine (hcx.call callee hclear none nofun (Expr.lowBits_lockstep hcx args hargs)
      (Expr.bitsAll_lockstep hcx args hargs)).congr fun r _ => or_iff_left ?_
    rintro ⟨x, hx, -⟩
    exact nomatch hx

theorem Expr.bitsAll_lockstep (hcx : cx.Renamed ρ p i cx') :
    ∀ es : List Expr, Allows ρ p v seen (Expr.allRefs es) (Expr.allCallees es) →
      LockstepTo ρ v seen seen (·.length = es.length) (Expr.bitsAll cx es)
        (Expr.bitsAll cx' (Expr.renameAll (ρ.name v.active) es))
  | [], _ => by
    rw [Expr.renameAll, Expr.bitsAll, Expr.bitsAll]
    exact lockstepTo_pure rfl
  | e :: rest, h => by
    rw [Expr.renameAll, Expr.bitsAll, Expr.bitsAll]
    refine (Expr.bits_lockstep hcx e h.left).bind fun bits => ?_
    exact (Expr.bitsAll_lockstep hcx rest h.right).bind fun values hlength =>
      lockstepTo_pure (congrArg (· + 1) hlength)

theorem Expr.lowBits_lockstep (hcx : cx.Renamed ρ p i cx') :
    ∀ es : List Expr, Allows ρ p v seen (Expr.allRefs es) (Expr.allCallees es) →
      Lockstep ρ v seen seen (Expr.lowBits cx es)
        (Expr.lowBits cx' (Expr.renameAll (ρ.name v.active) es))
  | [], _ => by
    rw [Expr.renameAll, Expr.lowBits, Expr.lowBits]
    exact lockstep_pure _
  | e :: rest, h => by
    rw [Expr.renameAll, Expr.lowBits, Expr.lowBits]
    refine (Expr.bit_lockstep hcx e h.left 0).bind fun _ => ?_
    exact (Expr.lowBits_lockstep hcx rest h.right).bind fun _ => lockstep_pure _

theorem Expr.bitOfPart_lockstep (hcx : cx.Renamed ρ p i cx') :
    ∀ es : List Expr, Allows ρ p v seen (Expr.allRefs es) (Expr.allCallees es) → ∀ position k,
      Lockstep ρ v seen seen (Expr.bitOfPart cx es position k)
        (Expr.bitOfPart cx' (Expr.renameAll (ρ.name v.active) es) position k)
  | [], _, _, _ => by
    rw [Expr.renameAll, Expr.bitOfPart, Expr.bitOfPart]
    exact together_throw
  | e :: _, h, 0, k => by
    rw [Expr.renameAll, Expr.bitOfPart, Expr.bitOfPart]
    exact Expr.bit_lockstep hcx e h.left k
  | _ :: rest, h, position + 1, k => by
    rw [Expr.renameAll, Expr.bitOfPart, Expr.bitOfPart]
    exact Expr.bitOfPart_lockstep hcx rest h.right position k

end

/-! ## Statements -/

/-- After the right-hand side of a statement its target has the members that the statement binds. -/
theorem Statement.bits_lockstep (hcx : cx.Renamed ρ p i cx') {s : Statement}
    (htarget : Ref.Assignable ρ v seen { name := s.target })
    (hexpr : Allows ρ p v seen s.expr.refs s.expr.callees) :
    Lockstep ρ v seen (fun r => seen r ∨ r ∈ s.binds p) (s.bits cx)
      ((s.rename (ρ.name v.active)).bits cx') := by
  obtain ⟨target, e⟩ := s
  -- The target itself has been seen before.
  have hbinds : ∀ (r : Ref) (members : List Ref), r.name = ρ.old →
      (seen r ∨ r ∈ members ↔ seen r ∨ r ∈ { name := target } :: members) := by
    intro r members hold
    have hself : r = { name := target } → seen r := by
      rintro rfl
      exact htarget.seen hold
    rw [List.mem_cons, ← or_assoc, or_iff_left_of_imp hself]
  have hvalue : Lockstep ρ v seen (fun r => seen r ∨ r ∈ [{ name := target }]) (e.bits cx)
      ((e.rename (ρ.name v.active)).bits cx') := by
    refine (Expr.bits_lockstep hcx e hexpr).congr fun r hold => ?_
    rw [← hbinds r [] hold, or_iff_left List.not_mem_nil]
  cases e with
  | call callee args =>
    obtain ⟨hargs, hclear⟩ := hexpr.of_call
    have htarget' : ∀ x ∈ some target, Ref.Assignable ρ v seen { name := x } := by
      rintro x ⟨⟩
      exact htarget
    have hcall : Lockstep ρ v seen
        (fun r => seen r ∨ ∃ x ∈ some target, r ∈ p.membersOf callee x)
        (Statement.bits cx { target, expr := .call callee args })
        (Statement.bits cx'
          (Statement.rename (ρ.name v.active) { target, expr := .call callee args })) := by
      unfold Statement.bits
      rw [Statement.expr_rename, Statement.target_rename]
      dsimp only [Expr.rename]
      rw [Expr.length_renameAll]
      exact hcx.call callee hclear (some target) htarget' (Expr.lowBits_lockstep hcx args hargs)
        (Expr.bitsAll_lockstep hcx args hargs)
    refine hcall.congr fun r hold => ?_
    have hmembers : (∃ x ∈ some target, r ∈ p.membersOf callee x) ↔
        r ∈ p.membersOf callee target := by
      simp only [Option.mem_some_iff, exists_eq_left']
    exact (or_congr_right hmembers).trans (hbinds r _ hold)
  | _ => exact hvalue

end NandHdl
