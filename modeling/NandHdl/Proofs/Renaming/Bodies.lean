-- SUMMARY: A body and its renamed version are elaborated in lockstep (`elaborateBody_lockstep`), whatever they instantiate (`contextAt_renamed`).
import NandHdl.Proofs.Renaming.Instances

/-!
# Bodies up to a renaming

A body and its renamed version start with their ports. Once the targets are declared, all targets
have been seen of the old name, and each statement adds the members that it binds. So every read of
the statements is one that answers alike, and by induction on the depth of nesting so is everything
that the body instantiates.
-/

namespace NandHdl

open Elab

variable {ρ : Renaming} {v : View} {active : Bool} {seen : Ref → Prop} {p : Program} {i : Nat}
  {cx cx' : Context} {m : ModuleDecl}

/-! ## Declarations -/

/-- The same targets have been declared up to names, and what has the old name has been seen. -/
structure DeclaredAlike (ρ : Renaming) (active : Bool) (seen : Ref → Prop)
    (declared declared' : NameSet) : Prop where
  contains_iff : ∀ x ≠ ρ.new,
    declared.contains x = true ↔ declared'.contains (ρ.name active x) = true
  seen : declared.contains ρ.old = true → seen { name := ρ.old }

theorem declaredAlike_empty : DeclaredAlike ρ active seen {} {} :=
  ⟨fun x _ => by simp, fun h => by simp at h⟩

theorem DeclaredAlike.insert {declared declared' : NameSet}
    (h : DeclaredAlike ρ active seen declared declared') {x : String} (hx : x ≠ ρ.new) :
    DeclaredAlike ρ active (fun r => seen r ∨ r = { name := x }) (declared.insert x)
      (declared'.insert (ρ.name active x)) := by
  constructor
  case contains_iff =>
    intro y hy
    simp only [Std.TreeSet.contains_insert, Bool.or_eq_true, beq_iff_eq,
      Std.LawfulEqCmp.compare_eq_iff_eq, Renaming.name_inj hx hy, h.contains_iff y hy]
  case seen =>
    intro hold
    simp only [Std.TreeSet.contains_insert, Bool.or_eq_true, beq_iff_eq,
      Std.LawfulEqCmp.compare_eq_iff_eq] at hold
    rcases hold with rfl | hold
    · exact .inr rfl
    · exact .inl (h.seen hold)

/-- The targets are declared on both sides with the same widths. -/
theorem declareTargets_lockstep {w w' : NameMap Nat} (hw : WidthsRenamed ρ v w w')
    {statements : List Statement}
    (htargets : ∀ s ∈ statements, Ref.Bindable ρ v { name := s.target })
    {declared declared' : NameSet} (hdeclared : DeclaredAlike ρ v.active seen declared declared') :
    Lockstep ρ v seen (fun r => seen r ∨ r ∈ statements.map fun s => { name := s.target })
      (declareTargets w declared statements)
      (declareTargets w' declared' (statements.map (Statement.rename (ρ.name v.active)))) := by
  induction statements generalizing seen declared declared' with
  | nil => exact (lockstep_pure ()).congr fun _ _ => (or_iff_left List.not_mem_nil).symm
  | cons s rest ih =>
    rw [List.forall_mem_cons] at htargets
    obtain ⟨htarget, htargets⟩ := htargets
    refine together_scope_bind fun t t' ht => ?_
    have hskip : (t.isPort s.target || declared.contains s.target) = true ↔
        (t'.isPort (ρ.name v.active s.target) || declared'.contains (ρ.name v.active s.target)) =
          true := by
      rw [Bool.or_eq_true, Bool.or_eq_true, ht.isPort_iff _ htarget.ne_new,
        hdeclared.contains_iff _ htarget.ne_new]
    by_cases hskipped : (t.isPort s.target || declared.contains s.target) = true
    · rw [if_pos hskipped, Statement.target_rename, if_pos (hskip.1 hskipped)]
      refine (ih htargets hdeclared).congr fun r hold => ?_
      have hseen : r = { name := s.target } → seen r := by
        rintro rfl
        change s.target = ρ.old at hold
        rw [hold] at hskipped ⊢
        exact (Bool.or_eq_true _ _ ▸ hskipped).elim ht.seen_port hdeclared.seen
      rw [List.map_cons, List.mem_cons, ← or_assoc, or_iff_left_of_imp hseen]
    · rw [if_neg hskipped, Statement.target_rename, if_neg fun h => hskipped (hskip.2 h)]
      have hwidth : w'.getD (ρ.name v.active s.target) 1 = w.getD s.target 1 := by
        rw [Std.TreeMap.getD_eq_getD_getElem?, Std.TreeMap.getD_eq_getD_getElem?]
        exact congrArg (·.getD 1) (hw _ htarget.plain htarget.ne_new).symm
      rw [hwidth]
      refine (declare_lockstep htarget _).discard.bind fun _ => ?_
      refine (ih htargets (hdeclared.insert htarget.ne_new)).congr fun r _ => ?_
      rw [List.map_cons, List.mem_cons, or_assoc]

/-! ## Statements -/

theorem elaborateStatement_lockstep (hcx : cx.Renamed ρ p i cx') {s : Statement}
    (htarget : Ref.Assignable ρ v seen { name := s.target })
    (hexpr : Allows ρ p v seen s.expr.refs s.expr.callees) :
    Lockstep ρ v seen (fun r => seen r ∨ r ∈ s.binds p) (elaborateStatement cx s)
      (elaborateStatement cx' (s.rename (ρ.name v.active))) := by
  refine (Statement.bits_lockstep hcx htarget hexpr).bind fun src => ?_
  have htarget' : Ref.Readable ρ (fun r => seen r ∨ r ∈ s.binds p) { name := s.target } :=
    ⟨htarget.plain, htarget.ne_new, fun hold => .inl (htarget.seen hold)⟩
  exact (bitsOf_lockstep htarget').bind fun dst => wire_lockstep src dst

/-- What has been seen in a body before a statement: what had been at first, the targets, and the
members that the statements above bind. -/
def ModuleDecl.Seen (p : Program) (ρ : Renaming) (m : ModuleDecl) (above : List Statement)
    (r : Ref) : Prop :=
  (p.SeenFirst ρ m r ∨ r ∈ m.statements.map fun s => { name := s.target }) ∨
    ∃ s ∈ above, r ∈ s.binds p

theorem ModuleDecl.seen_append_singleton {above : List Statement} {s : Statement} {r : Ref} :
    m.Seen p ρ (above ++ [s]) r ↔ m.Seen p ρ above r ∨ r ∈ s.binds p := by
  simp [Seen, or_assoc, or_and_right, exists_or]

/-- What a statement reads has been seen. -/
theorem ModuleDecl.Fits.readable (hm : m.Fits ρ active p) {above below : List Statement}
    {s : Statement} (hsplit : m.statements = above ++ s :: below) {r : Ref}
    (hr : r ∈ s.expr.refs) : r.Readable ρ (m.Seen p ρ above) := by
  have hs : s ∈ m.statements := hsplit ▸ List.mem_append_right _ List.mem_cons_self
  obtain ⟨hplain, hnew⟩ := hm.ref s hs r hr
  refine ⟨hplain, hnew, fun hold => ?_⟩
  rcases hm.bindsFirst with hstart | hfirst
  · exact .inl (.inl (.inl hstart))
  by_cases hfield : r.field = none
  · rcases hm.readsOwn s hs r hr with hport | ⟨t, ht, hbinds⟩
    · exact .inl (.inl (.inr hport))
    · refine .inl (.inr (List.mem_map.2 ⟨t, ht, ?_⟩))
      obtain ⟨name, field⟩ := r
      obtain rfl : field = none := hfield
      rw [← Program.binds_name hbinds]
  · exact .inr (hfirst.above hsplit hr hold (.inl hfield))

theorem elaborateStatements_lockstep (hcx : cx.Renamed ρ p i cx') (hm : m.Fits ρ active p)
    {above below : List Statement} (hsplit : m.statements = above ++ below) :
    Lockstep ρ (p.view ρ m active) (m.Seen p ρ above) (m.Seen p ρ m.statements)
      (elaborateStatements cx below)
      (elaborateStatements cx' (below.map (Statement.rename (ρ.name active)))) := by
  induction below generalizing above with
  | nil =>
    rw [List.append_nil] at hsplit
    exact hsplit ▸ lockstep_pure ()
  | cons s below ih =>
    have hs : s ∈ m.statements := hsplit ▸ List.mem_append_right _ List.mem_cons_self
    have hbindable := hm.bindable_target hs
    have htarget : Ref.Assignable ρ (p.view ρ m active) (m.Seen p ρ above) { name := s.target } :=
      ⟨⟨hbindable.plain, hbindable.ne_new, fun _ => .inl (.inr (List.mem_map_of_mem hs))⟩,
        hbindable.ne_old⟩
    have hexpr : Allows ρ p (p.view ρ m active) (m.Seen p ρ above) s.expr.refs s.expr.callees :=
      ⟨fun r hr => hm.readable hsplit hr, fun callee hcallee m' hfind hstart =>
        hstart.staysClear ⟨s, hs, callee, hcallee, hfind⟩⟩
    have hnext : m.statements = (above ++ [s]) ++ below := by
      rw [hsplit, List.append_assoc, List.singleton_append]
    have hstatement : Lockstep ρ (p.view ρ m active) (m.Seen p ρ above)
        (m.Seen p ρ (above ++ [s])) (elaborateStatement cx s)
        (elaborateStatement cx' (s.rename (ρ.name active))) :=
      (elaborateStatement_lockstep hcx htarget hexpr).congr
        fun _ _ => ModuleDecl.seen_append_singleton.symm
    exact hstatement.bind fun _ => ih hnext

/-- A body and its renamed version are elaborated in lockstep. -/
theorem elaborateBody_lockstep (hcx : cx.Renamed ρ p i cx') (hm : m.Fits ρ active p) :
    Lockstep ρ (p.view ρ m active) (p.SeenFirst ρ m) (m.Seen p ρ m.statements)
      (elaborateBody cx m.statements)
      (elaborateBody cx' (m.rename (ρ.name active)).statements) := by
  have hdeclare : Lockstep ρ (p.view ρ m active) (p.SeenFirst ρ m) (m.Seen p ρ [])
      (declareBody cx m.statements) (declareBody cx' (m.rename (ρ.name active)).statements) := by
    refine together_scope_bind fun s s' hs => ?_
    rw [hcx.program, hcx.program_renamed]
    refine (declareTargets_lockstep (inferWidths_renamed hm hs) (fun s hs => hm.bindable_target hs)
      declaredAlike_empty).congr fun r _ => ?_
    simp [ModuleDecl.Seen]
  exact hdeclare.bind fun _ => elaborateStatements_lockstep hcx hm (List.nil_append _).symm

/-- Nested bodies are elaborated in lockstep as well. -/
theorem contextAt_renamed (hfits : ∀ {m : ModuleDecl} {on : Bool}, m ∈ p.modules →
      (on = true → p.modules[i]? = some m) → m.Fits ρ on p) (limit depth : Nat) :
    (contextAt p limit depth).Renamed ρ p i (contextAt (p.renameIn i ρ) limit depth) := by
  induction depth with
  | zero => exact ⟨rfl, rfl, .none⟩
  | succ depth ih =>
    refine ⟨rfl, rfl, .some ?_⟩
    intro m on v seen args target hmem hon hclear hlength htarget
    have hm := hfits hmem hon
    exact instantiate_lockstep hm hclear hlength htarget (elaborateBody_lockstep ih hm)

end NandHdl
