-- SUMMARY: Width inference finds the same widths for a body and its renamed version (`inferWidths_renamed`).
import NandHdl.Proofs.Renaming.Scopes

/-!
# Widths up to a renaming

Both inferences take the same course. They ask the scope for a name only if the pass has not found a
width for it. A body whose scope may have the old name from the start binds it first, and has found a
width by then, so what a caller has bound to the old name is never asked for.
-/

namespace NandHdl

variable {ρ : Renaming} {v : View} {p : Program} {i : Nat} {s s' : Scope} {seen : Ref → Prop}
  {w w' : NameMap Nat}

/-! ## Expressions -/

/-- The widths found so far are the same up to names. -/
def WidthsRenamed (ρ : Renaming) (v : View) (w w' : NameMap Nat) : Prop :=
  ∀ r : Ref, r.Plain → r.name ≠ ρ.new → w[r.text]? = w'[(ρ.ref v.active r).text]?

/-- The width of the reference is the same on both sides: it has been found, or the scopes know it. -/
def Ref.Sized (ρ : Renaming) (seen : Ref → Prop) (w : NameMap Nat) (r : Ref) : Prop :=
  r.Plain ∧ r.name ≠ ρ.new ∧ (r.name = ρ.old → seen r ∨ r.text ∈ w)

theorem callWidth_renameIn (p : Program) (i : Nat) (ρ : Renaming) (callee : String) :
    callWidth (p.renameIn i ρ) callee = callWidth p callee := by
  unfold callWidth
  rcases p.find?_renameIn i ρ callee with ⟨hnone, hnone'⟩ | ⟨m, active, hfind, hfind', -⟩
  · rw [hnone, hnone']
  · rw [hfind, hfind']
    rfl

theorem knownWidth_renamed (hs : s.Renamed ρ v seen s') (hw : WidthsRenamed ρ v w w')
    {r : Ref} (hr : r.Sized ρ seen w) :
    knownWidth s' w' (ρ.ref v.active r).text = knownWidth s w r.text := by
  obtain ⟨hplain, hnew, hold⟩ := hr
  rw [knownWidth, knownWidth, Std.TreeMap.getD_eq_getD_getElem?,
    Std.TreeMap.getD_eq_getD_getElem?, ← hw r hplain hnew]
  cases hfound : w[r.text]? with
  | some width => rfl
  | none =>
    have hunfound : r.text ∉ w := by
      rw [Std.TreeMap.mem_iff_isSome_getElem?, hfound]
      exact Bool.false_ne_true
    have hsame := hs.same r ⟨hplain, hnew, fun heq => (hold heq).resolve_right hunfound⟩
    exact hsame.widthOf_eq.symm

mutual

/-- An expression and its renamed version have one width. -/
theorem Expr.width_rename (hs : s.Renamed ρ v seen s') (hw : WidthsRenamed ρ v w w') :
    ∀ e : Expr, (∀ r ∈ e.sizing, r.Sized ρ seen w) →
      (e.rename (ρ.name v.active)).width s' (p.renameIn i ρ) w' = e.width s p w
  | .number _, _ => rfl
  | .ident name, h => knownWidth_renamed hs hw (h { name } (List.mem_singleton_self _))
  | .index _ _, _ => rfl
  | .slice _ _ _, _ => rfl
  | .member (.ident name) field, h =>
    knownWidth_renamed hs hw (h { name, field := some field } (List.mem_singleton_self _))
  | .member (.number _) _, _ | .member (.index _ _) _, _ | .member (.slice _ _ _) _, _
  | .member (.member _ _) _, _ | .member (.concat _) _, _ | .member (.call _ _) _, _ => rfl
  | .concat parts, h => by
    rw [Expr.rename, Expr.width, Expr.width, Expr.widths_rename hs hw parts h]
  | .call callee _, _ => callWidth_renameIn p i ρ callee

theorem Expr.widths_rename (hs : s.Renamed ρ v seen s') (hw : WidthsRenamed ρ v w w') :
    ∀ es : List Expr, (∀ r ∈ Expr.allSizing es, r.Sized ρ seen w) →
      Expr.widths s' (p.renameIn i ρ) w' (Expr.renameAll (ρ.name v.active) es) = Expr.widths s p w es
  | [], _ => rfl
  | e :: rest, h => by
    rw [Expr.renameAll, Expr.widths, Expr.widths,
      Expr.width_rename hs hw e fun r hr => h r (List.mem_append_left _ hr),
      Expr.widths_rename hs hw rest fun r hr => h r (List.mem_append_right _ hr)]

end

/-! ## Passes -/

namespace WidthPass

/-- The passes have found the same widths up to names, and both or none has found something new. -/
structure Renamed (ρ : Renaming) (v : View) (q q' : WidthPass) : Prop where
  widths : WidthsRenamed ρ v q.widths q'.widths
  changed : q.changed = q'.changed

variable {q q' : WidthPass}

theorem insert_renamed (hw : WidthsRenamed ρ v w w') {b : Ref} (hb : b.Plain)
    (hnew : b.name ≠ ρ.new) (width : Nat) :
    WidthsRenamed ρ v (w.insert b.text width) (w'.insert (ρ.ref v.active b).text width) := by
  intro r hr hrnew
  rw [Std.TreeMap.getElem?_insert, Std.TreeMap.getElem?_insert]
  simp only [Std.LawfulEqCmp.compare_eq_iff_eq, Ref.text_inj hb hr,
    Renaming.text_ref_inj hb hr hnew hrnew, hw r hr hrnew]

theorem Renamed.publish (h : q.Renamed ρ v q') {b : Ref} (hb : b.Plain)
    (hnew : b.name ≠ ρ.new) (width : Nat) :
    (q.publish b.text width).Renamed ρ v (q'.publish (ρ.ref v.active b).text width) := by
  refine ⟨insert_renamed h.widths hb hnew width, ?_⟩
  unfold WidthPass.publish
  rw [Std.TreeMap.contains_eq_isSome_getElem?, Std.TreeMap.contains_eq_isSome_getElem?,
    h.widths b hb hnew, h.changed]

theorem Renamed.widen (h : q.Renamed ρ v q') {b : Ref} (hb : b.Plain)
    (hnew : b.name ≠ ρ.new) (width : Nat) :
    (q.widen b.text width).Renamed ρ v (q'.widen (ρ.ref v.active b).text width) := by
  have hknown : q.widths.getD b.text 0 = q'.widths.getD (ρ.ref v.active b).text 0 := by
    rw [Std.TreeMap.getD_eq_getD_getElem?, Std.TreeMap.getD_eq_getD_getElem?, h.widths b hb hnew]
  unfold WidthPass.widen
  rw [hknown]
  split
  · exact ⟨insert_renamed h.widths hb hnew width, rfl⟩
  · exact h

/-! ## Statements -/

/-- The further outputs of the module that an expression calls. -/
def furtherOutputs (p : Program) : Expr → List Port
  | .call callee _ => ((p.find? callee).map fun m => m.outputs.drop 1).getD []
  | _ => []

theorem publishOutputs_eq (p : Program) (q : WidthPass) (t : Statement) :
    q.publishOutputs p t = (furtherOutputs p t.expr).foldl
      (fun q out => q.publish (memberName t.target out.name) out.width) q := by
  obtain ⟨target, e⟩ := t
  cases e with
  | call callee args =>
    unfold publishOutputs furtherOutputs
    dsimp only
    cases p.find? callee with
    | none => rfl
    | some m => rfl
  | _ => rfl

theorem mem_furtherOutputs {e : Expr} {out : Port} (h : out ∈ furtherOutputs p e) :
    ∃ m ∈ p.modules, out ∈ m.outputs := by
  unfold furtherOutputs at h
  split at h
  · next callee _ =>
    cases hfind : p.find? callee with
    | none =>
      rw [hfind] at h
      exact nomatch h
    | some m =>
      rw [hfind] at h
      exact ⟨m, (Program.find?_eq_some hfind).1, List.mem_of_mem_drop h⟩
  · exact nomatch h

theorem furtherOutputs_rename (p : Program) (i : Nat) (ρ : Renaming) (v : View) (e : Expr) :
    furtherOutputs (p.renameIn i ρ) (e.rename (ρ.name v.active)) = furtherOutputs p e := by
  cases e with
  | call callee args =>
    unfold furtherOutputs Expr.rename
    dsimp only
    rcases p.find?_renameIn i ρ callee with ⟨hnone, hnone'⟩ | ⟨m, active', hfind, hfind', -⟩
    · rw [hnone, hnone']
    · rw [hfind, hfind']
      rfl
  | _ => rfl

theorem mem_publish {name x : String} {width : Nat} :
    x ∈ (q.publish name width).widths ↔ name = x ∨ x ∈ q.widths := by
  rw [WidthPass.publish, Std.TreeMap.mem_insert, Std.LawfulEqCmp.compare_eq_iff_eq]

theorem mem_widen {name x : String} {width : Nat} (h : x ∈ q.widths) :
    x ∈ (q.widen name width).widths := by
  unfold WidthPass.widen
  split
  · exact Std.TreeMap.mem_insert.2 (.inr h)
  · exact h

theorem mem_widen_self {name : String} {width : Nat} (hwidth : 0 < width) :
    name ∈ (q.widen name width).widths := by
  unfold WidthPass.widen
  split
  · exact Std.TreeMap.mem_insert_self
  · next hle =>
    -- A name without a width counts as 0, and that would have been widened.
    by_contra hmem
    rw [Std.TreeMap.getD_eq_fallback hmem] at hle
    exact hle hwidth

theorem mem_publishAll {outs : List Port} {target x : String} :
    x ∈ (outs.foldl (fun q out => q.publish (memberName target out.name) out.width) q).widths ↔
      (∃ out ∈ outs, memberName target out.name = x) ∨ x ∈ q.widths := by
  induction outs generalizing q with
  | nil => simp
  | cons out rest ih =>
    rw [List.foldl_cons, ih, mem_publish, List.exists_mem_cons_iff, or_left_comm, or_assoc]

theorem Renamed.publishAll (h : q.Renamed ρ v q') {target : String} (htarget : PlainName target)
    (hnew : target ≠ ρ.new) {outs : List Port} (houts : ∀ out ∈ outs, PlainName out.name) :
    (outs.foldl (fun q out => q.publish (memberName target out.name) out.width) q).Renamed ρ v
      (outs.foldl (fun q out => q.publish (memberName (ρ.name v.active target) out.name) out.width)
        q') := by
  induction outs generalizing q q' with
  | nil => exact h
  | cons out rest ih =>
    rw [List.forall_mem_cons] at houts
    have hb : Ref.Plain { name := target, field := some out.name } :=
      ⟨htarget, fun field hfield => Option.some.inj hfield ▸ houts.1⟩
    exact ih (h.publish hb hnew out.width) houts.2

theorem wanted_rename (hs : s.Renamed ρ v seen s') (hw : WidthsRenamed ρ v w w') {e : Expr}
    (he : ∀ r ∈ e.sizing, r.Sized ρ seen w) :
    wanted s' (p.renameIn i ρ) w' (e.rename (ρ.name v.active)) = wanted s p w e := by
  have hwidth := Expr.width_rename (p := p) (i := i) hs hw e he
  cases e with
  | number value => rfl
  | _ => exact congrArg (max 1) hwidth

theorem wanted_pos (e : Expr) : 0 < wanted s p w e := by
  unfold wanted
  split
  · exact Nat.one_pos
  · exact Nat.lt_of_lt_of_le Nat.one_pos (Nat.le_max_left _ _)

theorem mem_statement {t : Statement} {x : String}
    (h : (∃ out ∈ furtherOutputs p t.expr, memberName t.target out.name = x) ∨ x ∈ q.widths) :
    x ∈ (statement s p q t).widths := by
  have hpublished : x ∈ (q.publishOutputs p t).widths := by
    rw [publishOutputs_eq]
    exact mem_publishAll.2 h
  unfold statement
  dsimp only
  split
  · exact hpublished
  · exact mem_widen hpublished

/-- After a statement the widths of what it binds have been found, unless its target is a port. -/
theorem mem_statement_of_binds {t : Statement} {r : Ref} (hr : r ∈ t.binds p)
    (hport : r.field = none → ¬s.isPort r.name = true) : r.text ∈ (statement s p q t).widths := by
  rcases Program.mem_binds hr with rfl | ⟨callee, args, hcall, hr⟩
  · unfold statement
    dsimp only
    rw [if_neg (hport rfl)]
    exact mem_widen_self (wanted_pos _)
  · obtain ⟨-, m, hfind, out, hout, rfl⟩ := Program.mem_membersOf hr
    refine mem_statement (.inl ⟨out, ?_, rfl⟩)
    rw [hcall, furtherOutputs, hfind]
    exact hout

theorem statement_renamed (h : q.Renamed ρ v q') (hs : s.Renamed ρ v seen s')
    {t : Statement} (htarget : PlainName t.target) (hnew : t.target ≠ ρ.new)
    (houts : ∀ out ∈ furtherOutputs p t.expr, PlainName out.name)
    (hsizing : ∀ r ∈ t.expr.sizing, r.Sized ρ seen q.widths) :
    (WidthPass.statement s p q t).Renamed ρ v
      (WidthPass.statement s' (p.renameIn i ρ) q' (t.rename (ρ.name v.active))) := by
  have hpublished : (q.publishOutputs p t).Renamed ρ v
      (q'.publishOutputs (p.renameIn i ρ) (t.rename (ρ.name v.active))) := by
    rw [publishOutputs_eq, publishOutputs_eq, Statement.expr_rename, furtherOutputs_rename]
    exact h.publishAll htarget hnew houts
  have hsized : ∀ r ∈ t.expr.sizing, r.Sized ρ seen (q.publishOutputs p t).widths := by
    intro r hr
    obtain ⟨hplain, hrnew, hold⟩ := hsizing r hr
    refine ⟨hplain, hrnew, fun heq => (hold heq).imp_right fun hmem => ?_⟩
    rw [publishOutputs_eq]
    exact mem_publishAll.2 (.inr hmem)
  unfold WidthPass.statement
  dsimp only
  rw [Statement.expr_rename, Statement.target_rename, wanted_rename hs hpublished.widths hsized]
  by_cases hport : s.isPort t.target = true
  · rw [if_pos hport, if_pos ((hs.isPort_iff _ hnew).1 hport)]
    exact hpublished
  · rw [if_neg hport, if_neg fun hport' => hport ((hs.isPort_iff _ hnew).2 hport')]
    exact hpublished.widen (b := { name := t.target }) ⟨htarget, nofun⟩ hnew _

/-! ## Bodies -/

section

variable {m : ModuleDecl} (hm : m.Fits ρ v.active p) (hs : s.Renamed ρ v (p.SeenFirst ρ m) s')

include hm hs

/-- The statements above have found the widths that a statement asks the scope for in vain. -/
theorem foldl_renamed {above below : List Statement} (hsplit : m.statements = above ++ below)
    (hfound : ∀ t ∈ above, ∀ r ∈ t.binds p, r.name = ρ.old → ¬p.SeenFirst ρ m r → r.text ∈ q.widths)
    (h : q.Renamed ρ v q') :
    (below.foldl (statement s p) q).Renamed ρ v
      ((below.map (Statement.rename (ρ.name v.active))).foldl (statement s' (p.renameIn i ρ)) q') := by
  induction below generalizing above q q' with
  | nil => exact h
  | cons t below ih =>
    have ht : t ∈ m.statements := hsplit ▸ List.mem_append_right _ List.mem_cons_self
    obtain ⟨htarget, hnew⟩ := hm.target t.target (List.mem_map_of_mem ht)
    have hsized : ∀ r ∈ t.expr.sizing, r.Sized ρ (p.SeenFirst ρ m) q.widths := by
      intro r hr
      have hread := t.expr.refs_of_sizing r hr
      obtain ⟨hplain, hrnew⟩ := hm.ref t ht r hread
      refine ⟨hplain, hrnew, fun hold => or_iff_not_imp_left.2 fun hseen => ?_⟩
      obtain ⟨hstart, hport⟩ := not_or.1 hseen
      have hasks : r.field ≠ none ∨ (r ∈ t.expr.sizing ∧ ρ.old ∉ m.portNames) := by
        rw [ModuleDecl.IsPortRef, not_and_or, hold] at hport
        exact hport.imp_right fun hnot => ⟨hr, hnot⟩
      have hfirst := hm.bindsFirst.resolve_left hstart
      obtain ⟨t', ht', hbinds⟩ := hfirst.above hsplit hread hold hasks
      exact hfound t' ht' r hbinds hold hseen
    have houts : ∀ out ∈ furtherOutputs p t.expr, PlainName out.name := by
      intro out hout
      obtain ⟨callee, hcallee, hmem⟩ := mem_furtherOutputs hout
      exact hm.callee_port callee hcallee _ (ModuleDecl.output_mem_portNames hmem)
    have hnext : m.statements = (above ++ [t]) ++ below := by
      rw [hsplit, List.append_assoc, List.singleton_append]
    rw [List.map_cons, List.foldl_cons, List.foldl_cons]
    refine ih hnext ?_ (statement_renamed h hs htarget hnew houts hsized)
    rintro t' ht' ⟨name, field⟩ hr rfl hseen
    rcases List.mem_append.1 ht' with ht' | ht'
    · exact mem_statement (.inr (hfound t' ht' _ hr rfl hseen))
    · obtain rfl := List.mem_singleton.1 ht'
      refine mem_statement_of_binds hr ?_
      rintro rfl hport
      exact hseen (hs.seen_port hport)

theorem repeated_renamed (passes : Nat) (hw : WidthsRenamed ρ v w w') :
    WidthsRenamed ρ v (repeated s p m.statements passes w)
      (repeated s' (p.renameIn i ρ) (m.rename (ρ.name v.active)).statements passes w') := by
  induction passes generalizing w w' with
  | zero => exact hw
  | succ passes ih =>
    have hrun : (run s p m.statements w).Renamed ρ v
        (run s' (p.renameIn i ρ) (m.rename (ρ.name v.active)).statements w') :=
      foldl_renamed hm hs (List.nil_append _).symm nofun ⟨hw, rfl⟩
    unfold repeated
    dsimp only
    rw [← hrun.changed]
    split
    · exact ih hrun.widths
    · exact hrun.widths

end

end WidthPass

/-- Inference finds the same widths for a body and its renamed version. -/
theorem inferWidths_renamed {m : ModuleDecl} (hm : m.Fits ρ v.active p)
    (hs : s.Renamed ρ v (p.SeenFirst ρ m) s') :
    WidthsRenamed ρ v (inferWidths s p m.statements)
      (inferWidths s' (p.renameIn i ρ) (m.rename (ρ.name v.active)).statements) := by
  have hlength : (m.rename (ρ.name v.active)).statements.length = m.statements.length :=
    List.length_map _
  unfold inferWidths
  rw [hlength]
  exact WidthPass.repeated_renamed hm hs _ fun r _ _ => by simp

end NandHdl
