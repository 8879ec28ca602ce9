-- SUMMARY: Targets may be declared in any order (`declareTargets_perm`): the drafts are similar.
import NandHdl.Proofs.Reordering.Swaps

/-!
# Declarations in another order

A target is declared where its name first stands as a target, so another order of the statements is
another order of the declarations. Each of them adds signals and binds one name to them. Two names
that differ and hold no `[` have no entry of the scope in common.
-/

namespace NandHdl

/-! ## Targets to declare -/

/-- The targets that are declared: each name once, and no ports. -/
def freshTargets (isPort : String → Bool) (declared : NameSet) : List Statement → List String
  | [] => []
  | s :: rest =>
    if isPort s.target || declared.contains s.target then freshTargets isPort declared rest
    else s.target :: freshTargets isPort (declared.insert s.target) rest

section

variable {isPort : String → Bool} {declared : NameSet} {statements statements' : List Statement}
  {x : String}

theorem contains_insert_iff {y : String} :
    (declared.insert y).contains x = false ↔ y ≠ x ∧ declared.contains x = false := by
  rw [Std.TreeSet.contains_insert, Bool.or_eq_false_iff, beq_eq_false_iff_ne, ne_eq,
    Std.LawfulEqCmp.compare_eq_iff_eq]

theorem mem_freshTargets : x ∈ freshTargets isPort declared statements ↔
    isPort x = false ∧ declared.contains x = false ∧ ∃ s ∈ statements, s.target = x := by
  induction statements generalizing declared with
  | nil => simp [freshTargets]
  | cons s rest ih =>
    rw [freshTargets]
    split
    · next hskip =>
      rw [ih]
      refine and_congr_right fun hport => and_congr_right fun hdeclared => ?_
      rw [List.exists_mem_cons_iff]
      refine (or_iff_right ?_).symm
      rintro rfl
      rw [hport, hdeclared] at hskip
      exact Bool.false_ne_true hskip
    · next hnew =>
      rw [Bool.not_eq_true, Bool.or_eq_false_iff] at hnew
      rw [List.mem_cons, ih, contains_insert_iff, List.exists_mem_cons_iff]
      constructor
      · rintro (rfl | ⟨hport, ⟨-, hdeclared⟩, hmem⟩)
        · exact ⟨hnew.1, hnew.2, .inl rfl⟩
        · exact ⟨hport, hdeclared, .inr hmem⟩
      · rintro ⟨hport, hdeclared, hmem⟩
        by_cases heq : s.target = x
        · exact .inl heq.symm
        · exact .inr ⟨hport, ⟨heq, hdeclared⟩, hmem.resolve_left heq⟩

theorem nodup_freshTargets : (freshTargets isPort declared statements).Nodup := by
  induction statements generalizing declared with
  | nil => exact .nil
  | cons s rest ih =>
    rw [freshTargets]
    split
    · exact ih
    · refine List.nodup_cons.2 ⟨fun hmem => ?_, ih⟩
      exact (contains_insert_iff.1 (mem_freshTargets.1 hmem).2.1).1 rfl

theorem freshTargets_perm (hperm : statements.Perm statements') :
    (freshTargets isPort declared statements).Perm (freshTargets isPort declared statements') := by
  refine (List.perm_ext_iff_of_nodup nodup_freshTargets nodup_freshTargets).2 fun x => ?_
  simp only [mem_freshTargets, hperm.mem_iff]

end

/-! ## Bindings -/

namespace Scope

variable {s s' : Scope} {f : SignalId → SignalId} {x y z : String} {bits bits' : Bits}

theorem getElem?_bindFrom_map {signals signals' : NameMap SignalId}
    (h : ∀ z : String, signals'[z]? = signals[z]?.map f) (start : Nat) (z : String) :
    (bindFrom x signals' start (bits.map f))[z]? =
      (bindFrom x signals start bits)[z]?.map f := by
  induction bits generalizing signals signals' start with
  | nil => exact h z
  | cons i rest ih =>
    refine ih (fun y => ?_) (start + 1)
    rw [Std.TreeMap.getElem?_insert, Std.TreeMap.getElem?_insert]
    split
    · rfl
    · exact h y

namespace Relabeled

/-- Both scopes bind the name, and the bits correspond. -/
theorem bind (h : s.Relabeled f s') (x : String) (bits : Bits) :
    (s.bind x bits).Relabeled f (s'.bind x (bits.map f)) where
  lookup_eq z := by
    match bits with
    | [] => exact h.lookup_eq z
    | [i] =>
      show (s'.signals.insert x (f i))[z]? = (s.signals.insert x i)[z]?.map f
      rw [Std.TreeMap.getElem?_insert, Std.TreeMap.getElem?_insert]
      split
      · rfl
      · exact h.lookup_eq z
    | i :: j :: rest =>
      show ((bindFrom x s'.signals 0 ((i :: j :: rest).map f)).insert x (f i))[z]? =
        ((bindFrom x s.signals 0 (i :: j :: rest)).insert x i)[z]?.map f
      rw [Std.TreeMap.getElem?_insert, Std.TreeMap.getElem?_insert]
      split
      · rfl
      · exact getElem?_bindFrom_map h.lookup_eq 0 z
  buses_eq z := by rw [buses_bind, buses_bind, List.length_map, h.buses_eq]
  isPort_eq z := by rw [isPort_bind, isPort_bind, h.isPort_eq]
  namePrefix_eq := by rw [namePrefix_bind, namePrefix_bind, h.namePrefix_eq]

/-- Two names may be bound in either order. -/
theorem bind_swap (hx : Unindexed x) (hy : Unindexed y) (hne : x ≠ y) (s : Scope)
    (bits bits' : Bits) :
    ((s.bind x bits).bind y bits').Relabeled id ((s.bind y bits').bind x bits) where
  lookup_eq z := by
    -- No entry belongs to both names.
    have hnone : entryOf x bits z = none ∨ entryOf y bits' z = none := by
      by_cases hz : z = x ∨ ∃ i, bitName x i = z
      · refine .inr (entryOf_of_ne ?_ (fun i heq => ?_) bits')
        · rcases hz with rfl | ⟨i, rfl⟩
          · exact hne
          · exact bitName_ne hy x i
        · rcases hz with rfl | ⟨j, rfl⟩
          · exact bitName_ne hx y i heq
          · exact hne (bitName_inj.1 heq).1.symm
      · rw [not_or, not_exists] at hz
        exact .inl (entryOf_of_ne hz.1 hz.2 bits)
    simp only [Option.map_id, id_eq, lookup?_bind]
    rcases hnone with hnone | hnone
    · rw [hnone, Option.none_or, Option.none_or]
    · rw [hnone, Option.none_or, Option.none_or]
  buses_eq z := by
    simp only [buses_bind]
    by_cases hz : x = z
    · have hz' : y ≠ z := fun heq => hne (hz.trans heq.symm)
      rw [if_pos hz, if_neg hz', if_pos hz]
    · rw [if_neg hz, if_neg hz]
  isPort_eq z := by simp only [isPort_bind]
  namePrefix_eq := by simp only [namePrefix_bind]

end Relabeled

end Scope

/-! ## New signals -/

open Elab

variable {d d' e e' : Draft} {base : Nat}

/-- Those of new signals that have the name of the constant 1. -/
def onesFrom (next : SignalId) : List String → List SignalId
  | [] => []
  | name :: rest => (if name = oneName then [next] else []) ++ onesFrom (next + 1) rest

/-- The fragment of new signals with the given names. -/
def namedFragment (next : SignalId) (names : List String) : Fragment :=
  { count := names.length, ones := onesFrom next names }

theorem namedFragment_cons (next : SignalId) (name : String) (rest : List String) :
    namedFragment next (name :: rest) =
      { count := 1, ones := if name = oneName then [next] else [] } ++
        namedFragment (next + 1) rest := by
  show Fragment.mk (rest.length + 1) _ _ _ _ = Fragment.mk (1 + rest.length) _ _ _ _
  rw [Nat.add_comm]
  rfl

theorem map_onesFrom {f : SignalId → SignalId} {next next' : SignalId} {names : List String}
    (hnext : ∀ j < names.length, f (next + j) = next' + j) :
    (onesFrom next names).map f = onesFrom next' names := by
  induction names generalizing next next' with
  | nil => rfl
  | cons name rest ih =>
    have hfirst : f next = next' := hnext 0 (Nat.zero_lt_succ _)
    rw [onesFrom, onesFrom, List.map_append, ih fun j hj => ?_]
    · congr 1
      split
      · rw [List.map_singleton, hfirst]
      · rfl
    · rw [Nat.add_assoc, Nat.add_comm 1, hnext (j + 1) (Nat.succ_lt_succ hj), Nat.add_assoc,
        Nat.add_comm 1]

theorem map_namedFragment {f : SignalId → SignalId} {next next' : SignalId} {names : List String}
    (hnext : ∀ j < names.length, f (next + j) = next' + j) :
    (namedFragment next names).map f = namedFragment next' names := by
  rw [namedFragment, Fragment.map, map_onesFrom hnext]
  rfl

theorem map_range' {f : SignalId → SignalId} {n m k : Nat} (hf : ∀ j < k, f (n + j) = m + j) :
    (List.range' n k).map f = List.range' m k := by
  rw [List.range'_eq_map_range, List.range'_eq_map_range, List.map_map]
  exact List.map_congr_left fun j hj => hf j (List.mem_range.1 hj)

theorem newSignals_run (hd : d.driven.size = d.netlist.signals.size) (owner : InstanceId)
    (names : List String) :
    ∃ e, (newSignals owner names).run d =
        .ok (List.range' d.netlist.signals.size names.length, e) ∧
      d.Gains e (namedFragment d.netlist.signals.size names) ∧ e.scope = d.scope ∧
      (∀ x ∉ names, e.netlist.signalId? x = d.netlist.signalId? x) ∧
      ∀ x ∈ names, (e.netlist.signalId? x).isSome := by
  induction names generalizing d with
  | nil => exact ⟨d, rfl, .refl hd, rfl, fun _ _ => rfl, nofun⟩
  | cons name rest ih =>
    have hfirst := Draft.gains_addSignal hd name owner
    obtain ⟨e, hrun, hrest, hscope, hother, hnamed⟩ := ih hfirst.driven_size
    rw [hfirst.size_eq] at hrun hrest
    refine ⟨e, ?_, ?_, hscope, fun x hx => ?_, fun x hx => ?_⟩
    · have hnew : (newSignals owner (name :: rest)).run d = (do
          let ids ← newSignals owner rest
          return d.netlist.signals.size :: ids : Elab Bits).run (d.addSignal name owner) := rfl
      rw [hnew, StateT.run_bind, hrun]
      rfl
    · rw [namedFragment_cons]
      exact hfirst.trans hrest
    · rw [List.mem_cons, not_or] at hx
      rw [hother x hx.2]
      exact (Netlist.signalId?_addSignal ..).trans (by rw [if_neg (Ne.symm hx.1), Option.or_none])
    · by_cases hmem : x ∈ rest
      · exact hnamed x hmem
      · obtain rfl := (List.mem_cons.1 hx).resolve_right hmem
        rw [hother x hmem]
        exact (congrArg Option.isSome (Netlist.signalId?_addSignal ..)).trans (by simp)

/-- The global names of the signals of a declared name. -/
def Scope.bitNames (s : Scope) (x : String) (width : Nat) : List String :=
  (Elab.bitNames x (max 1 width)).map s.globalName

theorem Scope.length_bitNames (s : Scope) (x : String) (width : Nat) :
    (s.bitNames x width).length = max 1 width := by
  rw [Scope.bitNames, List.length_map, Elab.length_bitNames]

/-- The draft `e` is `d` with the name declared. -/
structure Draft.Declares (d : Draft) (x : String) (width : Nat) (e : Draft) : Prop where
  gains : d.Gains e (namedFragment d.netlist.signals.size (d.scope.bitNames x width))
  scope_eq : e.scope = d.scope.bind x (List.range' d.netlist.signals.size (max 1 width))
  other : ∀ z ∉ d.scope.bitNames x width, e.netlist.signalId? z = d.netlist.signalId? z
  named : ∀ z ∈ d.scope.bitNames x width, (e.netlist.signalId? z).isSome

/-- A declaration never fails. -/
theorem declare_run (hd : d.driven.size = d.netlist.signals.size) (x : String) (width : Nat) :
    ∃ bits e, (declare x width).run d = .ok (bits, e) ∧ d.Declares x width e := by
  obtain ⟨e, hrun, hgains, hscope, hother, hnamed⟩ := newSignals_run hd d.scope.owner
    (d.scope.bitNames x width)
  rw [d.scope.length_bitNames] at hrun
  generalize hbits : List.range' d.netlist.signals.size (max 1 width) = bits at hrun
  have hdeclare : (declare x width).run d =
      .ok (bits, { e with scope := e.scope.bind x bits }) := by
    have hnew : (declare x width).run d = (do
        let bits ← newSignals d.scope.owner (d.scope.bitNames x width)
        modifyScope (·.bind x bits)
        return bits : Elab Bits).run d := rfl
    rw [hnew, StateT.run_bind, hrun]
    rfl
  refine ⟨bits, _, hdeclare, ?_, ?_, hother, hnamed⟩
  · exact ⟨hgains.size_eq, hgains.driven_size, hgains.clear, hgains.taken, hgains.gates,
      hgains.flops, hgains.ones, hgains.outputs⟩
  · rw [hbits, ← hscope]

/-! ## Declarations -/

variable {widths widths' : NameMap Nat} {x y : String}

/-- Declares a target with the width that was inferred for it. -/
def declareTarget (widths : NameMap Nat) (x : String) : Elab Unit :=
  discard (declare x (widths.getD x 1))

theorem declareTarget_run (hd : d.Accounted) (widths : NameMap Nat) (x : String) :
    ∃ e, (declareTarget widths x).run d = .ok ((), e) ∧ d.Declares x (widths.getD x 1) e ∧
      e.Accounted := by
  obtain ⟨bits, e, hrun, he⟩ := declare_run hd.driven_size x (widths.getD x 1)
  have hsafe := declare_safe hd x (widths.getD x 1)
  unfold Safe Meets at hsafe
  rw [hrun] at hsafe
  refine ⟨e, ?_, he, hsafe.1.accounted⟩
  have hmap : (declareTarget widths x).run d =
      (declare x (widths.getD x 1)).run d >>= fun r => pure (PUnit.unit, r.2) := rfl
  rw [hmap, hrun]
  rfl

theorem bitNames_congr {s s' : Scope} (h : s'.namePrefix = s.namePrefix) (x : String)
    (width : Nat) : s'.bitNames x width = s.bitNames x width := by
  have hglobal : s'.globalName = s.globalName := funext fun _ => congrArg (· ++ _) h
  rw [Scope.bitNames, Scope.bitNames, hglobal]

theorem declareTarget_keeps (hwidth : widths'.getD x 1 = widths.getD x 1) :
    Keeps (Draft.Similar base) (declareTarget widths x) (declareTarget widths' x) := by
  rintro d d' ⟨σ, hd⟩
  obtain ⟨e, hrun, he, hacc⟩ := declareTarget_run hd.accounted widths x
  obtain ⟨e', hrun', he', hacc'⟩ := declareTarget_run hd.accounted' widths' x
  rw [hwidth] at he'
  refine .inl ⟨_, _, e, e', hrun, hrun', σ, ?_⟩
  have hgains := he'.gains
  have hscope := hd.scope.bind x (List.range' d.netlist.signals.size (max 1 (widths.getD x 1)))
  -- New signals have the same numbers on both sides.
  have hnext : ∀ j, σ (d.netlist.signals.size + j) = d.netlist.signals.size + j := fun j =>
    hd.netlist.past _ (Nat.le_add_right _ j)
  rw [map_range' fun j _ => hnext j] at hscope
  rw [hd.netlist.size_eq, bitNames_congr hd.scope.namePrefix_eq,
    ← map_namedFragment fun j _ => hnext j] at hgains
  refine hd.gains he.gains hgains ?_ hacc hacc'
  rw [he.scope_eq, he'.scope_eq, hd.netlist.size_eq]
  exact hscope

/-- If two names are bound to blocks of new signals, the blocks change places with the names. -/
theorem bind_blockSwap {s : Scope} {n p q : Nat} (hx : Unindexed x) (hy : Unindexed y) (hne : x ≠ y)
    (hfixed : s.Relabeled (blockSwap n p q) s) :
    ((s.bind x (List.range' n p)).bind y (List.range' (n + p) q)).Relabeled (blockSwap n p q)
      ((s.bind y (List.range' n q)).bind x (List.range' (n + q) p)) := by
  have hfirst : ∀ j < p, blockSwap n p q (n + j) = n + q + j := fun j hj =>
    (blockSwap_first (Nat.add_lt_add_left hj n)).trans (shift_add n (n + q) j)
  have hsecond : ∀ j < q, blockSwap n p q (n + p + j) = n + j := by
    intro j hj
    rw [← shift_add n (n + p) j]
    exact blockSwap_second (Nat.add_lt_add_left hj n)
  have hbound := (hfixed.bind x (List.range' n p)).bind y (List.range' (n + p) q)
  rw [map_range' hfirst, map_range' hsecond] at hbound
  exact hbound.trans (.bind_swap hx hy hne s _ _)

/-- Two targets may be declared in either order. -/
theorem declareTarget_swap (hx : Unindexed x) (hy : Unindexed y) (hne : x ≠ y) :
    Replaces (Draft.Similar base)
      (declareTarget widths x >>= fun _ => declareTarget widths y)
      (declareTarget widths y >>= fun _ => declareTarget widths x) := by
  rintro d _ ⟨rfl, σ, hrefl⟩
  have hd : d.Accounted := hrefl.accounted
  obtain ⟨da, hruna, ha, hda⟩ := declareTarget_run hd widths x
  obtain ⟨db, hrunb, hb, hdb⟩ := declareTarget_run hd widths y
  obtain ⟨e, hrun, he, hacc⟩ := declareTarget_run hda widths y
  obtain ⟨e', hrun', he', hacc'⟩ := declareTarget_run hdb widths x
  refine .inl ⟨_, _, e, e', (run_andThen hruna).trans hrun, (run_andThen hrunb).trans hrun', _,
    Draft.rearranged_swap hd hrefl.base_le ha.gains hda hb.gains hdb ?_ ?_ hacc hacc' ?_⟩
  · rw [map_namedFragment fun j _ => shift_add _ _ j]
    have h := he.gains
    rwa [ha.scope_eq, bitNames_congr (Scope.namePrefix_bind ..)] at h
  · rw [map_namedFragment fun j _ => shift_add _ _ j]
    have h := he'.gains
    rwa [hb.scope_eq, bitNames_congr (Scope.namePrefix_bind ..)] at h
  · have hcount : ∀ z width next, (namedFragment next (d.scope.bitNames z width)).count =
        max 1 width := fun z width _ => d.scope.length_bitNames z width
    rw [he.scope_eq, he'.scope_eq, ha.scope_eq, hb.scope_eq, ha.gains.size_eq, hb.gains.size_eq,
      hcount, hcount]
    exact bind_blockSwap hx hy hne (hd.scope_fixed fun _ hi => blockSwap_of_lt hi)

/-- Each fresh target is declared. -/
theorem declareTargets_run (hd : d.Accounted) (declared : NameSet) (statements : List Statement) :
    (declareTargets widths declared statements).run d =
      ((freshTargets d.scope.isPort declared statements).forM (declareTarget widths)).run d := by
  induction statements generalizing d declared with
  | nil => rfl
  | cons s rest ih =>
    have hrun : (declareTargets widths declared (s :: rest)).run d =
        (if d.scope.isPort s.target || declared.contains s.target then
          declareTargets widths declared rest
        else do
          declareTarget widths s.target
          declareTargets widths (declared.insert s.target) rest : Elab Unit).run d := rfl
    rw [hrun, freshTargets]
    split
    · exact ih hd declared
    · obtain ⟨e, hdeclare, he, hacc⟩ := declareTarget_run hd widths s.target
      have hport : e.scope.isPort = d.scope.isPort := by rw [he.scope_eq, Scope.isPort_bind]
      rw [run_andThen hdeclare, ih hacc, hport]
      exact (run_andThen hdeclare).symm

/-- Targets may be declared in any order. -/
theorem declareTargets_perm {statements statements' : List Statement} (hd : d.Accounted)
    (widths widths' : NameMap Nat) (hperm : statements.Perm statements')
    (hplain : ∀ s ∈ statements, d.scope.isPort s.target = false → Unindexed s.target)
    (hwidths : ∀ s ∈ statements, d.scope.isPort s.target = false →
      widths'.getD s.target 1 = widths.getD s.target 1) :
    (∃ e e', (declareTargets widths {} statements).run d = .ok ((), e) ∧
      (declareTargets widths' {} statements').run d = .ok ((), e') ∧
        Draft.Similar d.netlist.signals.size e e') ∨
    ∃ err err', (declareTargets widths {} statements).run d = .error err ∧
      (declareTargets widths' {} statements').run d = .error err' := by
  rw [declareTargets_run hd, declareTargets_run hd]
  have hfresh : ∀ {x}, x ∈ freshTargets d.scope.isPort {} statements →
      d.scope.isPort x = false ∧ ∃ s ∈ statements, s.target = x := fun hx =>
    ⟨(mem_freshTargets.1 hx).1, (mem_freshTargets.1 hx).2.2⟩
  have hunindexed : ∀ x ∈ freshTargets d.scope.isPort {} statements, Unindexed x := by
    intro x hx
    obtain ⟨hport, s, hs, rfl⟩ := hfresh hx
    exact hplain s hs hport
  have hsame : ∀ x ∈ freshTargets d.scope.isPort {} statements,
      widths'.getD x 1 = widths.getD x 1 := by
    intro x hx
    obtain ⟨hport, s, hs, rfl⟩ := hfresh hx
    exact hwidths s hs hport
  have hfreshperm : (freshTargets d.scope.isPort {} statements).Perm
      (freshTargets d.scope.isPort {} statements') := freshTargets_perm hperm
  generalize freshTargets d.scope.isPort {} statements = names at *
  generalize freshTargets d.scope.isPort {} statements' = names' at *
  have hsimilar : Keeps (Draft.Similar d.netlist.signals.size) (names.forM (declareTarget widths))
      (names'.forM (declareTarget widths')) :=
    similar_forM_perm hfreshperm (fun _ _ => declareTarget_keeps rfl)
      (fun x hx y hy hne => declareTarget_swap (hunindexed x hx) (hunindexed y hy) hne)
      fun x hx => declareTarget_keeps (hsame x hx)
  rcases hsimilar d d ⟨_, .refl hd (Nat.le_refl _)⟩ with
    ⟨_, _, e, e', hrun, hrun', he⟩ | ⟨err, err', hrun, hrun'⟩
  · exact .inl ⟨e, e', hrun, hrun', he⟩
  · exact .inr ⟨err, err', hrun, hrun'⟩

end NandHdl
