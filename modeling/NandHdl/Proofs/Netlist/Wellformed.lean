-- SUMMARY: What a netlist promises: numbering by position (`Netlist.Numbered`) and what validation checks (`Netlist.Wellformed`).
import NandHdl.Netlist.Validity
import NandHdl.Proofs.Checked
import Mathlib.Data.List.Nodup

/-!
# Well-formed netlists

The operations on netlists number signals and gates by their positions. Validation looks at
references and drivers: it succeeds exactly on the netlists in which every reference is the number
of a signal and no signal is driven twice.
-/

namespace NandHdl

namespace Netlist

/-! ## Numbering -/

/-- Signals and gates are numbered by their positions. -/
structure Numbered (n : Netlist) : Prop where
  signal : ∀ {i : Nat} {s : Signal}, n.signals[i]? = some s → s.id = i
  gate : ∀ {i : Nat} {g : NandGate}, n.gates[i]? = some g → g.id = i

namespace Numbered

variable {n n' : Netlist}

theorem gate_ids (h : n.Numbered) : n.gates.toList.map NandGate.id = List.range n.gates.size := by
  apply List.ext_getElem?
  intro i
  simp only [List.getElem?_map, Array.getElem?_toList]
  by_cases hi : i < n.gates.size
  · simp [hi, h.gate (Array.getElem?_eq_getElem hi)]
  · simp [hi]

theorem empty (top : String) : (Netlist.empty top).Numbered where
  signal h := by simp [Netlist.empty] at h
  gate h := by simp [Netlist.empty] at h

theorem addAlias (h : n.Numbered) (name : String) (id : SignalId) : (n.addAlias name id).Numbered :=
  ⟨h.signal, h.gate⟩

theorem addSignal (h : n.Numbered) (name : String) (owner : InstanceId) :
    (n.addSignal name owner).Numbered where
  signal {i s} hi := by
    simp only [Netlist.addSignal, Array.getElem?_push] at hi
    split at hi
    · next heq =>
      cases hi
      exact heq.symm
    · exact h.signal hi
  gate := h.gate

theorem addNand (h : n.Numbered) (in1 in2 out : SignalId) : (n.addNand in1 in2 out).Numbered where
  signal := h.signal
  gate {i g} hi := by
    simp only [Netlist.addNand, Array.getElem?_push] at hi
    split at hi
    · next heq =>
      cases hi
      exact heq.symm
    · exact h.gate hi

theorem addInstance (h : n.Numbered) (moduleName : String) (parent : InstanceId)
    (namePrefix : String) : (n.addInstance moduleName parent namePrefix).Numbered :=
  ⟨h.signal, h.gate⟩

/-- A change of signals that leaves their numbers alone keeps the numbering. -/
theorem modifySignal (h : n.Numbered) {k : SignalId} {f : Signal → Signal}
    (hf : ∀ s, (f s).id = s.id) (hsignals : n'.signals = n.signals.modify k f)
    (hgates : n'.gates = n.gates) : n'.Numbered where
  signal {i s} hi := by
    rw [hsignals, Array.getElem?_modify] at hi
    split at hi
    · obtain ⟨s', hs', rfl⟩ := Option.map_eq_some_iff.1 hi
      rw [hf, h.signal hs']
    · exact h.signal hi
  gate hi := h.gate (hgates ▸ hi)

theorem addDff (h : n.Numbered) {d clk q : SignalId} {b : Bool}
    (hok : n.addDff d clk q b = .ok n') : n'.Numbered := by
  obtain ⟨signals, hsignals, hn'⟩ := Except.bind_eq_ok.1 hok
  obtain ⟨-, rfl⟩ := Checked.modify_eq_ok.1 hsignals
  cases hn'
  exact h.modifySignal (f := fun s => { s with isDffOutput := true }) (fun _ => rfl) rfl rfl

theorem addPrimaryInput (h : n.Numbered) {id : SignalId} (hok : n.addPrimaryInput id = .ok n') :
    n'.Numbered := by
  obtain ⟨signals, hsignals, hn'⟩ := Except.bind_eq_ok.1 hok
  obtain ⟨-, rfl⟩ := Checked.modify_eq_ok.1 hsignals
  cases hn'
  exact h.modifySignal (f := fun s => { s with isPrimaryInput := true }) (fun _ => rfl) rfl rfl

theorem addPrimaryOutput (h : n.Numbered) {id : SignalId} (hok : n.addPrimaryOutput id = .ok n') :
    n'.Numbered := by
  obtain ⟨signals, hsignals, hn'⟩ := Except.bind_eq_ok.1 hok
  obtain ⟨-, rfl⟩ := Checked.modify_eq_ok.1 hsignals
  cases hn'
  exact h.modifySignal (f := fun s => { s with isPrimaryOutput := true }) (fun _ => rfl) rfl rfl

end Numbered

/-- A name is given only if it is free. -/
theorem signalId?_addAlias (n : Netlist) (name : String) (id : SignalId) (k : String) :
    (n.addAlias name id).signalId? k =
      (n.signalId? k).or (if name = k then some id else none) := by
  simp only [signalId?, addAlias, Std.TreeMap.getElem?_insertIfNew]
  by_cases h : name = k
  · subst h
    cases hn : n.names[name]? with
    | none => simp [Std.TreeMap.mem_iff_isSome_getElem?, hn]
    | some s => simp [Std.TreeMap.mem_iff_isSome_getElem?, hn]
  · simp [Std.LawfulEqCmp.compare_eq_iff_eq, h]

theorem signalId?_addSignal (n : Netlist) (name : String) (owner : InstanceId) (k : String) :
    (n.addSignal name owner).signalId? k =
      (n.signalId? k).or (if name = k then some n.signals.size else none) :=
  signalId?_addAlias n name n.signals.size k

/-! ## Validation -/

/-- The signals with a driver: the outputs of flip-flops and gates, once for each driver. -/
def drivenSignals (n : Netlist) : List SignalId :=
  n.dffs.toList.map Dff.q ++ n.gates.toList.map NandGate.out

/-- Every reference is the number of a signal, no signal has two drivers, and no gate drives a
signal that is marked as the output of a flip-flop. -/
structure Wellformed (n : Netlist) : Prop where
  gate_lt : ∀ g ∈ n.gates, g.in1 < n.signals.size ∧ g.in2 < n.signals.size ∧ g.out < n.signals.size
  dff_lt : ∀ f ∈ n.dffs, f.d < n.signals.size ∧ f.clk < n.signals.size ∧ f.q < n.signals.size
  port_lt : ∀ s, s ∈ n.primaryInputs ∨ s ∈ n.primaryOutputs → s < n.signals.size
  name_lt : ∀ {name s}, n.signalId? name = some s → s < n.signals.size
  clock_lt : ∀ s, n.clock = some s → s < n.signals.size
  driven_nodup : n.drivenSignals.Nodup
  unmarked : ∀ g ∈ n.gates, ∀ s, n.signals[g.out]? = some s → s.isDffOutput = false

variable {n : Netlist}

theorem signalAt_ok {s : SignalId} (h : s < n.signals.size) (owner : String) :
    n.signalAt owner s = .ok n.signals[s] := by
  simp [signalAt, h]

theorem signalAt_eq_ok {owner : String} {s : SignalId} {signal : Signal} :
    n.signalAt owner s = .ok signal ↔ n.signals[s]? = some signal := by
  unfold signalAt
  cases h : n.signals[s]? <;> simp

theorem checkReferences_eq_ok {refs : List (String × SignalId)} :
    n.checkReferences refs = .ok () ↔ ∀ r ∈ refs, r.2 < n.signals.size := by
  induction refs with
  | nil => simp [checkReferences]
  | cons r rest ih =>
    obtain ⟨owner, s⟩ := r
    by_cases h : s < n.signals.size
    · simp [checkReferences, signalAt_ok h, ih, h, discard, Functor.discard, Functor.mapConst,
        Except.map]
    · simp [checkReferences, signalAt, h, discard, Functor.discard, Functor.mapConst, Except.map,
        bind, Except.bind]

theorem claim_eq_ok {driven driven' : Driven} {s : SignalId} {name : String} :
    claim driven s name = .ok driven' ↔ s ∉ driven ∧ driven' = driven.insert s := by
  unfold claim
  cases h : driven.contains s with
  | true => simp [Std.TreeSet.mem_iff_contains, h]
  | false =>
    simp only [Std.TreeSet.mem_iff_contains, h, Bool.false_eq_true, reduceIte, Except.ok.injEq,
      not_false_eq_true, true_and]
    exact eq_comm

/-- What the flip-flops claim, if they can. -/
theorem claimDffs_eq_ok {driven driven' : Driven} {fs : List Dff}
    (h : n.claimDffs driven fs = .ok driven') :
    (fs.map Dff.q).Nodup ∧ (∀ f ∈ fs, f.q ∉ driven) ∧
      ∀ s, s ∈ driven' ↔ s ∈ driven ∨ s ∈ fs.map Dff.q := by
  induction fs generalizing driven with
  | nil =>
    cases h
    simp
  | cons f rest ih =>
    obtain ⟨signal, -, h⟩ := Except.bind_eq_ok.1 h
    obtain ⟨next, hclaim, h⟩ := Except.bind_eq_ok.1 h
    obtain ⟨hfree, rfl⟩ := claim_eq_ok.1 hclaim
    obtain ⟨hnodup, hrest, hmem⟩ := ih h
    have hne : ∀ g ∈ rest, g.q ≠ f.q := fun g hg heq => hrest g hg (by simp [heq])
    have hold : ∀ g ∈ rest, g.q ∉ driven := fun g hg hin => hrest g hg (by simp [hin])
    refine ⟨?_, ?_, ?_⟩
    · simpa [hnodup] using hne
    · simpa [hfree] using hold
    · intro s
      rw [hmem]
      simp only [Std.TreeSet.mem_insert, Std.LawfulEqCmp.compare_eq_iff_eq, List.map_cons,
        List.mem_cons]
      tauto

theorem claimDffs_ok (driven : Driven) (fs : List Dff) (hlt : ∀ f ∈ fs, f.q < n.signals.size)
    (hnodup : (fs.map Dff.q).Nodup) (hfree : ∀ f ∈ fs, f.q ∉ driven) :
    ∃ driven', n.claimDffs driven fs = .ok driven' := by
  induction fs generalizing driven with
  | nil => exact ⟨driven, rfl⟩
  | cons f rest ih =>
    simp only [List.map_cons, List.nodup_cons, List.mem_map, not_exists, not_and] at hnodup
    simp only [List.mem_cons, forall_eq_or_imp] at hlt hfree
    obtain ⟨driven', h⟩ := ih (driven.insert f.q) hlt.2 hnodup.2 fun g hg hin => by
      rcases Std.TreeSet.mem_insert.1 hin with heq | hin
      · exact hnodup.1 g hg (Std.LawfulEqCmp.compare_eq_iff_eq.1 heq).symm
      · exact hfree.2 g hg hin
    refine ⟨driven', ?_⟩
    rw [claimDffs, signalAt_ok hlt.1, Except.ok_bind, claim_eq_ok.2 ⟨hfree.1, rfl⟩,
      Except.ok_bind, h]

/-- What the gates claim, if they can. -/
theorem claimGates_eq_ok {driven driven' : Driven} {gs : List NandGate}
    (h : n.claimGates driven gs = .ok driven') :
    (gs.map NandGate.out).Nodup ∧ (∀ g ∈ gs, g.out ∉ driven) ∧
      ∀ g ∈ gs, ∀ s, n.signals[g.out]? = some s → s.isDffOutput = false := by
  induction gs generalizing driven with
  | nil => simp
  | cons g rest ih =>
    obtain ⟨signal, hsignal, h⟩ := Except.bind_eq_ok.1 h
    cases hmark : signal.isDffOutput with
    | true =>
      simp only [hmark] at h
      exact nomatch h
    | false =>
      simp only [hmark] at h
      obtain ⟨next, hclaim, h⟩ := Except.bind_eq_ok.1 h
      obtain ⟨hfree, rfl⟩ := claim_eq_ok.1 hclaim
      obtain ⟨hnodup, hrest, hunmarked⟩ := ih h
      have hne : ∀ k ∈ rest, k.out ≠ g.out := fun k hk heq => hrest k hk (by simp [heq])
      have hold : ∀ k ∈ rest, k.out ∉ driven := fun k hk hin => hrest k hk (by simp [hin])
      refine ⟨?_, ?_, ?_⟩
      · simpa [hnodup] using hne
      · simpa [hfree] using hold
      · simp only [List.mem_cons, forall_eq_or_imp]
        refine ⟨fun s hs => ?_, hunmarked⟩
        rw [signalAt_eq_ok.1 hsignal] at hs
        cases hs
        exact hmark

theorem claimGates_ok (driven : Driven) (gs : List NandGate)
    (hlt : ∀ g ∈ gs, g.out < n.signals.size)
    (hunmarked : ∀ g ∈ gs, ∀ s, n.signals[g.out]? = some s → s.isDffOutput = false)
    (hnodup : (gs.map NandGate.out).Nodup) (hfree : ∀ g ∈ gs, g.out ∉ driven) :
    ∃ driven', n.claimGates driven gs = .ok driven' := by
  induction gs generalizing driven with
  | nil => exact ⟨driven, rfl⟩
  | cons g rest ih =>
    simp only [List.map_cons, List.nodup_cons, List.mem_map, not_exists, not_and] at hnodup
    simp only [List.mem_cons, forall_eq_or_imp] at hlt hfree hunmarked
    obtain ⟨driven', h⟩ := ih (driven.insert g.out) hlt.2 hunmarked.2 hnodup.2
      fun k hk hin => by
        rcases Std.TreeSet.mem_insert.1 hin with heq | hin
        · exact hnodup.1 k hk (Std.LawfulEqCmp.compare_eq_iff_eq.1 heq).symm
        · exact hfree.2 k hk hin
    have hout := hlt.1
    have hmark : n.signals[g.out].isDffOutput = false :=
      hunmarked.1 _ (Array.getElem?_eq_getElem hout)
    refine ⟨driven', ?_⟩
    rw [claimGates, signalAt_ok hlt.1, Except.ok_bind, hmark]
    simp only [Bool.false_eq_true, reduceIte]
    rw [claim_eq_ok.2 ⟨hfree.1, rfl⟩]
    exact h

/-- The references are those of the gates, the flip-flops, the ports, the names and the clock. -/
theorem forall_references {P : SignalId → Prop} :
    (∀ r ∈ n.references, P r.2) ↔
      (∀ g ∈ n.gates, P g.in1 ∧ P g.in2 ∧ P g.out) ∧ (∀ f ∈ n.dffs, P f.d ∧ P f.clk ∧ P f.q) ∧
        (∀ s, s ∈ n.primaryInputs ∨ s ∈ n.primaryOutputs → P s) ∧
        (∀ name s, n.signalId? name = some s → P s) ∧ ∀ s, n.clock = some s → P s := by
  simp only [references, signalId?, List.mem_append, or_imp, forall_and, List.forall_mem_flatMap,
    List.forall_mem_map, Array.mem_toList_iff, List.mem_cons, List.not_mem_nil, or_false,
    forall_eq, Prod.forall, Std.TreeMap.mem_toList_iff_getElem?_eq_some, Option.mem_toList]
  tauto

theorem drivenSignals_nodup_iff :
    n.drivenSignals.Nodup ↔
      (n.dffs.toList.map Dff.q).Nodup ∧ (n.gates.toList.map NandGate.out).Nodup ∧
        ∀ f ∈ n.dffs, ∀ g ∈ n.gates, g.out ≠ f.q := by
  simp only [drivenSignals, List.nodup_append, List.forall_mem_map, Array.mem_toList_iff, ne_eq,
    eq_comm]

/-- Validation accepts the well-formed netlists and no other. -/
theorem validate_eq_ok : n.validate = .ok () ↔ n.Wellformed := by
  have hrefs := forall_references (n := n) (P := (· < n.signals.size))
  constructor
  · intro h
    obtain ⟨⟨⟩, hcheck, h⟩ := Except.bind_eq_ok.1 h
    obtain ⟨driven, hdffs, h⟩ := Except.bind_eq_ok.1 h
    obtain ⟨driven', hgates⟩ : ∃ driven', n.claimGates driven n.gates.toList = .ok driven' := by
      cases hgates : n.claimGates driven n.gates.toList with
      | error e => simp [hgates, discard, Functor.discard, Functor.mapConst, Except.map] at h
      | ok driven' => exact ⟨driven', rfl⟩
    obtain ⟨hgate, hdff, hport, hname, hclock⟩ := hrefs.1 (checkReferences_eq_ok.1 hcheck)
    obtain ⟨hqs, -, hmem⟩ := claimDffs_eq_ok hdffs
    obtain ⟨houts, hfree, hunmarked⟩ := claimGates_eq_ok hgates
    refine ⟨hgate, hdff, hport, hname _ _, hclock, drivenSignals_nodup_iff.2 ⟨hqs, houts, ?_⟩, ?_⟩
    · intro f hf g hg heq
      refine hfree g (Array.mem_toList_iff.2 hg) ((hmem _).2 (.inr ?_))
      exact List.mem_map.2 ⟨f, Array.mem_toList_iff.2 hf, heq.symm⟩
    · exact fun g hg => hunmarked g (Array.mem_toList_iff.2 hg)
  · intro h
    obtain ⟨hqs, houts, hne⟩ := drivenSignals_nodup_iff.1 h.driven_nodup
    have hcheck : n.checkReferences n.references = .ok () :=
      checkReferences_eq_ok.2
        (hrefs.2 ⟨h.gate_lt, h.dff_lt, h.port_lt, fun _ _ => h.name_lt, h.clock_lt⟩)
    obtain ⟨driven, hdffs⟩ := claimDffs_ok {} n.dffs.toList
      (fun f hf => (h.dff_lt f (Array.mem_toList_iff.1 hf)).2.2) hqs
      fun _ _ => Std.TreeSet.not_mem_emptyc
    obtain ⟨driven', hgates⟩ := claimGates_ok driven n.gates.toList
      (fun g hg => (h.gate_lt g (Array.mem_toList_iff.1 hg)).2.2)
      (fun g hg => h.unmarked g (Array.mem_toList_iff.1 hg)) houts fun g hg hin => by
        rcases ((claimDffs_eq_ok hdffs).2.2 _).1 hin with hin | hin
        · exact Std.TreeSet.not_mem_emptyc hin
        · obtain ⟨f, hf, heq⟩ := List.mem_map.1 hin
          exact hne f (Array.mem_toList_iff.1 hf) g (Array.mem_toList_iff.1 hg) heq.symm
    rw [validate, hcheck, Except.ok_bind, hdffs, Except.ok_bind, hgates]
    rfl

namespace Wellformed

theorem gate_out_nodup (h : n.Wellformed) : (n.gates.toList.map NandGate.out).Nodup :=
  (drivenSignals_nodup_iff.1 h.driven_nodup).2.1

theorem gate_out_ne_q (h : n.Wellformed) {f : Dff} {g : NandGate} (hf : f ∈ n.dffs)
    (hg : g ∈ n.gates) : g.out ≠ f.q :=
  (drivenSignals_nodup_iff.1 h.driven_nodup).2.2 f hf g hg

end Wellformed

end Netlist

end NandHdl
