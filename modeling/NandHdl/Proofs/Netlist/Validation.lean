-- SUMMARY: Validation accepts exactly the netlists without dangling references and double drivers, and what it reports is there (`Netlist.validate_exact`).
import NandHdl.Proofs.Netlist.Wellformed

/-!
# Validation of assembled netlists

The operations on netlists take any numbers for signals, so they can build a netlist that refers to
signals it does not have and drives others twice. Of two drivers of one signal validation sees some by
the list of driven signals and some by the mark on the outputs of flip-flops. The mark is as good as the
list, because in a netlist that was put together by the operations it is on those outputs and on no
other signal.
-/

namespace NandHdl

theorem Except.bind_eq_error {ε α β : Type} {x : Except ε α} {f : α → Except ε β} {e : ε} :
    (x >>= f) = .error e ↔ x = .error e ∨ ∃ a, x = .ok a ∧ f a = .error e := by
  cases x with
  | error e' => simp [bind, Except.bind]
  | ok a => simp [bind, Except.bind]

theorem Except.discard_eq_error {ε α : Type} {x : Except ε α} {e : ε} :
    (discard x : Except ε PUnit) = .error e ↔ x = .error e := by
  cases x with
  | error e' => simp [discard, Functor.discard, Functor.mapConst, Except.map]
  | ok a => simp [discard, Functor.discard, Functor.mapConst, Except.map]

theorem List.one_lt_count {α : Type} [BEq α] [LawfulBEq α] {a : α} {before after : List α}
    (h : a ∈ before) : 1 < (before ++ a :: after).count a := by
  have hpos := List.count_pos_iff.2 h
  rw [List.count_append, List.count_cons_self]
  omega

namespace Netlist

variable {n n' : Netlist}

/-! ## Netlists from operations -/

/-- The netlists that the operations lead to. Any numbers may be put on the lists of ports, and any
number may be the clock. -/
inductive Assembled : Netlist → Prop where
  | empty (top : String) : Assembled (Netlist.empty top)
  | addSignal {n : Netlist} (name : String) (owner : InstanceId) :
      Assembled n → Assembled (n.addSignal name owner)
  | addAlias {n : Netlist} (name : String) (id : SignalId) :
      Assembled n → Assembled (n.addAlias name id)
  | addNand {n : Netlist} (in1 in2 out : SignalId) :
      Assembled n → Assembled (n.addNand in1 in2 out)
  | addDff {n n' : Netlist} {d clk q : SignalId} {initialValue : Bool} :
      Assembled n → n.addDff d clk q initialValue = .ok n' → Assembled n'
  | addInstance {n : Netlist} (moduleName : String) (parent : InstanceId) (namePrefix : String) :
      Assembled n → Assembled (n.addInstance moduleName parent namePrefix)
  | addPrimaryInput {n n' : Netlist} {id : SignalId} :
      Assembled n → n.addPrimaryInput id = .ok n' → Assembled n'
  | addPrimaryOutput {n n' : Netlist} {id : SignalId} :
      Assembled n → n.addPrimaryOutput id = .ok n' → Assembled n'
  | pushInput {n : Netlist} (id : SignalId) :
      Assembled n → Assembled { n with primaryInputs := n.primaryInputs.push id }
  | pushOutput {n : Netlist} (id : SignalId) :
      Assembled n → Assembled { n with primaryOutputs := n.primaryOutputs.push id }
  | setClock {n : Netlist} (clock : Option SignalId) : Assembled n → Assembled { n with clock }

theorem Assembled.numbered (h : n.Assembled) : n.Numbered := by
  induction h with
  | empty top => exact .empty top
  | addSignal name owner _ ih => exact ih.addSignal name owner
  | addAlias name id _ ih => exact ih.addAlias name id
  | addNand in1 in2 out _ ih => exact ih.addNand in1 in2 out
  | addDff _ hok ih => exact ih.addDff hok
  | addInstance moduleName parent namePrefix _ ih => exact ih.addInstance moduleName parent namePrefix
  | addPrimaryInput _ hok ih => exact ih.addPrimaryInput hok
  | addPrimaryOutput _ hok ih => exact ih.addPrimaryOutput hok
  | pushInput id _ ih => exact ⟨ih.signal, ih.gate⟩
  | pushOutput id _ ih => exact ⟨ih.signal, ih.gate⟩
  | setClock clock _ ih => exact ⟨ih.signal, ih.gate⟩

/-! ## Marks -/

/-- The mark is on the outputs of flip-flops and on no other signal. -/
structure Flagged (n : Netlist) : Prop where
  q_lt : ∀ f ∈ n.dffs, f.q < n.signals.size
  mark_iff : ∀ {i : SignalId} {s : Signal}, n.signals[i]? = some s →
    (s.isDffOutput = true ↔ ∃ f ∈ n.dffs, f.q = i)

namespace Flagged

theorem addSignal (h : n.Flagged) (name : String) (owner : InstanceId) :
    (n.addSignal name owner).Flagged where
  q_lt f hf := by
    have hq := h.q_lt f hf
    rw [Netlist.addSignal, Array.size_push]
    exact Nat.lt_succ_of_lt hq
  mark_iff {i s} hs := by
    rw [Netlist.addSignal, Array.getElem?_push] at hs
    split at hs
    · next heq =>
      -- No flip-flop drives a signal that has just come.
      cases hs
      subst heq
      simp only [Bool.false_eq_true, false_iff, not_exists, not_and]
      exact fun f hf heq => Nat.ne_of_lt (h.q_lt f hf) heq
    · exact h.mark_iff hs

/-- A change of signals that leaves their marks alone. -/
theorem modifySignal (h : n.Flagged) {k : SignalId} {f : Signal → Signal}
    (hf : ∀ s, (f s).isDffOutput = s.isDffOutput) (hsignals : n'.signals = n.signals.modify k f)
    (hdffs : n'.dffs = n.dffs) : n'.Flagged where
  q_lt := by
    rw [hsignals, hdffs, Array.size_modify]
    exact h.q_lt
  mark_iff {i s} hs := by
    rw [hsignals, Array.getElem?_modify] at hs
    rw [hdffs]
    split at hs
    · obtain ⟨s', hs', rfl⟩ := Option.map_eq_some_iff.1 hs
      rw [hf]
      exact h.mark_iff hs'
    · exact h.mark_iff hs

theorem addDff (h : n.Flagged) {d clk q : SignalId} {b : Bool} (hok : n.addDff d clk q b = .ok n') :
    n'.Flagged := by
  obtain ⟨signals, hsignals, hn'⟩ := Except.bind_eq_ok.1 hok
  obtain ⟨hq, rfl⟩ := Checked.modify_eq_ok.1 hsignals
  cases hn'
  constructor
  case q_lt =>
    simp only [Array.mem_push, Array.size_modify]
    rintro f (hf | rfl)
    · exact h.q_lt f hf
    · exact hq
  case mark_iff =>
    intro i s hs
    rw [Array.getElem?_modify] at hs
    simp only [Array.mem_push]
    split at hs
    · next heq =>
      obtain ⟨s', hs', rfl⟩ := Option.map_eq_some_iff.1 hs
      exact iff_of_true rfl ⟨_, .inr rfl, heq⟩
    · next hne =>
      rw [h.mark_iff hs]
      constructor
      · rintro ⟨f, hf, hfi⟩
        exact ⟨f, .inl hf, hfi⟩
      · rintro ⟨f, hf | rfl, hfi⟩
        · exact ⟨f, hf, hfi⟩
        · exact absurd hfi hne

theorem addPrimaryInput (h : n.Flagged) {id : SignalId} (hok : n.addPrimaryInput id = .ok n') :
    n'.Flagged := by
  obtain ⟨signals, hsignals, hn'⟩ := Except.bind_eq_ok.1 hok
  obtain ⟨-, rfl⟩ := Checked.modify_eq_ok.1 hsignals
  cases hn'
  exact h.modifySignal (f := fun s => { s with isPrimaryInput := true }) (fun _ => rfl) rfl rfl

theorem addPrimaryOutput (h : n.Flagged) {id : SignalId} (hok : n.addPrimaryOutput id = .ok n') :
    n'.Flagged := by
  obtain ⟨signals, hsignals, hn'⟩ := Except.bind_eq_ok.1 hok
  obtain ⟨-, rfl⟩ := Checked.modify_eq_ok.1 hsignals
  cases hn'
  exact h.modifySignal (f := fun s => { s with isPrimaryOutput := true }) (fun _ => rfl) rfl rfl

end Flagged

theorem Assembled.flagged (h : n.Assembled) : n.Flagged := by
  induction h with
  | empty top => exact ⟨by simp [Netlist.empty], by simp [Netlist.empty]⟩
  | addSignal name owner _ ih => exact ih.addSignal name owner
  | addAlias _ _ _ ih => exact ⟨ih.q_lt, ih.mark_iff⟩
  | addNand _ _ _ _ ih => exact ⟨ih.q_lt, ih.mark_iff⟩
  | addDff _ hok ih => exact ih.addDff hok
  | addInstance _ _ _ _ ih => exact ⟨ih.q_lt, ih.mark_iff⟩
  | addPrimaryInput _ hok ih => exact ih.addPrimaryInput hok
  | addPrimaryOutput _ hok ih => exact ih.addPrimaryOutput hok
  | pushInput _ _ ih => exact ⟨ih.q_lt, ih.mark_iff⟩
  | pushOutput _ _ ih => exact ⟨ih.q_lt, ih.mark_iff⟩
  | setClock _ _ ih => exact ⟨ih.q_lt, ih.mark_iff⟩

/-! ## References and drivers -/

/-- The netlist refers to a signal, in the place that the words name. -/
inductive Refers (n : Netlist) : String → SignalId → Prop where
  | gate {g : NandGate} {s : SignalId} :
      g ∈ n.gates → s ∈ [g.in1, g.in2, g.out] → Refers n ("nand gate " ++ toString g.id) s
  | dff {f : Dff} {s : SignalId} :
      f ∈ n.dffs → s ∈ [f.d, f.clk, f.q] → Refers n ("dff " ++ toString f.id) s
  | port {s : SignalId} :
      s ∈ n.primaryInputs ∨ s ∈ n.primaryOutputs → Refers n "primary port list" s
  | name {name : String} {s : SignalId} :
      n.signalId? name = some s → Refers n ("signal map entry '" ++ name ++ "'") s
  | clock {s : SignalId} : n.clock = some s → Refers n "clock signal" s

theorem mem_references {owner : String} {s : SignalId} :
    (owner, s) ∈ n.references ↔ n.Refers owner s := by
  simp only [references, List.mem_append, List.mem_flatMap, List.mem_map, Array.mem_toList_iff,
    Prod.mk.injEq, Prod.exists, Std.TreeMap.mem_toList_iff_getElem?_eq_some, Option.mem_toList]
  constructor
  · rintro ((((⟨g, hg, _, hs, rfl, rfl⟩ | ⟨f, hf, _, hs, rfl, rfl⟩) | ⟨_, hs, rfl, rfl⟩) |
      ⟨_, _, hs, rfl, rfl⟩) | ⟨_, hs, rfl, rfl⟩)
    · exact .gate hg hs
    · exact .dff hf hs
    · exact .port hs
    · exact .name hs
    · exact .clock hs
  · rintro (⟨hg, hs⟩ | ⟨hf, hs⟩ | hs | hs | hs)
    · exact .inl (.inl (.inl (.inl ⟨_, hg, _, hs, rfl, rfl⟩)))
    · exact .inl (.inl (.inl (.inr ⟨_, hf, _, hs, rfl, rfl⟩)))
    · exact .inl (.inl (.inr ⟨_, hs, rfl, rfl⟩))
    · exact .inl (.inr ⟨_, _, hs, rfl, rfl⟩)
    · exact .inr ⟨_, hs, rfl, rfl⟩

/-- The signal has more than one driver. -/
def DrivenTwice (n : Netlist) (s : SignalId) : Prop := 1 < n.drivenSignals.count s

/-- The netlist has the defect that an error tells of. -/
def Exhibits (n : Netlist) : NetlistError → Prop
  | .danglingSignal owner s count => n.Refers owner s ∧ count = n.signals.size ∧ count ≤ s
  | .dffOutputDriven name gate => ∃ g f signal, n.gates[gate]? = some g ∧ f ∈ n.dffs ∧ f.q = g.out ∧
      n.signals[g.out]? = some signal ∧ signal.name = name ∧ n.DrivenTwice g.out
  | .multipleDrivers name =>
    ∃ s signal, n.signals[s]? = some signal ∧ signal.name = name ∧ n.DrivenTwice s

theorem Flagged.wellformed_iff (h : n.Flagged) :
    n.Wellformed ↔
      (∀ owner s, n.Refers owner s → s < n.signals.size) ∧ ∀ s, ¬n.DrivenTwice s := by
  have hrefs : (∀ owner s, n.Refers owner s → s < n.signals.size) ↔
      ∀ r ∈ n.references, r.2 < n.signals.size := by
    simp only [Prod.forall, mem_references]
  have hdriven : (∀ s, ¬n.DrivenTwice s) ↔ n.drivenSignals.Nodup := by
    simp only [DrivenTwice, Nat.not_lt, List.nodup_iff_count_le_one]
  rw [hrefs, hdriven, forall_references (P := (· < n.signals.size))]
  constructor
  · intro hw
    exact ⟨⟨hw.gate_lt, hw.dff_lt, hw.port_lt, fun _ _ => hw.name_lt, hw.clock_lt⟩, hw.driven_nodup⟩
  · rintro ⟨⟨hgate, hdff, hport, hname, hclock⟩, hnodup⟩
    refine ⟨hgate, hdff, hport, hname _ _, hclock, hnodup, fun g hg s hs => ?_⟩
    have hother := (drivenSignals_nodup_iff.1 hnodup).2.2
    rw [Bool.eq_false_iff, Ne, h.mark_iff hs]
    rintro ⟨f, hf, heq⟩
    exact hother f hf g hg heq.symm

/-! ## Errors -/

theorem signalAt_eq_error {owner : String} {s : SignalId} {e : NetlistError} :
    n.signalAt owner s = .error e ↔
      n.signals.size ≤ s ∧ e = .danglingSignal owner s n.signals.size := by
  unfold signalAt
  by_cases h : s < n.signals.size
  · simp [h, Nat.not_le.2 h]
  · simp [Nat.not_lt.1 h, eq_comm]

theorem checkReferences_eq_error {refs : List (String × SignalId)} {e : NetlistError}
    (h : n.checkReferences refs = .error e) :
    ∃ owner s, (owner, s) ∈ refs ∧ n.signals.size ≤ s ∧
      e = .danglingSignal owner s n.signals.size := by
  induction refs with
  | nil => cases h
  | cons r rest ih =>
    obtain ⟨owner, s⟩ := r
    rcases Except.bind_eq_error.1 h with h | ⟨_, -, h⟩
    · obtain ⟨hle, he⟩ := signalAt_eq_error.1 (Except.discard_eq_error.1 h)
      exact ⟨owner, s, List.mem_cons_self, hle, he⟩
    · obtain ⟨owner', s', hmem, hrest⟩ := ih h
      exact ⟨owner', s', List.mem_cons_of_mem _ hmem, hrest⟩

theorem claim_eq_error {driven : Driven} {s : SignalId} {name : String} {e : NetlistError} :
    claim driven s name = .error e ↔ s ∈ driven ∧ e = .multipleDrivers name := by
  unfold claim
  cases h : driven.contains s with
  | true => simp [Std.TreeSet.mem_iff_contains, h, eq_comm]
  | false => simp [Std.TreeSet.mem_iff_contains, h]

/-- A flip-flop that cannot claim its output comes after another driver of it. -/
theorem claimDffs_eq_error {driven : Driven} {fs : List Dff} {e : NetlistError}
    (hlt : ∀ f ∈ fs, f.q < n.signals.size) (h : n.claimDffs driven fs = .error e) :
    ∃ before f after signal, fs = before ++ f :: after ∧
      (f.q ∈ driven ∨ f.q ∈ before.map Dff.q) ∧ n.signals[f.q]? = some signal ∧
      e = .multipleDrivers signal.name := by
  induction fs generalizing driven with
  | nil => cases h
  | cons f rest ih =>
    rw [List.forall_mem_cons] at hlt
    rw [claimDffs, signalAt_ok hlt.1, Except.ok_bind] at h
    rcases Except.bind_eq_error.1 h with h | ⟨next, hnext, h⟩
    · obtain ⟨hmem, rfl⟩ := claim_eq_error.1 h
      exact ⟨[], f, rest, _, rfl, .inl hmem, Array.getElem?_eq_getElem hlt.1, rfl⟩
    · obtain ⟨-, rfl⟩ := claim_eq_ok.1 hnext
      obtain ⟨before, g, after, signal, rfl, hdriven, hsignal, he⟩ := ih hlt.2 h
      refine ⟨f :: before, g, after, signal, rfl, ?_, hsignal, he⟩
      simp only [Std.TreeSet.mem_insert, Std.LawfulEqCmp.compare_eq_iff_eq] at hdriven
      simp only [List.map_cons, List.mem_cons, eq_comm (a := g.q)]
      tauto

/-- So does a gate, unless its output is marked. -/
theorem claimGates_eq_error {driven : Driven} {gs : List NandGate} {e : NetlistError}
    (hlt : ∀ g ∈ gs, g.out < n.signals.size) (h : n.claimGates driven gs = .error e) :
    ∃ before g after signal, gs = before ++ g :: after ∧ n.signals[g.out]? = some signal ∧
      (signal.isDffOutput = true ∧ e = .dffOutputDriven signal.name g.id ∨
        (g.out ∈ driven ∨ g.out ∈ before.map NandGate.out) ∧ e = .multipleDrivers signal.name) := by
  induction gs generalizing driven with
  | nil => cases h
  | cons g rest ih =>
    rw [List.forall_mem_cons] at hlt
    have hout := hlt.1
    have hsignal := Array.getElem?_eq_getElem hout
    rw [claimGates, signalAt_ok hlt.1, Except.ok_bind] at h
    cases hmark : n.signals[g.out].isDffOutput with
    | true =>
      simp only [hmark] at h
      cases h
      exact ⟨[], g, rest, _, rfl, hsignal, .inl ⟨hmark, rfl⟩⟩
    | false =>
      simp only [hmark] at h
      rcases Except.bind_eq_error.1 h with h | ⟨next, hnext, h⟩
      · obtain ⟨hmem, rfl⟩ := claim_eq_error.1 h
        exact ⟨[], g, rest, _, rfl, hsignal, .inr ⟨.inl hmem, rfl⟩⟩
      · obtain ⟨-, rfl⟩ := claim_eq_ok.1 hnext
        obtain ⟨before, k, after, signal, rfl, hsignal', hcause⟩ := ih hlt.2 h
        refine ⟨g :: before, k, after, signal, rfl, hsignal', hcause.imp_right ?_⟩
        simp only [Std.TreeSet.mem_insert, Std.LawfulEqCmp.compare_eq_iff_eq, List.map_cons,
          List.mem_cons, eq_comm (a := k.out)]
        tauto

/-- What validation reports is there. -/
theorem Flagged.exhibits (h : n.Flagged) (hn : n.Numbered) {e : NetlistError}
    (he : n.validate = .error e) : n.Exhibits e := by
  rcases Except.bind_eq_error.1 he with he | ⟨⟨⟩, hcheck, he⟩
  · obtain ⟨owner, s, hmem, hle, rfl⟩ := checkReferences_eq_error he
    exact ⟨mem_references.1 hmem, rfl, hle⟩
  obtain ⟨hgate, hdff, -⟩ :=
    (forall_references (P := (· < n.signals.size))).1 (checkReferences_eq_ok.1 hcheck)
  rcases Except.bind_eq_error.1 he with he | ⟨driven, hdriven, he⟩
  · obtain ⟨before, f, after, signal, hsplit, hmem, hsignal, rfl⟩ :=
      claimDffs_eq_error (fun f hf => (hdff f (Array.mem_toList_iff.1 hf)).2.2) he
    replace hmem := hmem.resolve_left Std.TreeSet.not_mem_emptyc
    refine ⟨f.q, signal, hsignal, rfl, ?_⟩
    rw [DrivenTwice, drivenSignals, hsplit, List.map_append, List.map_cons, List.append_assoc,
      List.cons_append]
    exact List.one_lt_count hmem
  · obtain ⟨before, g, after, signal, hsplit, hsignal, hcause⟩ :=
      claimGates_eq_error (fun g hg => (hgate g (Array.mem_toList_iff.1 hg)).2.2)
        (Except.discard_eq_error.1 he)
    have htwice : g.out ∈ n.dffs.toList.map Dff.q ∨ g.out ∈ before.map NandGate.out →
        n.DrivenTwice g.out := by
      intro hmem
      rw [DrivenTwice, drivenSignals, hsplit, List.map_append, List.map_cons, ← List.append_assoc]
      exact List.one_lt_count (List.mem_append.2 hmem)
    rcases hcause with ⟨hmark, rfl⟩ | ⟨hmem, rfl⟩
    · obtain ⟨f, hf, heq⟩ := (h.mark_iff hsignal).1 hmark
      have hget : n.gates[before.length]? = some g := by
        rw [← Array.getElem?_toList, hsplit]
        simp
      refine ⟨g, f, signal, hn.gate hget ▸ hget, hf, heq, hsignal, rfl, htwice (.inl ?_)⟩
      exact List.mem_map.2 ⟨f, Array.mem_toList_iff.2 hf, heq⟩
    · refine ⟨g.out, signal, hsignal, rfl, htwice (hmem.imp_left fun hin => ?_)⟩
      exact (((claimDffs_eq_ok hdriven).2.2 _).1 hin).resolve_left Std.TreeSet.not_mem_emptyc

/-! ## The theorem -/

/-- Of the netlists that the operations lead to, validation accepts those in which every reference is
the number of a signal and no signal has two drivers among the flip-flops and the gates together. If
it reports a reference, the netlist has this reference in the place that the report names and no
signal for it; and if it reports a signal, two drivers drive this signal. -/
theorem validate_exact (h : n.Assembled) :
    (n.validate = .ok () ↔
      (∀ owner s, n.Refers owner s → s < n.signals.size) ∧ ∀ s, ¬n.DrivenTwice s) ∧
    ∀ e, n.validate = .error e → n.Exhibits e :=
  ⟨validate_eq_ok.trans h.flagged.wellformed_iff, fun _ => h.flagged.exhibits h.numbered⟩

/-- A flip-flop whose output a gate drives too. -/
def overdrivenRegister : Netlist where
  top := "top"
  signals := #[{ id := 0, name := "a", owner := 0 },
    { id := 1, name := "q", isDffOutput := true, owner := 0 }]
  gates := #[{ id := 0, in1 := 0, in2 := 0, out := 1 }]
  dffs := #[{ id := 0, d := 0, clk := 0, q := 1, initialValue := true }]
  names := (({} : NameMap SignalId).insertIfNew "a" 0).insertIfNew "q" 1
  instances := #[{ id := 0, moduleName := "top", parent := none, namePrefix := "" }]

theorem overdrivenRegister_assembled : overdrivenRegister.Assembled := by
  have hsignals := ((Assembled.empty "top").addSignal "a" 0).addSignal "q" 0
  have hflop : ((((empty "top").addSignal "a" 0).addSignal "q" 0).addDff 0 0 1 true) = .ok
      { overdrivenRegister with gates := #[] } := rfl
  exact (hsignals.addDff hflop).addNand 0 0 1

theorem validate_exact_overdrivenRegister :
    overdrivenRegister.Assembled ∧
      overdrivenRegister.validate = .error (.dffOutputDriven "q" 0) ∧
      overdrivenRegister.Exhibits (.dffOutputDriven "q" 0) ∧
      ¬((∀ owner s, overdrivenRegister.Refers owner s → s < overdrivenRegister.signals.size) ∧
        ∀ s, ¬overdrivenRegister.DrivenTwice s) := by
  obtain ⟨haccepts, hreports⟩ := validate_exact overdrivenRegister_assembled
  have hrefused : overdrivenRegister.validate = .error (.dffOutputDriven "q" 0) := by rfl
  refine ⟨overdrivenRegister_assembled, hrefused, hreports _ hrefused, ?_⟩
  rw [← haccepts, hrefused]
  exact nofun

end Netlist

end NandHdl
