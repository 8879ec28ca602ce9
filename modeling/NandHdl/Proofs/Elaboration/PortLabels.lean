-- SUMMARY: A port whose name no other port touches is bound to its block and known by it when the body of the top module starts (`OpensPorts.port`).
import NandHdl.Proofs.Elaboration.Inputs
import NandHdl.Proofs.Elaboration.PortBlocks
import NandHdl.Proofs.Reordering.Ports

/-!
# Signals with names

The netlist knows a bit by the first signal that took its name, and the scope knows a name by the last
signals that it was bound to. Ports that are declared one after the other may get into each other's way.
For a port whose name no other port touches both are the block of the port.
-/

namespace NandHdl

open Elab Draft Netlist

namespace Netlist

variable {n n' : Netlist} {bits : Bits} {names : List String} {j : SignalId}

/-- The signals were made under the names. -/
def Labels (n : Netlist) (bits : Bits) (names : List String) : Prop :=
  bits.map (fun id => n.signals[id]?.map Signal.name) = names.map some

/-- The names stand for the signals. -/
def Finds (n : Netlist) (names : List String) (bits : Bits) : Prop :=
  names.map n.signalId? = bits.map some

/-- A change of signals that leaves their names alone. -/
theorem name_modify {signals : Array Signal} {k : SignalId} {f : Signal → Signal}
    (hf : ∀ s, (f s).name = s.name) :
    (signals.modify k f)[j]?.map Signal.name = signals[j]?.map Signal.name := by
  rw [Array.getElem?_modify]
  split
  · rw [Option.map_map]
    exact Option.map_congr fun s _ => hf s
  · rfl

/-- A signal keeps its name. -/
theorem Step.name_eq (h : Step n n') {name : String} (hj : n.signals[j]?.map Signal.name = some name) :
    n'.signals[j]?.map Signal.name = some name := by
  cases h with
  | signal name' owner =>
    have hlt : j < n.signals.size := by
      obtain ⟨s, hs, -⟩ := Option.map_eq_some_iff.1 hj
      exact (Array.getElem?_eq_some_iff.1 hs).1
    rw [addSignal, Array.getElem?_push_lt hlt, ← Array.getElem?_eq_getElem hlt, hj]
  | flop h | input h | output h =>
    obtain ⟨signals, hsignals, hn'⟩ := Except.bind_eq_ok.1 h
    obtain ⟨-, rfl⟩ := Checked.modify_eq_ok.1 hsignals
    cases hn'
    refine (name_modify ?_).trans hj
    exact fun _ => rfl
  | named | gate | inst | clock => exact hj

theorem Grows.name_eq (h : n.Grows n') {name : String}
    (hj : n.signals[j]?.map Signal.name = some name) :
    n'.signals[j]?.map Signal.name = some name := by
  induction h with
  | refl => exact hj
  | tail _ hstep ih => exact hstep.name_eq ih

theorem Labels.mono (h : n.Labels bits names) (hgrows : n.Grows n') : n'.Labels bits names := by
  induction bits generalizing names with
  | nil => exact h
  | cons id rest ih =>
    cases names with
    | nil => exact absurd h (List.cons_ne_nil _ _)
    | cons name names =>
      obtain ⟨hid, hrest⟩ := List.cons.inj h
      exact congrArg₂ List.cons (hgrows.name_eq hid) (ih hrest)

theorem Finds.mono (h : n.Finds names bits) (hgrows : n.Grows n') : n'.Finds names bits := by
  induction names generalizing bits with
  | nil => exact h
  | cons name rest ih =>
    cases bits with
    | nil => exact absurd h (List.cons_ne_nil _ _)
    | cons id bits =>
      obtain ⟨hname, hrest⟩ := List.cons.inj h
      exact congrArg₂ List.cons (hgrows.signalId? hname) (ih hrest)

end Netlist

variable {d d' d₁ : Draft} {bits : Bits} {ports : List Port}

/-- New signals are made under the given names. -/
theorem newSignals_labels {owner : InstanceId} {names : List String}
    (h : (newSignals owner names).run d = .ok (bits, d')) : d'.netlist.Labels bits names := by
  induction names generalizing d bits with
  | nil =>
    obtain ⟨rfl, rfl⟩ := pure_eq_ok.1 h
    rfl
  | cons name rest ih =>
    obtain ⟨id, d₁, hid, h⟩ := bind_eq_ok.1 h
    obtain ⟨ids, d₂, hids, h⟩ := bind_eq_ok.1 h
    obtain ⟨rfl, rfl⟩ := pure_eq_ok.1 h
    cases hid
    have hgrows := respectsParts_grows.newSignals owner rest _ _ _ hids
    refine congrArg₂ List.cons (hgrows.name_eq ?_) (ih hids)
    rw [Netlist.addSignal, Array.getElem?_push_size]
    rfl

/-- Names that are free stand for the new signals. -/
theorem newSignals_finds {owner : InstanceId} {names : List String} (hnodup : names.Nodup)
    (hfree : ∀ z ∈ names, d.netlist.signalId? z = none)
    (h : (newSignals owner names).run d = .ok (bits, d')) : d'.netlist.Finds names bits := by
  induction names generalizing d bits with
  | nil =>
    obtain ⟨rfl, rfl⟩ := pure_eq_ok.1 h
    rfl
  | cons name rest ih =>
    obtain ⟨id, d₁, hid, h⟩ := bind_eq_ok.1 h
    obtain ⟨ids, d₂, hids, h⟩ := bind_eq_ok.1 h
    obtain ⟨rfl, rfl⟩ := pure_eq_ok.1 h
    cases hid
    obtain ⟨hname, hothers⟩ := List.nodup_cons.1 hnodup
    obtain ⟨hfirst, hrest⟩ := List.forall_mem_cons.1 hfree
    have hgrows := respectsParts_grows.newSignals owner rest _ _ _ hids
    refine congrArg₂ List.cons (hgrows.signalId? ?_) (ih hothers (fun z hz => ?_) hids)
    · rw [signalId?_addSignal, hfirst, if_pos rfl, Option.none_or]
    · have hne : name ≠ z := fun heq => hname (heq ▸ hz)
      rw [signalId?_addSignal, hrest z hz, if_neg hne, Option.none_or]

theorem nodup_bitNames (name : String) (width : Nat) : (bitNames name width).Nodup := by
  unfold bitNames
  split
  · exact List.nodup_singleton _
  · exact List.nodup_range.map fun i j heq => (bitName_inj.1 heq).2

/-- Names that are apart have no bit in common. -/
theorem not_mem_bitNames {x y z : String} (h : Scope.NamesApart y x) {width width' : Nat}
    (hz : z ∈ bitNames x width) : z ∉ bitNames y width' := by
  obtain ⟨hne, hbit, hself⟩ := h
  intro hy
  unfold bitNames at hz hy
  split at hz
  · obtain rfl := List.mem_singleton.1 hz
    split at hy
    · exact hne (List.mem_singleton.1 hy).symm
    · obtain ⟨k, -, heq⟩ := List.mem_map.1 hy
      exact hbit k heq
  · obtain ⟨i, -, rfl⟩ := List.mem_map.1 hz
    split at hy
    · exact hself i (List.mem_singleton.1 hy).symm
    · obtain ⟨k, -, heq⟩ := List.mem_map.1 hy
      exact hne (bitName_inj.1 heq).1

/-! ## Ports that are declared -/

namespace Draft.OpensPorts

variable {before after : List Port} {q : Port} {x : String}

/-- Ports with other names leave a name its bits. -/
theorem bits?_eq (h : OpensPorts ports d d') (hapart : ∀ q ∈ ports, Scope.NamesApart q.name x) :
    d'.scope.bits? x = d.scope.bits? x := by
  induction h with
  | nil => rfl
  | @cons q rest bits d d₁ d₂ _ hdeclare hmark _ _ ih =>
    obtain ⟨hq, hothers⟩ := List.forall_mem_cons.1 hapart
    refine (ih hothers).trans ?_
    show d₂.scope.bits? x = _
    rw [hmark.scope_eq]
    exact bits?_declare hq hdeclare

/-- They leave its names free. -/
theorem signalId?_eq (h : OpensPorts ports d d') (htop : d.AtTop)
    (hapart : ∀ q ∈ ports, Scope.NamesApart q.name x) {width : Nat} {z : String}
    (hz : z ∈ bitNames x width) : d'.netlist.signalId? z = d.netlist.signalId? z :=
  (h.accrues htop).1.signalId?_eq z fun ⟨q, hq, hz'⟩ => not_mem_bitNames (hapart q hq) hz hz'

/-- A port that no other port touches is bound to its block and known by it. -/
theorem port (h : OpensPorts (before ++ q :: after) d d') (htop : d.AtTop)
    (hapart : ∀ r ∈ before ++ after, Scope.NamesApart r.name q.name)
    (hfree : ∀ z ∈ bitNames q.name (max 1 q.width), d.netlist.signalId? z = none)
    (hbits : bits = List.range' (d.netlist.signals.size + portSignals before) (max 1 q.width)) :
    d'.scope.bits? q.name = some bits ∧ d'.netlist.Labels bits (bitNames q.name (max 1 q.width)) ∧
      d'.netlist.Finds (bitNames q.name (max 1 q.width)) bits := by
  obtain ⟨hbefore, hafter⟩ := List.forall_mem_append.1 hapart
  obtain ⟨e, hopened, hrest⟩ := h.split
  obtain ⟨-, hhere⟩ := hopened.accrues htop
  cases hrest with
  | @cons _ _ found _ d₁ d₂ _ hdeclare hmark _ hrest =>
    obtain ⟨rfl, -⟩ := declare_size hdeclare
    rw [← hopened.size_eq] at hbits
    subst hbits
    obtain ⟨-, hnext⟩ := hhere.port hdeclare hmark
    obtain ⟨e₁, hnew, rfl⟩ := declare_steps hdeclare
    have hglobal : (bitNames q.name (max 1 q.width)).map e.scope.globalName =
        bitNames q.name (max 1 q.width) := by
      rw [map_globalName_bitNames, Scope.globalName, hhere.namePrefix_eq, String.empty_append]
    rw [hglobal] at hnew
    have hgrows := hmark.netlist.grows.trans (hrest.accrues hnext).1.grows
    have hlabels := newSignals_labels hnew
    have hfinds := newSignals_finds (nodup_bitNames _ _)
      (fun z hz => (hopened.signalId?_eq htop hbefore hz).trans (hfree z hz)) hnew
    refine ⟨?_, hlabels.mono hgrows, hfinds.mono hgrows⟩
    rw [hrest.bits?_eq hafter]
    show d₂.scope.bits? q.name = _
    rw [hmark.scope_eq]
    exact Scope.bits?_bind_self (ne_nil_of_length List.length_range')

end Draft.OpensPorts

end NandHdl
