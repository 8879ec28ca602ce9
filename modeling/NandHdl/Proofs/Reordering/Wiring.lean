-- SUMMARY: Gates, flip-flops and copies add a fragment to a draft or fail, and whether they fail depends on the signals they claim (`Elab.wire_commits`).
import NandHdl.Proofs.Elaboration.Steps
import NandHdl.Proofs.Reordering.Fragments

/-!
# Steps that add a fragment

A gate or a flip-flop gets a new output, and nobody else has claimed that. Only a copy claims a
signal that was there before, so only the copies of a statement can be refused.

The fragment of a row of copies is given outright, by the sources, the destinations and the number
of the next signal. It is carried over by every map of signals that keeps the new signals in order.
-/

namespace NandHdl

variable {b d : Draft}

/-! ## Steps that commit to a fragment -/

namespace Elab

/-- The step adds the fragment if all that it claims is free, and fails otherwise. -/
def Commits (x : Elab Unit) (b : Draft) (F : Fragment) : Prop :=
  (∃ d, x.run b = .ok ((), d) ∧ b.Emits d F) ∨ (¬b.Clear F.claims ∧ ∃ e, x.run b = .error e)

/-- Steps in a row. -/
theorem Commits.bind {x y : Elab Unit} {F G : Fragment} (hx : x.Commits b F)
    (hy : ∀ d, b.Emits d F → y.Commits d G) : (x >>= fun _ => y).Commits b (F ++ G) := by
  unfold Commits
  rw [StateT.run_bind]
  rcases hx with ⟨d, hx, hemits⟩ | ⟨hclear, e, hx⟩
  · rw [hx]
    rcases hy d hemits with ⟨d', hy, hemits'⟩ | ⟨hclear, e, hy⟩
    · exact .inl ⟨d', hy, hemits.trans hemits'⟩
    · refine .inr ⟨fun h => hclear ?_, e, hy⟩
      exact ((Draft.clear_append hemits.taken).1 h).2
  · rw [hx]
    refine .inr ⟨fun h => hclear ?_, e, rfl⟩
    exact ⟨h.1.of_append_left, fun i hi => h.2 i (List.mem_append_left _ hi)⟩

/-- A step that has added a fragment goes on with one that commits to another. -/
theorem commits_of_run {α : Type} {x : Elab α} {y : α → Elab Unit} {a : α} {F G : Fragment}
    (hx : x.run b = .ok (a, d)) (hemits : b.Emits d F) (hy : (y a).Commits d G) :
    (x >>= y).Commits b (F ++ G) := by
  unfold Commits
  rw [StateT.run_bind, hx]
  rcases hy with ⟨d', hy, hemits'⟩ | ⟨hclear, e, hy⟩
  · exact .inl ⟨d', hy, hemits.trans hemits'⟩
  · refine .inr ⟨fun h => hclear ?_, e, hy⟩
    exact ((Draft.clear_append hemits.taken).1 h).2

/-! ## Gates and flip-flops -/

theorem claimDriver_run {i : SignalId} (hfree : d.driven[i]? = some false) :
    (claimDriver i).run d = .ok ((), d.claim i) := by
  have hget : Checked.get d.driven i = .ok false := Checked.get_eq_ok.2 hfree
  have hrun : (claimDriver i).run d = (do
      if ← ofChecked (Checked.get d.driven i) then
        throw (.multipleDrivers (← ofChecked (Checked.get d.netlist.signals i)).name)
      modify fun d => { d with driven := d.driven.modify i fun _ => true } : Elab Unit).run d := rfl
  rw [hrun, hget]
  rfl

theorem claimDriver_error {i : SignalId} (hd : d.driven.size = d.netlist.signals.size)
    (htaken : d.Taken i) : ∃ e, (claimDriver i).run d = .error e := by
  have hget : Checked.get d.driven i = .ok true := Checked.get_eq_ok.2 htaken
  have hsignal := Array.getElem?_eq_getElem (Draft.taken_lt hd htaken)
  have hrun : (claimDriver i).run d = (do
      if ← ofChecked (Checked.get d.driven i) then
        throw (.multipleDrivers (← ofChecked (Checked.get d.netlist.signals i)).name)
      modify fun d => { d with driven := d.driven.modify i fun _ => true } : Elab Unit).run d := rfl
  rw [hrun, hget, Checked.get_eq_ok.2 hsignal]
  exact ⟨_, rfl⟩

/-- The names of gates and flip-flops are no names of bits, and none is that of the constant 1. -/
theorem outputName_plain {word : String} (hword : word = "nand_" ∨ word = "dff_") (k : Nat) :
    Unindexed (word ++ toString k) ∧ word ++ toString k ≠ oneName := by
  have hplain : ∃ base, PlainName base ∧ base ++ "_" = word := by
    rcases hword with rfl | rfl
    · exact ⟨"nand", by decide, by decide⟩
    · exact ⟨"dff", by decide, by decide⟩
  obtain ⟨base, hbase, rfl⟩ := hplain
  refine ⟨(hbase.append_digits k).1, fun h => ?_⟩
  have hlist := congrArg String.toList h
  rw [String.toList_append] at hlist
  rcases hword with hword | hword <;>
  · rw [hword] at hlist
    exact absurd (List.cons.inj hlist).1 (by decide)

/-- The fragment of a gate. -/
def gateFragment (a c out : SignalId) : Fragment :=
  { count := 1, claims := [out], gates := [⟨a, c, out⟩] }

/-- The fragment of a flip-flop. -/
def flopFragment (a out : SignalId) : Fragment :=
  { count := 1, claims := [out], flops := [(⟨a, out⟩, false)] }

/-- A new signal can be claimed. -/
theorem newSignal_emits (hd : d.driven.size = d.netlist.signals.size) {word : String}
    (hword : word = "nand_" ∨ word = "dff_") (k : Nat) (owner : InstanceId) :
    ((d.addSignal (word ++ toString k) owner).driven[d.netlist.signals.size]? = some false) ∧
      d.Emits (d.addSignal (word ++ toString k) owner) { count := 1 } := by
  obtain ⟨hname, hone⟩ := outputName_plain hword k
  refine ⟨?_, Draft.emits_addSignal hd hname hone owner⟩
  rw [Draft.addSignal, ← hd, Array.getElem?_push_size]

theorem emitNand_run (hd : d.driven.size = d.netlist.signals.size) (a c : SignalId) :
    ∃ e, (emitNand a c).run d = .ok (d.netlist.signals.size, e) ∧
      d.Emits e (gateFragment a c d.netlist.signals.size) := by
  obtain ⟨hfree, hnew⟩ := newSignal_emits hd (.inl rfl) d.netlist.gates.size d.scope.owner
  have hclaim := Draft.emits_claim hnew.driven_size hfree
  have hgate := Draft.emits_addNand hclaim.driven_size a c d.netlist.signals.size
  refine ⟨_, ?_, (hnew.trans hclaim).trans hgate⟩
  have hrun : (emitNand a c).run d = (do
      claimDriver d.netlist.signals.size
      addNand a c d.netlist.signals.size
      return d.netlist.signals.size : Elab SignalId).run
        (d.addSignal ("nand_" ++ toString d.netlist.gates.size) d.scope.owner) := rfl
  rw [hrun, StateT.run_bind, claimDriver_run hfree]
  rfl

theorem emitDff_run (hd : d.driven.size = d.netlist.signals.size) (a clk : SignalId) :
    ∃ e, (emitDff a clk).run d = .ok (d.netlist.signals.size, e) ∧
      d.Emits e (flopFragment a d.netlist.signals.size) := by
  obtain ⟨hfree, hnew⟩ := newSignal_emits hd (.inr rfl) d.netlist.dffs.size d.scope.owner
  have hclaim := Draft.emits_claim hnew.driven_size hfree
  have hq : d.netlist.signals.size < (d.netlist.addSignal ("dff_" ++ toString d.netlist.dffs.size)
      d.scope.owner).signals.size := by
    rw [Netlist.addSignal, Array.size_push]
    exact Nat.lt_succ_self _
  obtain ⟨n, hn⟩ : ∃ n, (d.netlist.addSignal ("dff_" ++ toString d.netlist.dffs.size)
      d.scope.owner).addDff a clk d.netlist.signals.size false = .ok n :=
    ⟨_, by rw [Netlist.addDff, Checked.modify_ok hq]; rfl⟩
  have hflop := Draft.emits_addDff hclaim.driven_size hn
  refine ⟨_, ?_, (hnew.trans hclaim).trans hflop⟩
  have hrun : (emitDff a clk).run d = (do
      claimDriver d.netlist.signals.size
      let netlist ← ofChecked ((← get).netlist.addDff a clk d.netlist.signals.size false)
      modifyNetlist fun _ => netlist
      return d.netlist.signals.size : Elab SignalId).run
        (d.addSignal ("dff_" ++ toString d.netlist.dffs.size) d.scope.owner) := rfl
  rw [hrun, StateT.run_bind, claimDriver_run hfree]
  show (do
      let netlist ← ofChecked ((d.netlist.addSignal ("dff_" ++ toString d.netlist.dffs.size)
        d.scope.owner).addDff a clk d.netlist.signals.size false)
      modifyNetlist fun _ => netlist
      return d.netlist.signals.size : Elab SignalId).run
        ((d.addSignal ("dff_" ++ toString d.netlist.dffs.size) d.scope.owner).claim
          d.netlist.signals.size) = _
  rw [hn]
  rfl

/-! ## Copies -/

/-- The fragment of a copy. A signal needs no copy into itself. -/
def copyFragment (src dst next : SignalId) : Fragment :=
  if src = dst then {}
  else { count := 1, claims := [dst], gates := [⟨src, src, next⟩, ⟨next, next, dst⟩] }

/-- The fragment of a value that is copied bit by bit. The next signal has the number `next`. -/
def copiesFragment : Bits → Bits → SignalId → Fragment
  | _, [], _ => {}
  | src, dst :: rest, next =>
    copyFragment (src.getD 0 zeroId) dst next ++
      copiesFragment src.tail rest (next + (copyFragment (src.getD 0 zeroId) dst next).count)

theorem wireInto_commits (hd : d.driven.size = d.netlist.signals.size) {src dst : SignalId}
    (hdst : dst < d.netlist.signals.size) :
    (wireInto src dst).Commits d (copyFragment src dst d.netlist.signals.size) := by
  unfold wireInto copyFragment
  split
  · exact .inl ⟨d, rfl, .refl hd⟩
  · by_cases htaken : d.Taken dst
    · obtain ⟨e, he⟩ := claimDriver_error hd htaken
      refine .inr ⟨fun hclear => hclear.2 dst List.mem_cons_self htaken, e, ?_⟩
      rw [StateT.run_bind, he]
      rfl
    · have hfree : d.driven[dst]? = some false := by
        cases hdriven : d.driven[dst]? with
        | none => exact absurd (Array.getElem?_eq_none_iff.1 hdriven) (Nat.not_le.2 (hd ▸ hdst))
        | some taken =>
          cases taken with
          | true => exact absurd hdriven htaken
          | false => rfl
      have hclaim := Draft.emits_claim hd hfree
      obtain ⟨-, hnew⟩ := newSignal_emits hclaim.driven_size (.inl rfl) d.netlist.gates.size
        d.scope.owner
      have hfirst := Draft.emits_addNand hnew.driven_size src src d.netlist.signals.size
      have hsecond := Draft.emits_addNand hfirst.driven_size d.netlist.signals.size
        d.netlist.signals.size dst
      refine .inl ⟨_, ?_, ((hclaim.trans hnew).trans hfirst).trans hsecond⟩
      rw [StateT.run_bind, claimDriver_run hfree]
      rfl

/-- Copying a value claims the destinations that are not their own sources. -/
theorem wire_commits (hd : d.driven.size = d.netlist.signals.size) {src dst : Bits}
    (hdst : ∀ i ∈ dst, i < d.netlist.signals.size) :
    (wire src dst).Commits d (copiesFragment src dst d.netlist.signals.size) := by
  induction dst generalizing d src with
  | nil =>
    have hrun : wire src [] = pure () := by cases src <;> rfl
    rw [hrun]
    exact .inl ⟨d, rfl, .refl hd⟩
  | cons first rest ih =>
    have hrun : wire src (first :: rest) =
        (wireInto (src.getD 0 zeroId) first >>= fun _ => wire src.tail rest) := by
      cases src <;> rfl
    rw [List.forall_mem_cons] at hdst
    rw [hrun, copiesFragment]
    refine (wireInto_commits hd hdst.1).bind fun e he => ?_
    rw [← he.size_eq]
    refine ih he.driven_size fun i hi => ?_
    rw [he.size_eq]
    exact Nat.lt_add_right _ (hdst.2 i hi)

/-! ## Copies under a map of signals -/

section

variable {f : SignalId → SignalId} (hf : Function.Injective f)

include hf

theorem map_copyFragment (src dst next : SignalId) :
    (copyFragment src dst next).map f = copyFragment (f src) (f dst) (f next) := by
  unfold copyFragment
  split
  · next heq =>
    rw [if_pos (congrArg f heq)]
    rfl
  · next hne =>
    rw [if_neg (hf.ne hne)]
    rfl

theorem count_copyFragment (src dst next next' : SignalId) :
    (copyFragment (f src) (f dst) next').count = (copyFragment src dst next).count := by
  unfold copyFragment
  simp only [hf.eq_iff]
  split <;> rfl

theorem map_copiesFragment (hzero : f zeroId = zeroId) (src dst : Bits) {next next' : SignalId}
    (hnext : ∀ j, f (next + j) = next' + j) :
    (copiesFragment src dst next).map f = copiesFragment (src.map f) (dst.map f) next' := by
  induction dst generalizing src next next' with
  | nil => rfl
  | cons first rest ih =>
    have hsrc : (src.map f).getD 0 zeroId = f (src.getD 0 zeroId) := by
      cases src with
      | nil => exact hzero.symm
      | cons _ _ => rfl
    rw [List.map_cons, copiesFragment, copiesFragment, Fragment.map_append, map_copyFragment hf,
      hsrc, count_copyFragment hf _ _ next, ← List.map_tail, show f next = next' from hnext 0]
    congr 1
    refine ih _ fun j => ?_
    rw [Nat.add_assoc, hnext, Nat.add_assoc]

end

end Elab

end NandHdl
