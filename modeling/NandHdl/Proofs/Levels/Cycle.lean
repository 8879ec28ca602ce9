-- SUMMARY: When a netlist has no levels (`levelize_cycle_iff`): exactly if some chain of gates feeds back into itself, and the signals reported are the outputs of such a cycle.
import NandHdl.Proofs.Levels.Order
import Mathlib.Data.List.Chain

/-!
# Combinational cycles

A gate that was left out reads a gate that was left out. So one can walk back from it without end,
and as there are only so many gates, some gate comes up again. The gates since its first visit feed
each other all the way round.
-/

namespace NandHdl

/-! ## Cycles -/

namespace Netlist

/-- Different gates each of which feeds the next one, the last one the first. -/
structure IsCycle (n : Netlist) (gs : List GateId) : Prop where
  ne_nil : gs ≠ []
  nodup : gs.Nodup
  feeds : gs.IsChain n.Feeds
  closed : ∀ first ∈ gs.head?, ∀ last ∈ gs.getLast?, n.Feeds last first

/-- Some chain of gates leads from a gate back to it. -/
def HasFeedback (n : Netlist) : Prop := ∃ g, Relation.TransGen n.Feeds g g

/-- The name of the output of a gate. -/
def outputName? (n : Netlist) (g : GateId) : Option String := do
  let gate ← n.gates[g]?
  let signal ← n.signals[gate.out]?
  return signal.name

variable {n : Netlist}

theorem IsCycle.hasFeedback {gs : List GateId} (h : n.IsCycle gs) : n.HasFeedback := by
  refine ⟨gs.head h.ne_nil, ?_⟩
  have hround := List.relationReflTransGen_of_exists_isChain gs h.feeds h.ne_nil
  exact .tail' hround
    (h.closed _ (List.head_mem_head? h.ne_nil) _ (List.getLast_mem_getLast? h.ne_nil))

/-- Gates that can be ranked above the gates they read do not feed back. -/
theorem not_hasFeedback {rank : GateId → Nat} (hrank : ∀ {g d}, n.Feeds d g → rank d < rank g) :
    ¬n.HasFeedback := by
  rintro ⟨g, hround⟩
  have hlt : ∀ {a b}, Relation.TransGen n.Feeds a b → rank a < rank b := by
    intro a b hab
    induction hab with
    | single hfeeds => exact hrank hfeeds
    | tail _ hfeeds ih => exact Nat.lt_trans ih (hrank hfeeds)
  exact Nat.lt_irrefl _ (hlt hround)

end Netlist

/-! ## Walking back -/

namespace Levels

variable {n : Netlist} {deps : Array (List GateId)} {level : Array (Option Nat)}

/-- Everything before an element, and the element, stand at the start of a list. -/
theorem prefix_takeWhile_append {gs : List GateId} {g : GateId} (h : g ∈ gs) :
    gs.takeWhile (· != g) ++ [g] <+: gs := by
  induction gs with
  | nil => exact nomatch h
  | cons e rest ih =>
    by_cases he : e = g
    · subst he
      simp
    · have hg : g ∈ rest := (List.mem_cons.1 h).resolve_left (Ne.symm he)
      simpa [he] using ih hg

/-- Where a walk back meets a gate again, it has gone round a cycle. -/
theorem isCycle_of_revisit {path : List GateId} {current : GateId}
    (hchain : (current :: path).IsChain n.Feeds) (hnodup : path.Nodup) (hmem : current ∈ path) :
    n.IsCycle (path.takeWhile (· != current) ++ [current]) := by
  obtain ⟨rest, hrest⟩ := prefix_takeWhile_append hmem
  constructor
  case ne_nil => simp
  case nodup =>
    rw [← hrest] at hnodup
    exact (List.nodup_append.1 hnodup).1
  case feeds =>
    have hpath := (List.isChain_cons.1 hchain).2
    rw [← hrest] at hpath
    exact hpath.left_of_append
  case closed =>
    intro first hfirst last hlast
    -- The cycle starts where the walk stepped last, at the gate that `current` feeds.
    have hlast' : current = last := by simpa using hlast
    have hfirst' : first ∈ path.head? := by
      rw [← hrest, List.head?_append, hfirst]
      rfl
    exact hlast' ▸ hchain.rel_head? hfirst'

theorem firstUnplaced?_ok {gs : List GateId} (hlt : ∀ g ∈ gs, g < level.size) :
    firstUnplaced? level gs = .ok (gs.find? fun g => (level.getD g none).isNone) := by
  induction gs with
  | nil => rfl
  | cons g rest ih =>
    have hg : Checked.get level g = .ok (level.getD g none) := by
      rw [Checked.get_eq_ok]
      simp [hlt g List.mem_cons_self]
    rw [firstUnplaced?, isUnplaced, hg, Except.ok_bind, List.find?_cons]
    cases level.getD g none with
    | none => rfl
    | some l => exact ih fun e he => hlt e (List.mem_cons_of_mem g he)

/-- Some gates have no level, and each of them reads another one. -/
structure Stuck (n : Netlist) (deps : Array (List GateId)) (level : Array (Option Nat)) : Prop where
  deps_size : deps.size = n.gates.size
  level_size : level.size = n.gates.size
  mem_deps : ∀ {g d}, d ∈ depsOf deps g ↔ n.Feeds d g
  start : ∃ g < n.gates.size, level.getD g none = none
  back : ∀ g < n.gates.size, level.getD g none = none → ∃ d ∈ depsOf deps g, level.getD d none = none

namespace Stuck

variable (h : Stuck n deps level)

include h

/-- One can always walk further back. -/
theorem firstUnplaced_deps {g : GateId} (hg : g < n.gates.size) (hout : level.getD g none = none) :
    ∃ d, n.Feeds d g ∧ level.getD d none = none ∧
      firstUnplaced? level (depsOf deps g) = .ok (some d) := by
  have hlt : ∀ d ∈ depsOf deps g, d < level.size := fun d hd =>
    h.level_size ▸ (h.mem_deps.1 hd).lt
  obtain ⟨e, he, heout⟩ := h.back g hg hout
  have hfound : ((depsOf deps g).find? fun d => (level.getD d none).isNone).isSome := by
    rw [List.find?_isSome]
    exact ⟨e, he, by rw [heout]; rfl⟩
  obtain ⟨d, hd⟩ := Option.isSome_iff_exists.1 hfound
  refine ⟨d, h.mem_deps.1 (List.mem_of_find?_eq_some hd), ?_, ?_⟩
  · simpa using List.find?_some hd
  · rw [firstUnplaced?_ok hlt, hd]

/-- A walk back ends in a cycle. Its path holds different gates, so it is not longer than there are
gates. -/
theorem walkBack_ok (steps : Nat) (path : List GateId) (current : GateId)
    (hchain : (current :: path).IsChain n.Feeds) (hnodup : path.Nodup)
    (hlt : ∀ g ∈ current :: path, g < n.gates.size) (hout : level.getD current none = none)
    (hsteps : n.gates.size < steps + path.length) :
    ∃ gs, walkBack deps level steps path current = .ok gs ∧ n.IsCycle gs ∧
      ∀ g ∈ gs, g < n.gates.size := by
  induction steps generalizing path current with
  | zero =>
    have hsub : path ⊆ List.range n.gates.size := fun g hg =>
      List.mem_range.2 (hlt g (List.mem_cons_of_mem current hg))
    have hle := (List.subperm_of_subset hnodup hsub).length_le
    rw [List.length_range] at hle
    omega
  | succ steps ih =>
    rw [walkBack]
    by_cases hmem : current ∈ path
    · rw [if_pos (List.contains_iff_mem.2 hmem)]
      refine ⟨_, rfl, isCycle_of_revisit hchain hnodup hmem, fun g hg => ?_⟩
      exact hlt g (List.mem_cons_of_mem current ((prefix_takeWhile_append hmem).subset hg))
    · have hcurrent := hlt current List.mem_cons_self
      obtain ⟨d, hfeeds, hdout, hfirst⟩ := h.firstUnplaced_deps hcurrent hout
      have hget : Checked.get deps current = .ok (depsOf deps current) := by
        rw [Checked.get_eq_ok]
        simp [depsOf, h.deps_size, hcurrent]
      obtain ⟨gs, hok, hcycle, hgs⟩ := ih (current :: path) d
        (List.isChain_cons_cons.2 ⟨hfeeds, hchain⟩) (List.nodup_cons.2 ⟨hmem, hnodup⟩)
        (List.forall_mem_cons.2 ⟨hfeeds.lt, hlt⟩) hdout (by rw [List.length_cons]; omega)
      refine ⟨gs, ?_, hcycle, hgs⟩
      rw [if_neg (by simpa using hmem), hget, Except.ok_bind, hfirst]
      exact hok

end Stuck

theorem outputNames_ok (hw : n.Wellformed) {gs : List GateId} (hlt : ∀ g ∈ gs, g < n.gates.size) :
    ∃ names, outputNames n gs = .ok names ∧ names.map some = gs.map n.outputName? := by
  induction gs with
  | nil => exact ⟨[], rfl, rfl⟩
  | cons g rest ih =>
    obtain ⟨names, hok, hnames⟩ := ih fun e he => hlt e (List.mem_cons_of_mem g he)
    have hg : g < n.gates.size := hlt g List.mem_cons_self
    have hout : n.gates[g].out < n.signals.size := (hw.gate_lt _ (Array.getElem_mem hg)).2.2
    have hgate : n.gates[g]? = some n.gates[g] := Array.getElem?_eq_getElem hg
    have hsignal : n.signals[n.gates[g].out]? = some n.signals[n.gates[g].out] :=
      Array.getElem?_eq_getElem hout
    refine ⟨n.signals[n.gates[g].out].name :: names, ?_, ?_⟩
    · rw [outputNames, Checked.get_eq_ok.2 hgate, Except.ok_bind, Checked.get_eq_ok.2 hsignal,
        Except.ok_bind, hok]
      rfl
    · rw [List.map_cons, List.map_cons, hnames, Netlist.outputName?, hgate]
      simp [hsignal]

/-- If gates were left out, a cycle is found and its signals have names. -/
theorem Stuck.findCycle_ok (h : Stuck n deps level) (hw : n.Wellformed) :
    ∃ signals gs, findCycle n deps level = .ok signals ∧ n.IsCycle gs ∧
      signals.map some = gs.map n.outputName? := by
  have hfirst : ∃ g, (List.range level.size).find? (fun g => (level.getD g none).isNone) = some g := by
    obtain ⟨g, hg, hout⟩ := h.start
    rw [← Option.isSome_iff_exists, List.find?_isSome]
    exact ⟨g, List.mem_range.2 (h.level_size ▸ hg), by rw [hout]; rfl⟩
  obtain ⟨g, hg⟩ := hfirst
  have hlt : g < n.gates.size :=
    h.level_size ▸ List.mem_range.1 (List.mem_of_find?_eq_some hg)
  have hout : level.getD g none = none := by simpa using List.find?_some hg
  obtain ⟨gs, hwalk, hcycle, hgs⟩ := h.walkBack_ok (deps.size + 1) [] g
    (List.isChain_singleton g) List.nodup_nil (by simpa using hlt) hout (by rw [h.deps_size]; simp)
  obtain ⟨signals, hnames, hsignals⟩ := outputNames_ok hw hgs
  refine ⟨signals, gs, ?_, hcycle, hsignals⟩
  rw [findCycle, firstUnplaced?_ok fun g hg => List.mem_range.1 hg, hg, Except.ok_bind]
  simp only [hwalk, Except.ok_bind]
  exact hnames

/-- With the queue used up before all gates were placed, the gates left out are stuck. -/
theorem Placement.Invariant.stuck {p : Placement} (hp : p.Invariant deps [])
    (hend : p.placed = p.queue.size) (hsize : deps.size = n.gates.size)
    (hmem : ∀ {g d}, d ∈ depsOf deps g ↔ n.Feeds d g) (hleft : p.queue.size < deps.size) :
    Stuck n deps p.level := by
  have hnone : ∀ {g}, p.level.getD g none = none ↔ g ∉ p.queue := by
    intro g
    rw [← mem_done_iff hend, ← hp.isSome_level, Option.not_isSome_iff_eq_none]
  constructor
  case deps_size => exact hsize
  case level_size => exact hp.level_size.trans hsize
  case mem_deps => exact hmem
  case start =>
    by_contra hall
    push Not at hall
    refine Nat.not_le.2 hleft (size_le_of_all fun g hg => ?_)
    exact not_not.1 (mt hnone.2 (hall g (hsize ▸ hg)))
  case back =>
    intro g hg hout
    obtain ⟨d, hd, hdout⟩ := hp.exists_unplaced hend (hsize ▸ hg) (hnone.1 hout)
    exact ⟨d, hd, hnone.2 hdout⟩

end Levels

/-! ## Levels or a cycle -/

/-- A well-formed netlist has levels and no feedback, or a cycle is found in it. -/
theorem levelize_spec {n : Netlist} (hw : n.Wellformed) (hn : n.Numbered) :
    (∃ l, levelize n = .ok l ∧ ¬n.HasFeedback) ∨
      ∃ signals gs, levelize n = .error (.combinationalCycle signals) ∧ n.IsCycle gs ∧
        signals.map some = gs.map n.outputName? := by
  rcases Levels.levelize_cases hw hn with
    ⟨l, level, hl, hleveled⟩ | ⟨deps, p, hsize, hmem, hinv, hend, hleft, heq⟩
  · exact .inl ⟨l, hl, Netlist.not_hasFeedback hleveled.level_lt⟩
  · obtain ⟨signals, gs, hcycle, hgs, hsignals⟩ :=
      (hinv.stuck hend hsize hmem hleft).findCycle_ok hw
    exact .inr ⟨signals, gs, by rw [heq, hcycle], hgs, hsignals⟩

/-- A gate behind two inverters that feed each other. -/
def lockedPair : Netlist :=
  ((((((Netlist.empty "locked_pair").addSignal "a" 0).addSignal "b" 0).addSignal "c" 0).addSignal
    "d" 0).addNand 0 2 3).addNand 1 1 0 |>.addNand 0 0 1

theorem lockedPair_numbered : lockedPair.Numbered :=
  (((((((Netlist.Numbered.empty "locked_pair").addSignal "a" 0).addSignal "b" 0).addSignal "c" 0
    ).addSignal "d" 0).addNand 0 2 3).addNand 1 1 0).addNand 0 0 1

end NandHdl
