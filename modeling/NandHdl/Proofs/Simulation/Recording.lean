-- SUMMARY: The moments of an exported recording follow from the clock cycles and resets that it saw; they go back in time after a reset between two cycles, and never otherwise (`Simulation.stamps_increase_iff`).
import NandHdl.Proofs.Kernel.CycleCount
import NandHdl.Proofs.Simulation.Stopping
import NandHdl.Proofs.Waveform.Stamps
import Mathlib.Algebra.GroupWithZero.Nat

/-!
# Recordings over time

A sample is stamped with the cycle count of the store. A reset puts the count back to 0 and leaves
the recording as it is. The samples of a recording therefore follow from what happened while it was
active, as a list of clock cycles and resets (`RecordingEvent`). As long as the count does not
overflow, the stamps go back in time if and only if a reset comes between two of the cycles.
-/

namespace NandHdl

/-! ## Events -/

/-- What an active recording sees of the time. -/
inductive RecordingEvent where
  | clock
  | reset
  deriving Repr, DecidableEq

namespace RecordingEvent

/-- The cycle count after events. -/
def countAfter (count : Nat) : List RecordingEvent → Nat
  | [] => count
  | .clock :: rest => countAfter (count + 1) rest
  | .reset :: rest => countAfter 0 rest

/-- The cycle counts of the samples that are taken during events. -/
def countsOf (count : Nat) : List RecordingEvent → List Nat
  | [] => []
  | .clock :: rest => (count + 1) :: countsOf (count + 1) rest
  | .reset :: rest => countsOf 0 rest

theorem countAfter_append (count : Nat) (events more : List RecordingEvent) :
    countAfter count (events ++ more) = countAfter (countAfter count events) more := by
  fun_induction countAfter count events with
  | case1 => rfl
  | case2 count rest ih => exact ih
  | case3 count rest ih => exact ih

theorem countsOf_append (count : Nat) (events more : List RecordingEvent) :
    countsOf count (events ++ more) =
      countsOf count events ++ countsOf (countAfter count events) more := by
  fun_induction countsOf count events with
  | case1 => rfl
  | case2 count rest ih => exact congrArg ((count + 1) :: ·) ih
  | case3 count rest ih => exact ih

/-- Every count is counted by a cycle. -/
theorem countsOf_eq_nil_iff (count : Nat) (events : List RecordingEvent) :
    countsOf count events = [] ↔ .clock ∉ events := by
  fun_induction countsOf count events with
  | case1 => simp
  | case2 count rest ih => simp
  | case3 count rest ih => simp [ih]

/-- The first count after a reset is 1. -/
theorem countsOf_zero_head {events : List RecordingEvent} (h : .clock ∈ events) :
    ∃ counts, countsOf 0 events = 1 :: counts := by
  induction events with
  | nil => exact nomatch h
  | cons e rest ih =>
    cases e with
    | clock => exact ⟨_, rfl⟩
    | reset => exact ih ((List.mem_cons.1 h).resolve_left nofun)

/-- From a later moment on, the counts go up unless a cycle comes after a reset. -/
theorem increasing_later_iff {count : Nat} (hpos : 0 < count) (events : List RecordingEvent) :
    (count :: countsOf count events).Pairwise (· < ·) ↔ ¬ [reset, clock].Sublist events := by
  induction events generalizing count with
  | nil => simp [countsOf]
  | cons e rest ih =>
    cases e with
    | clock =>
      have hsame : [reset, clock].Sublist (clock :: rest) ↔ [reset, clock].Sublist rest := by
        simp [List.sublist_cons_iff]
      rw [hsame, ← ih (Nat.succ_pos count), countsOf, ← List.isChain_iff_pairwise,
        ← List.isChain_iff_pairwise, List.isChain_cons_cons]
      exact and_iff_right (Nat.lt_succ_self count)
    | reset =>
      have hsame : [reset, clock].Sublist (reset :: rest) ↔ clock ∈ rest := by
        rw [List.cons_sublist_cons, List.singleton_sublist]
      rw [hsame, countsOf]
      by_cases hclock : clock ∈ rest
      · obtain ⟨counts, hcounts⟩ := countsOf_zero_head hclock
        rw [hcounts]
        refine iff_of_false (fun h => ?_) fun h => h hclock
        have hlt : count < 1 := (List.pairwise_cons.1 h).1 1 List.mem_cons_self
        omega
      · rw [(countsOf_eq_nil_iff 0 rest).2 hclock]
        exact iff_of_true (List.pairwise_singleton _ _) hclock

/-- The first sample stands at 0 whatever its count is. From there the counts go up unless a reset
comes between two cycles. -/
theorem increasing_iff (count : Nat) (events : List RecordingEvent) :
    (0 :: countsOf count events).Pairwise (· < ·) ↔ ¬ [clock, reset, clock].Sublist events := by
  induction events generalizing count with
  | nil => simp [countsOf]
  | cons e rest ih =>
    cases e with
    | clock =>
      rw [List.cons_sublist_cons, ← increasing_later_iff (Nat.succ_pos count), countsOf,
        ← List.isChain_iff_pairwise, ← List.isChain_iff_pairwise, List.isChain_cons_cons]
      exact and_iff_right (Nat.succ_pos count)
    | reset =>
      have hsame : [clock, reset, clock].Sublist (reset :: rest) ↔
          [clock, reset, clock].Sublist rest := by
        simp [List.sublist_cons_iff]
      rw [hsame, ← ih 0]
      rfl

end RecordingEvent

open RecordingEvent

/-! ## Operations -/

namespace SimOp

/-- What a recording sees of an operation. -/
def events : SimOp → List RecordingEvent
  | .step => [.clock]
  | .run cycles => List.replicate cycles .clock
  | .reset => [.reset]
  | _ => []

/-- The clock cycles that an operation asks for. -/
def cycles : SimOp → Nat
  | .step => 1
  | .run cycles => cycles
  | _ => 0

/-- Whether an operation starts a recording. -/
def startsRecording : SimOp → Bool
  | .startRecording _ | .startRecordingAll => true
  | _ => false

end SimOp

namespace Simulation

/-- What was seen, with what is seen now if a recording is active. -/
def watch (sim : Simulation) (seen now : List RecordingEvent) : List RecordingEvent :=
  if sim.watched.isSome then seen ++ now else seen

/-- What the last recording saw, after one more operation. A start of a recording forgets the one
before, and without an active recording nothing is seen. -/
def seenWith (sim : Simulation) (seen : List RecordingEvent) (op : SimOp) : List RecordingEvent :=
  match sim.perform op with
  | .error _ => seen
  | .ok _ =>
    if op.startsRecording then [] else sim.watch seen op.events

/-- What the last recording saw, after a sequence of operations. -/
def seenAfter (sim : Simulation) (seen : List RecordingEvent) : List SimOp → List RecordingEvent
  | [] => seen
  | op :: rest => (sim.after op).2.seenAfter (sim.seenWith seen op) rest

/-- The simulation after a sequence of operations. -/
def performAll (sim : Simulation) : List SimOp → Simulation
  | [] => sim
  | op :: rest => (sim.after op).2.performAll rest

/-! ## Samples and events -/

/-- The samples are those of a recording that saw the given events, and at most `spent` cycles are
counted so far. -/
structure Recorded (sim : Simulation) (seen : List RecordingEvent) (spent : Nat) : Prop where
  count_le : sim.store.cycle.toNat ≤ spent
  /-- Without samples there was no recording. -/
  unseen : sim.samples.toList = [] → seen = [] ∧ sim.watched = none
  /-- The counts of the later samples, from the count of the first one on. -/
  counts : ∀ first rest, sim.samples.toList = first :: rest →
    rest.map (·.cycle.toNat) = countsOf first.cycle.toNat seen
  /-- An active recording has seen all that the store counts. -/
  count_eq : ∀ first rest, sim.samples.toList = first :: rest → sim.watched ≠ none →
    sim.store.cycle.toNat = countAfter first.cycle.toNat seen

theorem act_eq_ok {α : Type} {sim next : Simulation} {x : StoreM α} {a : α} :
    sim.act x = .ok (a, next) ↔ ∃ store, x sim.store = .ok a store ∧ next = { sim with store } := by
  rw [act, EStateM.run]
  cases hx : x sim.store with
  | ok b store => simp [eq_comm]
  | error f store => simp

theorem watch_nil (sim : Simulation) (seen : List RecordingEvent) : sim.watch seen [] = seen := by
  simp [watch]

section

variable {sim next : Simulation} {seen : List RecordingEvent} {spent : Nat}

namespace Recorded

/-- An action that leaves the count alone leaves the samples what they are. -/
theorem act (h : sim.Recorded seen spent) {α : Type} {x : StoreM α} (hx : Store.KeepsCycle x)
    {a : α} (hact : sim.act x = .ok (a, next)) : next.Recorded seen spent := by
  obtain ⟨store, hrun, rfl⟩ := act_eq_ok.1 hact
  have hcycle : store.cycle = sim.store.cycle := hx _ _ _ hrun
  exact {
    count_le := by rw [hcycle]; exact h.count_le
    unseen := h.unseen
    counts := h.counts
    count_eq := fun first rest hsamples hwatched => by
      rw [hcycle]; exact h.count_eq first rest hsamples hwatched }

/-- A new recording has seen nothing yet. -/
theorem record (h : sim.Recorded seen spent) {watched : List (String × SignalId)}
    (hrecord : sim.record watched = .ok next) : next.Recorded [] spent := by
  obtain ⟨values, -, hrecord⟩ := Except.bind_eq_ok.1 hrecord
  cases hrecord
  exact {
    count_le := h.count_le
    unseen := fun hnone => absurd hnone (List.cons_ne_nil _ _)
    counts := by rintro first rest ⟨⟩; rfl
    count_eq := by rintro first rest ⟨⟩ -; rfl }

theorem stopRecording (h : sim.Recorded seen spent) : sim.stopRecording.Recorded seen spent where
  count_le := h.count_le
  unseen hnone := ⟨(h.unseen hnone).1, rfl⟩
  counts := h.counts
  count_eq _ _ _ hwatched := absurd rfl hwatched

end Recorded

/-- A snapshot takes a sample if somebody looks. -/
theorem snapshot_eq_ok (h : sim.snapshot = .ok next) :
    next.store = sim.store ∧ next.watched = sim.watched ∧
      ((sim.watched = none ∧ next.samples = sim.samples) ∨
        (sim.watched ≠ none ∧ ∃ values, next.samples =
          sim.samples.push { cycle := sim.store.cycle, values })) := by
  cases hwatched : sim.watched with
  | none =>
    simp only [snapshot, hwatched] at h
    cases h
    exact ⟨rfl, hwatched, .inl ⟨rfl, rfl⟩⟩
  | some watched =>
    simp only [snapshot, hwatched] at h
    obtain ⟨values, -, h⟩ := Except.bind_eq_ok.1 h
    cases h
    exact ⟨rfl, rfl, .inr ⟨Option.some_ne_none _, values, rfl⟩⟩

/-- A clock cycle counts one more, and then there is a snapshot. -/
theorem step_eq_ok (h : sim.step = .ok next) :
    next.store.cycle = sim.store.cycle + 1 ∧ next.watched = sim.watched ∧
      ((sim.watched = none ∧ next.samples = sim.samples) ∨
        (sim.watched ≠ none ∧ ∃ values, next.samples =
          sim.samples.push { cycle := next.store.cycle, values })) := by
  obtain ⟨⟨kernel, clocked⟩, hact, h⟩ := Except.bind_eq_ok.1 h
  obtain ⟨store, hrun, rfl⟩ := act_eq_ok.1 hact
  obtain ⟨hstore, hwatched, hsamples⟩ := snapshot_eq_ok h
  rw [hstore]
  exact ⟨Kernel.cycle_counts hrun, hwatched, hsamples⟩

theorem Recorded.step (h : sim.Recorded seen spent) (hroom : spent + 1 < 2 ^ 32)
    (hstep : sim.step = .ok next) : next.Recorded (sim.watch seen [.clock]) (spent + 1) := by
  obtain ⟨hcycle, hwatched, hsamples⟩ := step_eq_ok hstep
  have hcount : next.store.cycle.toNat = sim.store.cycle.toNat + 1 := by
    have hle := h.count_le
    rw [hcycle, UInt32.toNat_add, UInt32.toNat_one, Nat.mod_eq_of_lt (by omega)]
  have hle : next.store.cycle.toNat ≤ spent + 1 := by
    rw [hcount]
    exact Nat.succ_le_succ h.count_le
  rcases hsamples with ⟨hnone, hsame⟩ | ⟨hsome, values, hpush⟩
  · have hunseen : sim.watch seen [.clock] = seen := by simp [watch, hnone]
    rw [hunseen]
    exact {
      count_le := hle
      unseen := by rw [hsame, hwatched]; exact h.unseen
      counts := by rw [hsame]; exact h.counts
      count_eq := fun _ _ _ hactive => absurd (hwatched.trans hnone) hactive }
  · have hseen : sim.watch seen [.clock] = seen ++ [.clock] := by
      rw [watch, if_pos (Option.isSome_iff_ne_none.2 hsome)]
    -- an active recording took a sample at its start
    obtain ⟨first, rest, hlist⟩ := List.exists_cons_of_ne_nil fun hnil =>
      hsome (h.unseen hnil).2
    have hnext : next.samples.toList =
        first :: (rest ++ [{ cycle := next.store.cycle, values }]) := by
      rw [hpush, Array.toList_push, hlist, List.cons_append]
    have hnow := h.count_eq first rest hlist hsome
    rw [hseen]
    refine { count_le := hle, unseen := ?_, counts := ?_, count_eq := ?_ }
    · intro hnil
      rw [hnext] at hnil
      exact absurd hnil (List.cons_ne_nil _ _)
    · intro first' rest' hsplit
      rw [hnext] at hsplit
      cases hsplit
      rw [List.map_append, h.counts first rest hlist, countsOf_append, ← hnow]
      simp only [List.map_cons, List.map_nil, hcount, countsOf]
    · intro first' rest' hsplit _
      rw [hnext] at hsplit
      cases hsplit
      rw [countAfter_append, ← hnow, hcount]
      rfl

/-- By induction on the cycles. -/
theorem Recorded.run (h : sim.Recorded seen spent) {cycles : Nat}
    (hroom : spent + cycles < 2 ^ 32) (hrun : sim.run cycles = .ok next) :
    next.Recorded (sim.watch seen (List.replicate cycles .clock)) (spent + cycles) := by
  induction cycles generalizing sim seen spent with
  | zero =>
    cases hrun
    rw [List.replicate_zero, watch_nil]
    exact h
  | succ cycles ih =>
    obtain ⟨middle, hstep, hrest⟩ := Except.bind_eq_ok.1 hrun
    have hlater := ih (h.step (by omega) hstep) (by omega) hrest
    have hwatched : middle.watched = sim.watched := (step_eq_ok hstep).2.1
    have hsame : middle.watch (sim.watch seen [.clock]) (List.replicate cycles .clock) =
        sim.watch seen (List.replicate (cycles + 1) .clock) := by
      rw [watch, hwatched, watch, watch, List.replicate_succ]
      split
      · rw [List.append_assoc, List.singleton_append]
      · rfl
    rw [hsame, Nat.add_right_comm] at hlater
    exact hlater

theorem Recorded.reset (h : sim.Recorded seen spent) (hreset : sim.reset = .ok next) :
    next.Recorded (sim.watch seen [.reset]) spent := by
  obtain ⟨store, hstore, hreset⟩ := Except.bind_eq_ok.1 hreset
  obtain ⟨kernel, -, hreset⟩ := Except.bind_eq_ok.1 hreset
  cases hreset
  have hzero : store.cycle = 0 := Store.cycle_forNetlist (Except.mapError_eq_ok.1 hstore)
  have hle : store.cycle.toNat ≤ spent := by
    rw [hzero]
    exact Nat.zero_le spent
  by_cases hwatched : sim.watched = none
  · have hunseen : sim.watch seen [.reset] = seen := by simp [watch, hwatched]
    rw [hunseen]
    exact {
      count_le := hle
      unseen := h.unseen
      counts := h.counts
      count_eq := fun _ _ _ hactive => absurd hwatched hactive }
  · have hseen : sim.watch seen [.reset] = seen ++ [.reset] := by
      rw [watch, if_pos (Option.isSome_iff_ne_none.2 hwatched)]
    rw [hseen]
    refine { count_le := hle, unseen := ?_, counts := ?_, count_eq := ?_ }
    · exact fun hnil => absurd (h.unseen hnil).2 hwatched
    · intro first rest hsplit
      rw [h.counts first rest hsplit, countsOf_append]
      exact (List.append_nil _).symm
    · intro first rest hsplit _
      rw [countAfter_append]
      exact congrArg UInt32.toNat hzero

/-! ## Sequences of operations -/

/-- One operation that is carried out. -/
theorem Recorded.perform (h : sim.Recorded seen spent) {op : SimOp}
    (hroom : spent + op.cycles < 2 ^ 32) {answer : SimAnswer}
    (hop : sim.perform op = .ok (answer, next)) :
    next.Recorded (if op.startsRecording then [] else sim.watch seen op.events)
      (spent + op.cycles) := by
  -- most operations neither start a recording nor count cycles
  have hidle : next.Recorded seen spent → next.Recorded (sim.watch seen []) spent := by
    rw [watch_nil]
    exact id
  cases op with
  | set name value =>
    obtain ⟨_, hset, ⟨⟩⟩ := Except.map_eq_ok.1 hop
    obtain ⟨id, -, hset⟩ := Except.bind_eq_ok.1 hset
    obtain ⟨⟨_, _⟩, hact, ⟨⟩⟩ := Except.bind_eq_ok.1 hset
    exact hidle (h.act (Store.write_keepsCycle id value) hact)
  | get name =>
    obtain ⟨_, -, ⟨⟩⟩ := Except.map_eq_ok.1 hop
    exact hidle h
  | poke name value =>
    obtain ⟨_, hpoke, ⟨⟩⟩ := Except.map_eq_ok.1 hop
    obtain ⟨bits, -, hpoke⟩ := Except.bind_eq_ok.1 hpoke
    dsimp only at hpoke
    split at hpoke
    · cases hpoke
    · obtain ⟨⟨_, _⟩, hact, ⟨⟩⟩ := Except.bind_eq_ok.1 hpoke
      exact hidle (h.act (Store.writeFrom_keepsCycle value 0 bits) hact)
  | peek name =>
    obtain ⟨_, -, ⟨⟩⟩ := Except.map_eq_ok.1 hop
    exact hidle h
  | evaluate =>
    obtain ⟨_, hevaluate, ⟨⟩⟩ := Except.map_eq_ok.1 hop
    obtain ⟨⟨_, _⟩, hact, ⟨⟩⟩ := Except.bind_eq_ok.1 hevaluate
    exact hidle (h.act sim.kernel.evaluate_keepsCycle hact)
  | step =>
    obtain ⟨_, hstep, ⟨⟩⟩ := Except.map_eq_ok.1 hop
    exact h.step hroom hstep
  | run cycles =>
    obtain ⟨_, hrun, ⟨⟩⟩ := Except.map_eq_ok.1 hop
    exact h.run hroom hrun
  | reset =>
    obtain ⟨_, hreset, ⟨⟩⟩ := Except.map_eq_ok.1 hop
    exact h.reset hreset
  | startRecording names =>
    obtain ⟨_, hstart, ⟨⟩⟩ := Except.map_eq_ok.1 hop
    obtain ⟨watched, -, hrecord⟩ := Except.bind_eq_ok.1 hstart
    exact h.record hrecord
  | startRecordingAll =>
    obtain ⟨_, hrecord, ⟨⟩⟩ := Except.map_eq_ok.1 hop
    exact h.record hrecord
  | stopRecording =>
    cases hop
    exact hidle h.stopRecording
  | exportVcd names =>
    obtain ⟨_, -, ⟨⟩⟩ := Except.map_eq_ok.1 hop
    exact hidle h

theorem Recorded.later (h : sim.Recorded seen spent) {more : Nat} (hle : spent ≤ more) :
    sim.Recorded seen more :=
  { h with count_le := h.count_le.trans hle }

/-- One operation. If it is refused, nothing happens. -/
theorem Recorded.after (h : sim.Recorded seen spent) (op : SimOp)
    (hroom : spent + op.cycles < 2 ^ 32) :
    (sim.after op).2.Recorded (sim.seenWith seen op) (spent + op.cycles) := by
  rw [Simulation.after, seenWith]
  cases hop : sim.perform op with
  | error e => exact h.later (Nat.le_add_right _ _)
  | ok r => exact h.perform hroom hop

/-- A sequence of operations, by induction on it. -/
theorem Recorded.performAll (h : sim.Recorded seen spent) (ops : List SimOp)
    (hroom : spent + (ops.map SimOp.cycles).sum < 2 ^ 32) :
    (sim.performAll ops).Recorded (sim.seenAfter seen ops)
      (spent + (ops.map SimOp.cycles).sum) := by
  induction ops generalizing sim seen spent with
  | nil => exact h
  | cons op rest ih =>
    rw [List.map_cons, List.sum_cons] at hroom ⊢
    have hfirst := h.after op (by omega)
    have hrest := ih hfirst (by omega)
    rwa [Nat.add_assoc] at hrest

end

/-! ## Exported recordings -/

/-- The moments of an exported recording. -/
theorem Recorded.stamps_exportVcd {sim : Simulation} {seen : List RecordingEvent} {spent : Nat}
    (h : sim.Recorded seen spent) {names : Option (List String)} {text : String}
    (hexport : sim.exportVcd names = .ok text) :
    (seen = [] ∧ Vcd.stamps text = []) ∨
      ∃ count, Vcd.stamps text = (0 :: countsOf count seen).map (· * 10) := by
  obtain ⟨exported, -, hexport⟩ := Except.bind_eq_ok.1 hexport
  cases hexport
  rw [Vcd.stamps_render]
  cases hsamples : sim.samples.toList with
  | nil => exact .inl ⟨(h.unseen hsamples).1, rfl⟩
  | cons first rest =>
    refine .inr ⟨first.cycle.toNat, ?_⟩
    rw [← h.counts first rest hsamples, List.map_cons, List.map_map]
    rfl

theorem start_recorded {l : LevelizedNetlist} {config : SimConfig} {sim : Simulation}
    (h : start l config = .ok sim) : sim.Recorded [] 0 := by
  obtain ⟨store, hstore, h⟩ := Except.bind_eq_ok.1 h
  obtain ⟨kernel, -, h⟩ := Except.bind_eq_ok.1 h
  cases h
  have hzero : store.cycle = 0 := Store.cycle_forNetlist (Except.mapError_eq_ok.1 hstore)
  exact {
    count_le := Nat.le_of_eq (congrArg UInt32.toNat hzero)
    unseen := fun _ => ⟨rfl, rfl⟩
    counts := nofun
    count_eq := nofun }

/-- An exported recording does not go back in time unless it was reset between two cycles. In
whatever way a simulation is used for fewer than 2^32 cycles, the moments that an exported recording
counts go up if and only if the recording did not see a cycle, then a reset and then a cycle again. -/
theorem stamps_increase_iff {l : LevelizedNetlist} {config : SimConfig} {sim : Simulation}
    {ops : List SimOp} {names : Option (List String)} {text : String}
    (hstart : start l config = .ok sim) (hcycles : (ops.map SimOp.cycles).sum < 2 ^ 32)
    (hexport : (sim.performAll ops).exportVcd names = .ok text) :
    (Vcd.stamps text).Pairwise (· < ·) ↔
      ¬ [.clock, .reset, .clock].Sublist (sim.seenAfter [] ops) := by
  have hrecorded := (start_recorded hstart).performAll ops (by omega)
  rcases hrecorded.stamps_exportVcd hexport with ⟨hseen, hstamps⟩ | ⟨count, hstamps⟩
  · rw [hseen, hstamps]
    simp
  · rw [hstamps, ← increasing_iff count, List.pairwise_map]
    simp only [Nat.mul_lt_mul_right (show 0 < 10 by decide)]

/-! A toggle, reset at two different times. -/

/-- The simulation of a toggle, if there is one. -/
def toggleSimulation : Option Simulation := do
  let n ← toggle.toOption
  let l ← (levelize n).toOption
  (start l {}).toOption

theorem toggleSimulation_start :
    ∃ n l sim, toggle = .ok n ∧ levelize n = .ok l ∧ start l {} = .ok sim ∧
      toggleSimulation = some sim := by
  obtain ⟨n, l, hn, hl⟩ := toggle_levelized
  obtain ⟨hw, level, hs⟩ := levelize_sorted (toggle_numbered hn) hl
  obtain ⟨sim, hstart, -⟩ := start_inRange hs (toggle_numbered hn) hw {}
  refine ⟨n, l, sim, hn, hl, hstart, ?_⟩
  rw [toggleSimulation, hn, Except.toOption, Option.bind_eq_bind, Option.bind_some, hl,
    Except.toOption, Option.bind_eq_bind, Option.bind_some, hstart, Except.toOption]

/-- The reset comes before the first cycle that the recording sees. -/
def earlyReset : List SimOp := [.step, .startRecording ["q"], .reset, .step, .step]

theorem stamps_increase_early_reset :
    ∃ n l sim text, toggle = .ok n ∧ levelize n = .ok l ∧ start l {} = .ok sim ∧
      (earlyReset.map SimOp.cycles).sum < 2 ^ 32 ∧
      (sim.performAll earlyReset).exportVcd none = .ok text ∧
      sim.seenAfter [] earlyReset = [.reset, .clock, .clock] ∧
      (Vcd.stamps text).Pairwise (· < ·) := by
  obtain ⟨n, l, sim, hn, hl, hstart, hsim⟩ := toggleSimulation_start
  have hseen : toggleSimulation.map (·.seenAfter [] earlyReset) = some [.reset, .clock, .clock] := by
    decide +kernel
  rw [hsim, Option.map_some, Option.some_inj] at hseen
  have hcycles : (earlyReset.map SimOp.cycles).sum < 2 ^ 32 := by decide
  have hexport : ∃ text, (sim.performAll earlyReset).exportVcd none = .ok text := ⟨_, rfl⟩
  obtain ⟨text, hexport⟩ := hexport
  refine ⟨n, l, sim, text, hn, hl, hstart, hcycles, hexport, hseen, ?_⟩
  rw [stamps_increase_iff hstart hcycles hexport, hseen]
  decide

/-- The reset comes between two cycles that the recording sees. -/
def lateReset : List SimOp := [.startRecording ["q"], .step, .step, .reset, .step]

theorem stamps_decrease_late_reset :
    ∃ n l sim text, toggle = .ok n ∧ levelize n = .ok l ∧ start l {} = .ok sim ∧
      (lateReset.map SimOp.cycles).sum < 2 ^ 32 ∧
      (sim.performAll lateReset).exportVcd none = .ok text ∧
      Vcd.stamps text = [0, 10, 20, 10] ∧ ¬ (Vcd.stamps text).Pairwise (· < ·) := by
  obtain ⟨n, l, sim, hn, hl, hstart, hsim⟩ := toggleSimulation_start
  have hmoments : toggleSimulation.map (fun sim =>
      Vcd.momentsOf (sim.performAll lateReset).samples.toList) = some [0, 10, 20, 10] := by
    decide +kernel
  rw [hsim, Option.map_some, Option.some_inj] at hmoments
  have hstamps : ∀ moduleName timescale names, Vcd.stamps (Vcd.render moduleName timescale names
      (sim.performAll lateReset).samples.toList) = [0, 10, 20, 10] := by
    intro moduleName timescale names
    rw [Vcd.stamps_render]
    exact hmoments
  refine ⟨n, l, sim, _, hn, hl, hstart, by decide, rfl, hstamps _ _ _, ?_⟩
  rw [hstamps]
  decide

end Simulation

end NandHdl
