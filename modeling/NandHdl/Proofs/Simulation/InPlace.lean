-- SUMMARY: Operations that change a simulation step by step (`InPlace`): a refused one has changed nothing before it is refused (`InPlace.poke_atomic` and its kin).
import NandHdl.Proofs.Simulation.Batching

/-!
# Operations in place

`Simulation.poke` answers a new simulation or an error, so there is no simulation in which an error
could have left traces. Here the operations that resolve names are carried out on one simulation, step
by step: what was written before an error stays written. They do the same, and since all names are
resolved before the first change, an error leaves the simulation as it was.
-/

namespace NandHdl

/-- An operation on a simulation that keeps what was changed before an error. -/
abbrev InPlace := EStateM SimError Simulation

namespace InPlace

/-- What an operation comes to for someone who throws the simulation away after an error. -/
def outcome : EStateM.Result SimError Simulation Unit → Except SimError Simulation
  | .ok _ sim => .ok sim
  | .error e _ => .error e

/-- An operation that leads to the simulation of the answer, or ends with its error and leaves
everything as it was: the store, the active recording and the samples. -/
structure Atomic (op : InPlace Unit) (sim : Simulation) (answer : Except SimError Simulation) :
    Prop where
  done : ∀ next, answer = .ok next → op sim = .ok () next
  refused : ∀ e, answer = .error e → op sim = .error e sim

/-! ## Steps -/

/-- A question that changes nothing. -/
def ask {α : Type} (question : Simulation → Except SimError α) : InPlace α := fun sim =>
  match question sim with
  | .ok a => .ok a sim
  | .error e => .error e sim

/-- An action on the store. What it writes before a fault stays written. -/
def onStore {α : Type} (action : StoreM α) : InPlace α := fun sim =>
  match action.run sim.store with
  | .ok a store => .ok a { sim with store }
  | .error f store => .error (.fault f) { sim with store }

/-- Adds a sample of the watched signals. -/
def sample (watched : List (String × SignalId)) : InPlace Unit := do
  let values ← ask fun sim => sim.sampleValues {} watched
  modify fun sim => { sim with samples := sim.samples.push { cycle := sim.store.cycle, values } }

/-- Adds a sample if a recording is active. -/
def snapshot : InPlace Unit := fun sim =>
  match sim.watched with
  | none => .ok () sim
  | some watched => sample watched sim

/-! ## Operations -/

/-- Gives one signal a value. -/
def set (name : String) (value : Bool) : InPlace Unit := do
  let id ← ask fun sim => sim.resolve name
  onStore (Store.write id value)

/-- Gives a bus a value, signal by signal. -/
def poke (name : String) (value : UInt64) : InPlace Unit := do
  let bits ← ask fun sim => sim.wordBus name
  if value.toNat ≥ 1 <<< bits.length then throw (.valueOutOfRange name bits.length value)
  onStore (Store.writeBits bits value)

/-- Drops the samples and records from now on. -/
def record (watched : List (String × SignalId)) : InPlace Unit := do
  modify fun sim => { sim with samples := #[], watched := some watched }
  snapshot

/-- Starts a recording of the named signals. The names are resolved one by one. -/
def startRecording (names : List String) : InPlace Unit := do
  record (← names.mapM fun name => do return (name, ← ask fun sim => sim.resolve name))

/-! ## Laws of steps -/

section

variable {α β : Type} {sim rest : Simulation} {e : SimError}

theorem bind_eq_error {x : InPlace α} {f : α → InPlace β} :
    (x >>= f) sim = .error e rest ↔
      x sim = .error e rest ∨ ∃ a next, x sim = .ok a next ∧ f a next = .error e rest := by
  show EStateM.bind x f sim = _ ↔ _
  rw [EStateM.bind]
  cases x sim with
  | ok a next => simp
  | error e' rest' => simp

theorem ask_eq_error {question : Simulation → Except SimError α}
    (h : ask question sim = .error e rest) : question sim = .error e ∧ rest = sim := by
  unfold ask at h
  split at h
  · cases h
  · next hq =>
    cases h
    exact ⟨hq, rfl⟩

theorem ask_eq_ok {question : Simulation → Except SimError α} {a : α}
    (h : ask question sim = .ok a rest) : question sim = .ok a ∧ rest = sim := by
  unfold ask at h
  split at h
  · next hq =>
    cases h
    exact ⟨hq, rfl⟩
  · cases h

theorem ask_bind {question : Simulation → Except SimError α} {f : α → InPlace β} :
    (ask question >>= f) sim = match question sim with
      | .ok a => f a sim
      | .error e => .error e sim := by
  show EStateM.bind (ask question) f sim = _
  rw [EStateM.bind, ask]
  cases question sim with
  | ok a => rfl
  | error e => rfl

theorem onStore_ok {action : StoreM α} {a : α} {store : Store} (h : action sim.store = .ok a store) :
    onStore action sim = .ok a { sim with store } := by
  simp only [onStore, EStateM.run, h]

/-- Questions in a row are one question. -/
theorem mapM_ask (question : β → Simulation → Except SimError α) (bs : List β) :
    (bs.mapM fun b => ask (question b)) = ask fun sim => bs.mapM fun b => question b sim := by
  funext sim
  induction bs with
  | nil => rfl
  | cons b bs ih =>
    rw [List.mapM_cons, ask_bind, ask, List.mapM_cons]
    cases question b sim with
    | error e => rfl
    | ok a =>
      show EStateM.bind (bs.mapM fun b => ask (question b)) _ sim = _
      rw [EStateM.bind, ih, ask, Except.ok_bind]
      cases bs.mapM fun b => question b sim with
      | error e => rfl
      | ok as => rfl

end

/-! ## The same operations -/

section

variable (sim : Simulation)

theorem outcome_onStore (action : StoreM Unit) :
    outcome (onStore action sim) = (sim.act action).map Prod.snd := by
  rw [onStore, Simulation.act]
  cases action.run sim.store with
  | ok a store => rfl
  | error f store => rfl

theorem outcome_set (name : String) (value : Bool) :
    outcome (set name value sim) = sim.set name value := by
  rw [set, ask_bind, Simulation.set]
  cases sim.resolve name with
  | error e => rfl
  | ok id =>
    rw [Except.ok_bind, outcome_onStore]
    cases sim.act (Store.write id value) with
    | error e => rfl
    | ok r => rfl

theorem outcome_poke (name : String) (value : UInt64) :
    outcome (poke name value sim) = sim.poke name value := by
  rw [poke, ask_bind, Simulation.poke]
  cases sim.wordBus name with
  | error e => rfl
  | ok bits =>
    rw [Except.ok_bind]
    dsimp only
    split
    · rfl
    · show outcome (onStore (Store.writeBits bits value) sim) = _
      rw [outcome_onStore]
      cases sim.act (Store.writeBits bits value) with
      | error e => rfl
      | ok r => rfl

theorem outcome_snapshot : outcome (snapshot sim) = sim.snapshot := by
  cases hwatched : sim.watched with
  | none => simp only [snapshot, Simulation.snapshot, hwatched, outcome]
  | some watched =>
    simp only [snapshot, Simulation.snapshot, hwatched, sample, ask_bind]
    cases sim.sampleValues {} watched with
    | error e => rfl
    | ok values =>
      rw [← hwatched]
      rfl

theorem outcome_record (watched : List (String × SignalId)) :
    outcome (record watched sim) = sim.record watched :=
  outcome_snapshot { sim with samples := #[], watched := some watched }

theorem startRecording_eq (names : List String) :
    startRecording names =
      ((ask fun sim => names.mapM fun name => do return (name, ← sim.resolve name)) >>= record) := by
  have hpair : ∀ name : String, (do return (name, ← ask fun sim => sim.resolve name) : InPlace _) =
      ask fun sim => do return (name, ← sim.resolve name) := by
    intro name
    funext sim
    rw [ask_bind, ask]
    cases sim.resolve name with
    | error e => rfl
    | ok id => rfl
  rw [startRecording]
  simp only [hpair, mapM_ask fun name sim => do return (name, ← sim.resolve name)]

theorem outcome_startRecording (names : List String) :
    outcome (startRecording names sim) = sim.startRecording names := by
  rw [startRecording_eq, ask_bind, Simulation.startRecording]
  cases names.mapM fun name => (do return (name, ← sim.resolve name) : Except SimError _) with
  | error e => rfl
  | ok watched => exact outcome_record sim watched

end

/-! ## Refusals -/

section

variable {sim : Simulation} {n : Netlist} {l : LevelizedNetlist} {level : GateId → Nat}

/-- It is enough to look at errors that come after something was changed. -/
theorem atomic_of_outcome {op : InPlace Unit} {answer : Except SimError Simulation}
    (hsame : outcome (op sim) = answer) (hleft : ∀ e rest, op sim = .error e rest → rest = sim) :
    Atomic op sim answer := by
  subst hsame
  cases hop : op sim with
  | ok a next =>
    constructor
    · rintro _ ⟨⟩
      exact hop
    · rintro e ⟨⟩
  | error e rest =>
    cases hleft e rest hop
    constructor
    · rintro next ⟨⟩
    · rintro _ ⟨⟩
      exact hop

theorem set_atomic (h : sim.InRange n l) (hs : l.Sorted n level) (hw : n.Wellformed) (name : String)
    (value : Bool) : Atomic (set name value) sim (sim.set name value) := by
  refine atomic_of_outcome (outcome_set sim name value) fun e rest herror => ?_
  rcases bind_eq_error.1 herror with hname | ⟨id, next, hname, hwrite⟩
  · exact (ask_eq_error hname).2
  · -- A signal that has a name has a bit in the store.
    obtain ⟨hid, rfl⟩ := ask_eq_ok hname
    have hlt := Simulation.resolve_lt h.levelized_eq hs hw hid
    rw [onStore_ok (Store.write_run h.sized hlt value)] at hwrite
    cases hwrite

theorem poke_atomic (h : sim.InRange n l) (hs : l.Sorted n level) (hw : n.Wellformed)
    (name : String) (value : UInt64) : Atomic (poke name value) sim (sim.poke name value) := by
  refine atomic_of_outcome (outcome_poke sim name value) fun e rest herror => ?_
  rcases bind_eq_error.1 herror with hname | ⟨bits, next, hname, hwrite⟩
  · exact (ask_eq_error hname).2
  · obtain ⟨hbits, rfl⟩ := ask_eq_ok hname
    dsimp only at hwrite
    split at hwrite
    · cases hwrite
      rfl
    · have hlt := Simulation.wordBus_lt h.levelized_eq hs hw hbits
      have hrun : onStore (Store.writeBits bits value) next = .error e rest := hwrite
      rw [Store.writeBits, onStore_ok (Store.writeFrom_run h.sized hlt)] at hrun
      cases hrun

theorem record_ne_error (h : sim.InRange n l) {watched : List (String × SignalId)}
    (hwatched : ∀ w ∈ watched, w.2 < n.signals.size) (e : SimError) (rest : Simulation) :
    record watched sim ≠ .error e rest := by
  intro herror
  have hrefused : sim.record watched = .error e := by
    rw [← outcome_record, herror]
    rfl
  obtain ⟨f, rfl⟩ := Simulation.snapshot_error hrefused
  exact (h.record hwatched).not_error (fun hrefusal => hrefusal f rfl) hrefused

theorem startRecording_atomic (h : sim.InRange n l) (hs : l.Sorted n level) (hw : n.Wellformed)
    (names : List String) :
    Atomic (startRecording names) sim (sim.startRecording names) := by
  refine atomic_of_outcome (outcome_startRecording sim names) fun e rest herror => ?_
  rw [startRecording_eq] at herror
  rcases bind_eq_error.1 herror with hnames | ⟨watched, next, hnames, hrecord⟩
  · exact (ask_eq_error hnames).2
  · obtain ⟨hwatched, rfl⟩ := ask_eq_ok hnames
    have hlt := (h.resolveAll_yields hs hw names).value hwatched
    exact absurd hrecord (record_ne_error h hlt e rest)

end

end InPlace

end NandHdl
