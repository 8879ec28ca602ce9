-- SUMMARY: The queue of the levelizer: what every step of placing gates preserves, and what holds when the queue is empty.
import NandHdl.Proofs.Levels.Tables
import Mathlib.Data.List.Perm.Subperm

/-!
# Placing gates

The state of the levelizer satisfies one invariant all along: a gate waits for as many gates as it
reads and that have not been placed, it is in the queue exactly if it waits for none, and a placed
gate has its final level. While the readers of a placed gate are told, those that have not been
told yet wait for one gate more.
-/

namespace NandHdl.Levels

/-! ## Waiting and levels -/

/-- How many of the given gates are not done. -/
def waiting (done ds : List GateId) : Nat := ds.countP (· ∉ done)

theorem waiting_eq_zero {done ds : List GateId} : waiting done ds = 0 ↔ ∀ d ∈ ds, d ∈ done := by
  simp [waiting, List.countP_eq_zero]

theorem waiting_nil (ds : List GateId) : waiting [] ds = ds.length := by
  simp [waiting]

/-- Who waits for a gate waits for one less once the gate is done. -/
theorem waiting_append {done ds : List GateId} {g : GateId} (hds : ds.Nodup) (hg : g ∉ done) :
    waiting done ds = waiting (done ++ [g]) ds + if g ∈ ds then 1 else 0 := by
  induction ds with
  | nil => rfl
  | cons d rest ih =>
    obtain ⟨hd, hrest⟩ := List.nodup_cons.1 hds
    simp only [waiting] at ih ⊢
    rw [List.countP_cons, List.countP_cons, ih hrest]
    by_cases hgd : g = d
    · subst hgd
      simp [hg, hd]
    · simp [hgd, Ne.symm hgd]
      omega

/-- The level in a table; 0 for a gate without one. -/
abbrev levelOf (level : Array (Option Nat)) (g : GateId) : Nat := (level.getD g none).getD 0

/-- The level of a gate that reads the given gates. -/
def levelOver (level : GateId → Nat) : List GateId → Nat
  | [] => 1
  | d :: rest => max (level d + 1) (levelOver level rest)

theorem levelOver_congr {level level' : GateId → Nat} {ds : List GateId}
    (h : ∀ d ∈ ds, level d = level' d) : levelOver level ds = levelOver level' ds := by
  induction ds with
  | nil => rfl
  | cons d rest ih =>
    rw [levelOver, levelOver, h d List.mem_cons_self, ih fun x hx => h x (List.mem_cons_of_mem d hx)]

theorem levelOver_pos (level : GateId → Nat) (ds : List GateId) : 0 < levelOver level ds := by
  cases ds with
  | nil => exact Nat.one_pos
  | cons d rest =>
    rw [levelOver]
    omega

/-- A gate lies at the bottom or right above a gate that it reads. -/
theorem levelOver_eq (level : GateId → Nat) (ds : List GateId) :
    levelOver level ds = 1 ∨ ∃ d ∈ ds, levelOver level ds = level d + 1 := by
  induction ds with
  | nil => exact .inl rfl
  | cons d rest ih =>
    rw [levelOver]
    rcases Nat.le_total (level d + 1) (levelOver level rest) with hle | hle
    · rw [Nat.max_eq_right hle]
      refine ih.imp id ?_
      rintro ⟨e, he, heq⟩
      exact ⟨e, List.mem_cons_of_mem d he, heq⟩
    · rw [Nat.max_eq_left hle]
      exact .inr ⟨d, List.mem_cons_self, rfl⟩

/-- A gate lies above every gate that it reads. -/
theorem lt_levelOver {level : GateId → Nat} {ds : List GateId} {d : GateId} (h : d ∈ ds) :
    level d < levelOver level ds := by
  induction ds with
  | nil => exact nomatch h
  | cons e rest ih =>
    rw [levelOver]
    rcases List.mem_cons.1 h with rfl | h
    · omega
    · have := ih h
      omega

theorem levelAfter_ok {level : Array (Option Nat)} {ds : List GateId}
    (hlt : ∀ d ∈ ds, d < level.size) :
    levelAfter level ds = .ok (levelOver (levelOf level) ds) := by
  induction ds with
  | nil => rfl
  | cons d rest ih =>
    have hd : Checked.get level d = .ok (level.getD d none) := by
      rw [Checked.get_eq_ok]
      simp [hlt d List.mem_cons_self]
    rw [levelAfter, hd, Except.ok_bind, ih fun x hx => hlt x (List.mem_cons_of_mem d hx)]
    rfl

/-! ## The invariant -/

/-- The gates that have been placed, in their order. -/
def Placement.done (p : Placement) : List GateId := p.queue.toList.take p.placed

/-- What holds between any two steps. `untold` are readers of the gate placed last that still
count it. -/
structure Placement.Invariant (deps : Array (List GateId)) (untold : List GateId)
    (p : Placement) : Prop where
  pending_size : p.pending.size = deps.size
  level_size : p.level.size = deps.size
  placed_le : p.placed ≤ p.queue.size
  queue_nodup : p.queue.toList.Nodup
  queue_lt : ∀ {g}, g ∈ p.queue → g < deps.size
  pending_eq : ∀ {r}, r < deps.size →
    p.pending.getD r 0 = waiting p.done (depsOf deps r) + if r ∈ untold then 1 else 0
  mem_queue : ∀ {r}, r < deps.size → (r ∈ p.queue ↔ p.pending.getD r 0 = 0)
  isSome_level : ∀ {g}, (p.level.getD g none).isSome ↔ g ∈ p.done
  level_eq : ∀ {g}, g ∈ p.done →
    p.level.getD g none = some (levelOver (levelOf p.level) (depsOf deps g))
  dep_done : ∀ {g d}, g ∈ p.done → d ∈ depsOf deps g → d ∈ p.done

variable {deps : Array (List GateId)} {readers : Array (Array GateId)}

theorem getD_modify {α : Type} {xs : Array α} {i : Nat} (hi : i < xs.size) (a d : α) (k : Nat) :
    (xs.modify i fun _ => a).getD k d = if k = i then a else xs.getD k d := by
  rw [Array.getD_eq_getD_getElem?, Array.getD_eq_getD_getElem?, Checked.getElem?_modify_const hi]
  split <;> rfl

namespace Placement.Invariant

variable {p : Placement} {untold : List GateId}

/-- Nothing has been placed at the start. -/
theorem start : (Placement.start deps).Invariant deps [] where
  pending_size := by simp [Placement.start]
  level_size := by simp [Placement.start]
  placed_le := Nat.zero_le _
  queue_nodup := by
    simp only [Placement.start, Array.toList_filter, Array.toList_range]
    exact List.nodup_range.filter _
  queue_lt hg := by
    simp only [Placement.start, Array.mem_filter, Array.mem_range] at hg
    exact hg.1
  pending_eq {r} hr := by
    simp [Placement.start, Placement.done, waiting_nil, depsOf, hr]
  mem_queue {r} hr := by
    rw [Placement.start, Array.mem_filter, Array.mem_range]
    simp [hr]
  isSome_level {g} := by
    simp only [Placement.start, Placement.done, List.take_zero, List.not_mem_nil, iff_false]
    by_cases hg : g < deps.size <;> simp [hg]
  level_eq hg := by simp [Placement.done, Placement.start] at hg
  dep_done hg := by simp [Placement.done, Placement.start] at hg

/-- Telling a reader takes it off the list. If it waits for no other gate, it enters the queue. -/
theorem tell (p' : Placement) {r : GateId} (hp : p.Invariant deps (r :: untold))
    (hr : r < deps.size) (hfresh : r ∉ untold) {left : Nat}
    (hleft : left = waiting p.done (depsOf deps r)) (hplaced : p'.placed = p.placed)
    (hlevel : p'.level = p.level) (hpending : p'.pending = p.pending.modify r fun _ => left)
    (hqueue : p'.queue = if left = 0 then p.queue.push r else p.queue) :
    p'.Invariant deps untold ∧ p'.done = p.done := by
  have hbefore : p.pending.getD r 0 = left + 1 := by
    rw [hp.pending_eq hr, hleft]
    simp
  have hafter : ∀ k, p'.pending.getD k 0 = if k = r then left else p.pending.getD k 0 := by
    intro k
    rw [hpending, getD_modify (hp.pending_size ▸ hr)]
  have hout : r ∉ p.queue := by
    rw [hp.mem_queue hr, hbefore]
    omega
  have hin : ∀ k, k ∈ p'.queue ↔ k ∈ p.queue ∨ left = 0 ∧ k = r := by
    intro k
    rw [hqueue]
    split <;> simp_all
  have hdone : p'.done = p.done := by
    rw [Placement.done, hplaced, hqueue]
    split
    · rw [Array.toList_push, List.take_append_of_le_length (by simpa using hp.placed_le)]
      rfl
    · rfl
  refine ⟨?_, hdone⟩
  constructor
  case pending_size => simpa [hpending] using hp.pending_size
  case level_size => rw [hlevel, hp.level_size]
  case placed_le =>
    have := hp.placed_le
    rw [hplaced, hqueue]
    split
    · rw [Array.size_push]
      omega
    · exact this
  case queue_nodup =>
    rw [hqueue]
    split
    · rw [Array.toList_push, List.nodup_append]
      refine ⟨hp.queue_nodup, List.nodup_singleton r, fun a ha b hb heq => hout ?_⟩
      rw [← List.mem_singleton.1 hb, ← heq]
      exact Array.mem_toList_iff.1 ha
    · exact hp.queue_nodup
  case queue_lt =>
    intro g hg
    rcases (hin g).1 hg with hg | ⟨-, rfl⟩
    · exact hp.queue_lt hg
    · exact hr
  case pending_eq =>
    intro k hk
    rw [hafter, hdone]
    by_cases hkr : k = r
    · subst hkr
      simp [hleft, hfresh]
    · rw [if_neg hkr, hp.pending_eq hk]
      simp [hkr]
  case mem_queue =>
    intro k hk
    rw [hin, hafter]
    by_cases hkr : k = r
    · subst hkr
      simp [hout]
    · simp [hkr, hp.mem_queue hk]
  case isSome_level => rw [hlevel, hdone]; exact hp.isSome_level
  case level_eq => rw [hlevel, hdone]; exact hp.level_eq
  case dep_done => rw [hdone]; exact hp.dep_done

end Placement.Invariant

/-- Telling all readers on the list never fails. -/
theorem Placement.release_ok {p : Placement} {untold : List GateId}
    (hp : p.Invariant deps untold) (hlt : ∀ r ∈ untold, r < deps.size) (hnodup : untold.Nodup) :
    ∃ p', p.release untold = .ok p' ∧ p'.Invariant deps [] ∧ p'.done = p.done ∧
      p'.placed = p.placed := by
  induction untold generalizing p with
  | nil => exact ⟨p, rfl, hp, rfl, rfl⟩
  | cons r rest ih =>
    obtain ⟨hfresh, hrest⟩ := List.nodup_cons.1 hnodup
    have hr : r < deps.size := hlt r List.mem_cons_self
    let left := waiting p.done (depsOf deps r)
    have hget : Checked.get p.pending r = .ok (left + 1) := by
      have hsize : r < p.pending.size := hp.pending_size ▸ hr
      have hpending := hp.pending_eq hr
      rw [Checked.get_eq_ok]
      simpa [hsize, left] using hpending
    let p' : Placement :=
      { p with pending := p.pending.modify r fun _ => left
               queue := if left = 0 then p.queue.push r else p.queue }
    obtain ⟨htold, hdone⟩ := Placement.Invariant.tell p' hp hr hfresh rfl rfl rfl rfl rfl
    obtain ⟨p'', hok, hinv, hdone', hplaced⟩ :=
      ih htold (fun k hk => hlt k (List.mem_cons_of_mem r hk)) hrest
    refine ⟨p'', ?_, hinv, hdone'.trans hdone, hplaced⟩
    rw [Placement.release, hget, Except.ok_bind, Checked.pred_ok (Nat.succ_pos _), Except.ok_bind,
      Checked.set_ok (hp.pending_size ▸ hr), Except.ok_bind]
    exact hok

/-! ## One step and all steps -/

/-- Placing the next gate of the queue. All its readers are still to be told. -/
theorem Placement.Invariant.place {p : Placement} {g : GateId} (htables : Tables deps readers)
    (hp : p.Invariant deps []) (hg : p.queue[p.placed]? = some g) :
    let l := levelOver (levelOf p.level) (depsOf deps g)
    ({ p with level := p.level.modify g fun _ => some l, placed := p.placed + 1 } :
      Placement).Invariant deps (readersOf readers g) := by
  intro l
  have hdone : Placement.done { p with level := p.level.modify g fun _ => some l
                                       placed := p.placed + 1 } = p.done ++ [g] := by
    simp only [Placement.done]
    rw [List.take_add_one, Array.getElem?_toList, hg]
    rfl
  have hlt : g < deps.size := hp.queue_lt (Array.mem_of_getElem? hg)
  have hnew : g ∉ p.done := by
    have hnodup : (p.done ++ [g]).Nodup := by
      rw [← hdone]
      exact hp.queue_nodup.sublist (List.take_sublist _ _)
    exact fun hin => (List.nodup_append.1 hnodup).2.2 g hin g (List.mem_singleton_self g) rfl
  have hdeps : ∀ d ∈ depsOf deps g, d ∈ p.done := by
    rw [← waiting_eq_zero]
    have hzero := (hp.mem_queue hlt).1 (Array.mem_of_getElem? hg)
    rw [hp.pending_eq hlt] at hzero
    exact (Nat.add_eq_zero_iff.1 hzero).1
  have hlevel : ∀ k, (p.level.modify g fun _ => some l).getD k none =
      if k = g then some l else p.level.getD k none :=
    getD_modify (hp.level_size ▸ hlt) _ _
  -- The levels of placed gates stay, so the levels above them do.
  have hover : ∀ ds, (∀ d ∈ ds, d ∈ p.done) →
      levelOver (levelOf (p.level.modify g fun _ => some l)) ds = levelOver (levelOf p.level) ds := by
    intro ds hds
    refine levelOver_congr fun d hd => ?_
    have hne : d ≠ g := fun heq => hnew (heq ▸ hds d hd)
    simp only [levelOf, hlevel, if_neg hne]
  constructor
  case pending_size => exact hp.pending_size
  case level_size => simpa using hp.level_size
  case placed_le =>
    have := (Array.getElem?_eq_some_iff.1 hg).1
    exact this
  case queue_nodup => exact hp.queue_nodup
  case queue_lt => exact hp.queue_lt
  case pending_eq =>
    intro r hr
    have hpending := hp.pending_eq hr
    rw [waiting_append (htables.dep_nodup r) hnew] at hpending
    simp only [hdone, htables.mem_reader]
    simpa using hpending
  case mem_queue => exact hp.mem_queue
  case isSome_level =>
    intro k
    simp only [hlevel, hdone, List.mem_append, List.mem_singleton, ← hp.isSome_level]
    by_cases hk : k = g <;> simp [hk]
  case level_eq =>
    intro k hk
    simp only [hdone, List.mem_append, List.mem_singleton] at hk
    simp only [hlevel]
    rcases hk with hk | rfl
    · have hne : k ≠ g := fun heq => hnew (heq ▸ hk)
      rw [if_neg hne, hover _ fun d hd => hp.dep_done hk hd, hp.level_eq hk]
    · rw [if_pos rfl, hover _ hdeps]
  case dep_done =>
    intro k d hk hd
    simp only [hdone, List.mem_append, List.mem_singleton] at hk ⊢
    rcases hk with hk | rfl
    · exact .inl (hp.dep_done hk hd)
    · exact .inl (hdeps d hd)

/-- Placing never fails, and it goes on until the queue is empty or the steps are used up. -/
theorem Placement.run_ok {p : Placement} (htables : Tables deps readers)
    (hp : p.Invariant deps []) (steps : Nat) :
    ∃ p', Placement.run deps readers steps p = .ok p' ∧ p'.Invariant deps [] ∧
      (p'.placed = p'.queue.size ∨ p'.placed = p.placed + steps) := by
  induction steps generalizing p with
  | zero => exact ⟨p, rfl, hp, .inr rfl⟩
  | succ steps ih =>
    cases hg : p.queue[p.placed]? with
    | none =>
      refine ⟨p, ?_, hp, .inl ?_⟩
      · rw [Placement.run, hg]
      · have := Array.getElem?_eq_none_iff.1 hg
        have := hp.placed_le
        omega
    | some g =>
      have hlt : g < deps.size := hp.queue_lt (Array.mem_of_getElem? hg)
      obtain ⟨next, hrelease, hnext, -, hplaced⟩ := Placement.release_ok (hp.place htables hg)
        (fun r hr => htables.reader_lt hr) (htables.reader_nodup g)
      obtain ⟨p', hok, hinv, hend⟩ := ih hnext
      refine ⟨p', ?_, hinv, ?_⟩
      · have hdeps : Checked.get deps g = .ok (depsOf deps g) := by
          rw [Checked.get_eq_ok]
          simp [depsOf, hlt]
        have hreaders : Checked.get readers g = .ok (readers.getD g #[]) := by
          have hlt' : g < readers.size := htables.size_eq ▸ hlt
          rw [Checked.get_eq_ok]
          simp [hlt']
        have hlevels : ∀ d ∈ depsOf deps g, d < p.level.size := fun d hd =>
          hp.level_size ▸ htables.dep_lt hd
        rw [Placement.run, hg]
        simp only [hdeps, Except.ok_bind, levelAfter_ok hlevels, hreaders,
          Checked.set_ok (hp.level_size ▸ hlt)]
        rw [hrelease]
        exact hok
      · have : next.placed = p.placed + 1 := hplaced
        omega

/-! ## At the end -/

namespace Placement.Invariant

variable {p : Placement}

theorem queue_subperm (hp : p.Invariant deps []) : p.queue.toList.Subperm (List.range deps.size) :=
  List.subperm_of_subset hp.queue_nodup fun _ hg =>
    List.mem_range.2 (hp.queue_lt (Array.mem_toList_iff.1 hg))

theorem queue_size_le (hp : p.Invariant deps []) : p.queue.size ≤ deps.size := by
  simpa using hp.queue_subperm.length_le

/-- With the queue used up, every gate of it has been placed. -/
theorem mem_done_iff (hend : p.placed = p.queue.size) {g : GateId} :
    g ∈ p.done ↔ g ∈ p.queue := by
  rw [Placement.done, hend, ← Array.length_toList, List.take_length, Array.mem_toList_iff]

/-- A gate that was left out reads a gate that was left out. -/
theorem exists_unplaced (hp : p.Invariant deps []) (hend : p.placed = p.queue.size) {g : GateId}
    (hg : g < deps.size) (hout : g ∉ p.queue) : ∃ d ∈ depsOf deps g, d ∉ p.queue := by
  by_contra hall
  push Not at hall
  refine hout ((hp.mem_queue hg).2 ?_)
  rw [hp.pending_eq hg, waiting_eq_zero.2 fun d hd => (mem_done_iff hend).2 (hall d hd)]
  rfl

/-- If the gates can be ranked above the gates they read, none is left out. -/
theorem all_placed (hp : p.Invariant deps []) (hend : p.placed = p.queue.size)
    (hdeps : ∀ {g d}, d ∈ depsOf deps g → d < deps.size) {rank : GateId → Nat}
    (hrank : ∀ {g d}, d ∈ depsOf deps g → rank d < rank g) {g : GateId} (hg : g < deps.size) :
    g ∈ p.queue := by
  induction hr : rank g using Nat.strongRecOn generalizing g with
  | ind r ih =>
    subst hr
    by_contra hout
    obtain ⟨d, hd, hdout⟩ := hp.exists_unplaced hend hg hout
    exact hdout (ih (rank d) (hrank hd) (hdeps hd) rfl)

/-- A queue as long as the table holds every gate. -/
theorem mem_queue_of_size (hp : p.Invariant deps []) (hsize : ¬p.queue.size < deps.size)
    {g : GateId} (hg : g < deps.size) : g ∈ p.queue := by
  have hperm : p.queue.toList.Perm (List.range deps.size) :=
    hp.queue_subperm.perm_of_length_le (by simpa using hsize)
  exact Array.mem_toList_iff.1 (hperm.mem_iff.2 (List.mem_range.2 hg))

/-- Only a queue as long as the table holds every gate. -/
theorem size_le_of_all {p : Placement} (hall : ∀ g < deps.size, g ∈ p.queue) :
    deps.size ≤ p.queue.size := by
  have hsub : List.range deps.size ⊆ p.queue.toList := fun g hg =>
    Array.mem_toList_iff.2 (hall g (List.mem_range.1 hg))
  simpa using (List.subperm_of_subset List.nodup_range hsub).length_le

end Placement.Invariant

end NandHdl.Levels
