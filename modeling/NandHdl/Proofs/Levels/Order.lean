-- SUMMARY: When a netlist has levels and what they are: they are as low as they can be (`levelize_leveled`), levelized netlists are sorted (`levelize_sorted`), and a netlist whose gates can be ranked has levels (`levelize_ok`).
import NandHdl.Proofs.Levels.Placement

/-!
# Order of levels

A netlist has levels exactly if it is well formed and its gates can be ranked above the gates they
read. The levels then list every gate once, and no gate comes before a gate that it reads.
-/

namespace NandHdl

namespace Levels

/-! ## Grouping -/

/-- The gates below `count` at level `k + 1`. -/
def gatesAt (level : GateId → Nat) (count k : Nat) : List GateId :=
  (List.range count).filter fun g => level g = k + 1

/-- All gates below `count`, level by level. -/
def byLevel (level : GateId → Nat) (count depth : Nat) : List GateId :=
  (List.range depth).flatMap (gatesAt level count)

variable {level : GateId → Nat} {count depth : Nat}

theorem mem_gatesAt {k g : Nat} : g ∈ gatesAt level count k ↔ g < count ∧ level g = k + 1 := by
  simp [gatesAt]

theorem mem_byLevel (hlevel : ∀ g < count, 0 < level g ∧ level g ≤ depth) {g : GateId} :
    g ∈ byLevel level count depth ↔ g < count := by
  simp only [byLevel, List.mem_flatMap, List.mem_range, mem_gatesAt]
  constructor
  · exact fun ⟨_, _, hg, _⟩ => hg
  · intro hg
    obtain ⟨hpos, hle⟩ := hlevel g hg
    exact ⟨level g - 1, by omega, hg, by omega⟩

theorem byLevel_nodup : (byLevel level count depth).Nodup := by
  rw [byLevel, List.nodup_flatMap]
  refine ⟨fun k _ => List.nodup_range.filter _, ?_⟩
  refine List.nodup_range.imp fun {j k} hjk => ?_
  intro g hj hk
  rw [mem_gatesAt] at hj hk
  omega

/-- Every gate is listed once. -/
theorem byLevel_perm (hlevel : ∀ g < count, 0 < level g ∧ level g ≤ depth) :
    (byLevel level count depth).Perm (List.range count) :=
  (List.perm_ext_iff_of_nodup byLevel_nodup List.nodup_range).2 fun g => by
    rw [mem_byLevel hlevel, List.mem_range]

/-- Levels only rise along the list. -/
theorem byLevel_sorted : (byLevel level count depth).Pairwise fun g h => level g ≤ level h := by
  rw [byLevel, List.pairwise_flatMap]
  constructor
  · intro k _
    refine (List.nodup_range.filter _).imp_of_mem fun {g h} hg hh _ => ?_
    exact Nat.le_of_eq ((mem_gatesAt.1 hg).2.trans (mem_gatesAt.1 hh).2.symm)
  · refine List.pairwise_lt_range.imp fun {j k} hjk g hg h hh => ?_
    rw [mem_gatesAt] at hg hh
    omega

theorem group_ok (groups : Array (Array GateId)) (gs : List NandGate)
    (hlevel : ∀ g ∈ gs, ∃ l, g.level = some l ∧ 0 < l ∧ l ≤ groups.size) :
    ∃ groups', group groups gs = .ok groups' ∧ groups'.size = groups.size ∧
      ∀ k, (groups'.getD k #[]).toList = (groups.getD k #[]).toList ++
        (gs.filter fun g => g.level = some (k + 1)).map NandGate.id := by
  induction gs generalizing groups with
  | nil => exact ⟨groups, rfl, rfl, by simp⟩
  | cons g rest ih =>
    obtain ⟨l, hl, hpos, hle⟩ := hlevel g List.mem_cons_self
    have hlt : l - 1 < groups.size := by omega
    obtain ⟨groups', hok, hsize, hgroups⟩ := ih (groups.modify (l - 1) (·.push g.id))
      fun k hk => by simpa using hlevel k (List.mem_cons_of_mem g hk)
    refine ⟨groups', ?_, by simpa using hsize, fun k => ?_⟩
    · rw [group, hl]
      simp only [Checked.pred_ok hpos, Except.ok_bind, Checked.modify_ok hlt]
      exact hok
    · rw [hgroups]
      simp only [Array.getD_eq_getD_getElem?, Array.getElem?_modify]
      by_cases hk : l - 1 = k
      · subst hk
        have hl' : g.level = some (l - 1 + 1) := by rw [hl]; congr; omega
        simp [hlt, hl']
      · have hl' : g.level ≠ some (k + 1) := by
          rw [hl]
          simp only [ne_eq, Option.some.injEq]
          omega
        simp [hk, hl']

theorem le_foldl_max (ls : List (Option Nat)) (d : Nat) :
    d ≤ ls.foldl (fun d l => max d (l.getD 0)) d ∧
      ∀ l, some l ∈ ls → l ≤ ls.foldl (fun d l => max d (l.getD 0)) d := by
  induction ls generalizing d with
  | nil => simp
  | cons l rest ih =>
    obtain ⟨hd, hrest⟩ := ih (max d (l.getD 0))
    simp only [List.foldl_cons, List.mem_cons]
    refine ⟨by omega, fun k hk => ?_⟩
    rcases hk with rfl | hk
    · simp only [Option.getD_some] at hd
      exact Nat.le_trans (Nat.le_max_right _ _) hd
    · exact hrest k hk

theorem le_depth {table : Array (Option Nat)} {l : Nat} (h : some l ∈ table) :
    l ≤ Levels.depth table := by
  rw [Levels.depth, ← Array.foldl_toList]
  exact (le_foldl_max _ _).2 l (Array.mem_toList_iff.2 h)

theorem foldl_max_mem (ls : List (Option Nat)) (d : Nat) :
    ls.foldl (fun d l => max d (l.getD 0)) d = d ∨
      some (ls.foldl (fun d l => max d (l.getD 0)) d) ∈ ls := by
  induction ls generalizing d with
  | nil => exact .inl rfl
  | cons l rest ih =>
    rw [List.foldl_cons]
    rcases ih (max d (l.getD 0)) with heq | hmem
    · rw [heq]
      cases l with
      | none => exact .inl (Nat.max_zero d)
      | some k =>
        rw [Option.getD_some]
        rcases Nat.le_total k d with hle | hle
        · exact .inl (Nat.max_eq_left hle)
        · exact .inr (by rw [Nat.max_eq_right hle]; exact List.mem_cons_self)
    · exact .inr (List.mem_cons_of_mem l hmem)

/-- The depth is a level of the table, if the table has any. -/
theorem depth_mem (table : Array (Option Nat)) :
    Levels.depth table = 0 ∨ some (Levels.depth table) ∈ table := by
  rw [Levels.depth, ← Array.foldl_toList, ← Array.mem_toList_iff]
  exact foldl_max_mem _ _

end Levels

/-! ## Levels of a netlist -/

/-- The netlist with the given levels. -/
def Netlist.withLevels (n : Netlist) (level : GateId → Nat) : Netlist :=
  { n with gates := n.gates.mapIdx fun i g => { g with level := some (level i) } }

namespace Levels

variable {n : Netlist} {level : GateId → Nat}

theorem gates_withLevels (hn : n.Numbered) : (n.withLevels level).gates.toList =
    n.gates.toList.map fun g => { g with level := some (level g.id) } := by
  apply List.ext_getElem?
  intro i
  simp only [Netlist.withLevels, Array.getElem?_toList, Array.getElem?_mapIdx, List.getElem?_map]
  cases hi : n.gates[i]? with
  | none => rfl
  | some g => simp [hn.gate hi]

theorem zipWith_levels {table : Array (Option Nat)} (hsize : table.size = n.gates.size)
    (hentry : ∀ g (hg : g < n.gates.size), table[g] = some (level g)) :
    n.gates.zipWith (fun g l => { g with level := l }) table = (n.withLevels level).gates := by
  apply Array.ext
  · simp [Netlist.withLevels, hsize]
  · intro i hi hi'
    have hlt : i < n.gates.size := by simpa [Netlist.withLevels] using hi'
    simp [Netlist.withLevels, hentry i hlt]

/-- The gates are grouped by their levels. -/
theorem group_withLevels_ok (hn : n.Numbered) {depth : Nat}
    (hlevel : ∀ g < n.gates.size, 0 < level g ∧ level g ≤ depth) :
    ∃ groups, group (Array.replicate depth #[]) (n.withLevels level).gates.toList = .ok groups ∧
      groups.toList.map Array.toList = (List.range depth).map (gatesAt level n.gates.size) := by
  obtain ⟨groups, hok, hsize, hgroups⟩ := group_ok (Array.replicate depth #[])
    (n.withLevels level).gates.toList (by
      rw [gates_withLevels hn]
      intro g hg
      obtain ⟨g', hg', rfl⟩ := List.mem_map.1 hg
      have hlt : g'.id < n.gates.size := by
        rw [← List.mem_range, ← hn.gate_ids]
        exact List.mem_map_of_mem hg'
      exact ⟨_, rfl, (hlevel _ hlt).1, by simpa using (hlevel _ hlt).2⟩)
  refine ⟨groups, hok, List.ext_getElem? fun k => ?_⟩
  have hk : (groups.getD k #[]).toList = gatesAt level n.gates.size k := by
    rw [hgroups k, gates_withLevels hn, gatesAt, ← hn.gate_ids, List.filter_map, List.filter_map,
      List.map_map]
    by_cases hk : k < depth <;> simp [hk, Function.comp_def]
  by_cases hlt : k < depth
  · have hgk : k < groups.size := by simpa [hsize] using hlt
    simpa [hlt, hgk] using hk
  · have hgk : ¬k < groups.size := by simpa [hsize] using hlt
    simp [hlt, hgk]

theorem assign_ok (hn : n.Numbered) {table : Array (Option Nat)} (hsize : table.size = n.gates.size)
    (htable : ∀ g < n.gates.size, table.getD g none = some (level g))
    (hpos : ∀ g < n.gates.size, 0 < level g) :
    ∃ l, assign n table = .ok l ∧ l.netlist = n.withLevels level ∧
      l.levels.toList.map Array.toList =
        (List.range (Levels.depth table)).map (gatesAt level n.gates.size) ∧
      ∀ g < n.gates.size, level g ≤ Levels.depth table := by
  have hentry : ∀ g (hg : g < n.gates.size), table[g] = some (level g) := by
    intro g hg
    simpa [hsize, hg] using htable g hg
  have hdepth : ∀ g < n.gates.size, level g ≤ Levels.depth table := fun g hg =>
    le_depth (hentry g hg ▸ Array.getElem_mem _)
  obtain ⟨groups, hok, hgroups⟩ := group_withLevels_ok hn fun g hg => ⟨hpos g hg, hdepth g hg⟩
  refine ⟨⟨n.withLevels level, groups⟩, ?_, rfl, hgroups, hdepth⟩
  rw [assign, zipWith_levels hsize hentry]
  simp only [hok, Except.ok_bind]
  rfl

end Levels

/-! ## Levelized netlists -/

/-- The gates of a levelized netlist in the order in which they are computed. -/
def LevelizedNetlist.order (l : LevelizedNetlist) : List GateId :=
  (l.levels.toList.map Array.toList).flatten

/-- The netlist `l` has the gates of `n` with the given levels, sorted by level, and each gate lies
above the gates that it reads. -/
structure LevelizedNetlist.Sorted (l : LevelizedNetlist) (n : Netlist) (level : GateId → Nat) :
    Prop where
  netlist_eq : l.netlist = n.withLevels level
  level_lt : ∀ {g d}, n.Feeds d g → level d < level g
  level_pos : ∀ g < n.gates.size, 0 < level g
  order_perm : l.order.Perm (List.range n.gates.size)
  order_sorted : l.order.Pairwise fun g h => level g ≤ level h

/-- The netlist `l` has the gates of `n` with the given levels and lists them level by level. Each
gate lies above the gates that it reads, and no higher than it has to. -/
structure LevelizedNetlist.Leveled (l : LevelizedNetlist) (n : Netlist) (level : GateId → Nat) :
    Prop where
  netlist_eq : l.netlist = n.withLevels level
  lists_eq : l.levels.toList.map Array.toList =
    (List.range l.depth).map (Levels.gatesAt level n.gates.size)
  level_lt : ∀ {g d}, n.Feeds d g → level d < level g
  level_eq : ∀ g < n.gates.size, level g = 1 ∨ ∃ d, n.Feeds d g ∧ level g = level d + 1
  level_le : ∀ g < n.gates.size, level g ≤ l.depth
  depth_eq : l.depth = 0 ∨ ∃ g < n.gates.size, level g = l.depth

namespace LevelizedNetlist.Leveled

variable {l : LevelizedNetlist} {n : Netlist} {level : GateId → Nat}

theorem level_pos (h : l.Leveled n level) {g : GateId} (hg : g < n.gates.size) : 0 < level g := by
  rcases h.level_eq g hg with heq | ⟨d, -, heq⟩
  · omega
  · omega

theorem sorted (h : l.Leveled n level) : l.Sorted n level := by
  have hbyLevel : l.order = Levels.byLevel level n.gates.size l.depth := by
    rw [LevelizedNetlist.order, h.lists_eq, Levels.byLevel, List.flatMap_def]
  refine ⟨h.netlist_eq, h.level_lt, fun g hg => h.level_pos hg, ?_, ?_⟩
  · rw [hbyLevel]
    exact Levels.byLevel_perm fun g hg => ⟨h.level_pos hg, h.level_le g hg⟩
  · rw [hbyLevel]
    exact Levels.byLevel_sorted

end LevelizedNetlist.Leveled

namespace Levels

variable {n : Netlist}

/-- A well-formed netlist is taken through the queue to its end. It has a cycle if gates are left
out, and levels otherwise. -/
theorem order_eq (hw : n.Wellformed) (hn : n.Numbered) :
    ∃ (deps : Array (List GateId)) (p : Placement), deps.size = n.gates.size ∧
      (∀ {g d}, d ∈ depsOf deps g ↔ n.Feeds d g) ∧
      p.Invariant deps [] ∧ p.placed = p.queue.size ∧
      order n = if p.queue.size < n.gates.size then do return .error (← findCycle n deps p.level)
        else do return .ok (← assign n p.level) := by
  obtain ⟨deps, hdeps, hsize, hnodup, hmem⟩ := dependencies_ok hw hn
  have hlt : ∀ {g d}, d ∈ depsOf deps g → d < deps.size := fun hd => hsize ▸ ((hmem _ _).1 hd).lt
  obtain ⟨table, hreaders, htables⟩ := readers_ok hn hsize hlt hnodup
  obtain ⟨p, hrun, hinv, hend⟩ :=
    Placement.run_ok htables Placement.Invariant.start n.gates.size
  refine ⟨deps, p, hsize, fun {g d} => hmem g d, hinv, ?_, ?_⟩
  · have hplaced := hinv.placed_le
    have hqueue := hinv.queue_size_le
    have hstart : (Placement.start deps).placed = 0 := rfl
    omega
  · rw [order, hdeps, Except.ok_bind, hreaders, Except.ok_bind, hrun]
    rfl

/-- If no gate was left out, the netlist gets its levels. -/
theorem assign_leveled (hn : n.Numbered) {deps : Array (List GateId)} {p : Placement}
    (hsize : deps.size = n.gates.size) (hmem : ∀ {g d}, d ∈ depsOf deps g ↔ n.Feeds d g)
    (hinv : p.Invariant deps []) (hend : p.placed = p.queue.size)
    (hall : ∀ g < n.gates.size, g ∈ p.queue) :
    ∃ l, assign n p.level = .ok l ∧ l.Leveled n (levelOf p.level) := by
  have hlevel : ∀ g < n.gates.size, p.level.getD g none =
      some (levelOver (levelOf p.level) (depsOf deps g)) := fun g hg =>
    hinv.level_eq ((Placement.Invariant.mem_done_iff hend).2 (hall g hg))
  have hlevelOf : ∀ g < n.gates.size,
      levelOf p.level g = levelOver (levelOf p.level) (depsOf deps g) := fun g hg => by
    rw [levelOf, hlevel g hg, Option.getD_some]
  have hpos : ∀ g < n.gates.size, 0 < levelOf p.level g := fun g hg =>
    hlevelOf g hg ▸ levelOver_pos _ _
  obtain ⟨l, hassign, hnetlist, hlevels, hle⟩ := @assign_ok _ (levelOf p.level) hn _
    (hinv.level_size.trans hsize) (fun g hg => by rw [hlevelOf g hg, hlevel g hg]) hpos
  have hdepth : l.depth = Levels.depth p.level := by
    simpa [LevelizedNetlist.depth] using congrArg List.length hlevels
  refine ⟨l, hassign, ?_⟩
  constructor
  case netlist_eq => exact hnetlist
  case lists_eq => rw [hdepth, hlevels]
  case level_lt =>
    intro g d hfeeds
    have hd := hmem.2 hfeeds
    rw [hlevelOf g (hsize ▸ lt_of_mem_depsOf hd)]
    exact lt_levelOver hd
  case level_eq =>
    intro g hg
    rw [hlevelOf g hg]
    refine (levelOver_eq _ _).imp id ?_
    rintro ⟨d, hd, heq⟩
    exact ⟨d, hmem.1 hd, heq⟩
  case level_le =>
    rw [hdepth]
    exact hle
  case depth_eq =>
    rw [hdepth]
    refine (depth_mem p.level).imp id fun hmax => ?_
    obtain ⟨g, hg⟩ := Array.getElem?_of_mem hmax
    have hlt : g < p.level.size := (Array.getElem?_eq_some_iff.1 hg).1
    refine ⟨g, hsize ▸ hinv.level_size ▸ hlt, ?_⟩
    rw [levelOf, Array.getD_eq_getD_getElem?, hg]
    rfl

/-- A well-formed netlist gets levels, or gates are left out and a cycle is looked for. -/
theorem levelize_cases (hw : n.Wellformed) (hn : n.Numbered) :
    (∃ l level, levelize n = .ok l ∧ l.Leveled n level) ∨
      ∃ (deps : Array (List GateId)) (p : Placement), deps.size = n.gates.size ∧
        (∀ {g d}, d ∈ depsOf deps g ↔ n.Feeds d g) ∧
        p.Invariant deps [] ∧ p.placed = p.queue.size ∧ p.queue.size < deps.size ∧
        levelize n = match findCycle n deps p.level with
          | .error f => .error (.fault f)
          | .ok signals => .error (.combinationalCycle signals) := by
  obtain ⟨deps, p, hsize, hmem, hinv, hend, horder⟩ := order_eq hw hn
  by_cases hleft : p.queue.size < n.gates.size
  · refine .inr ⟨deps, p, hsize, hmem, hinv, hend, hsize ▸ hleft, ?_⟩
    simp only [levelize, Netlist.validate_eq_ok.2 hw, horder, if_pos hleft]
    cases findCycle n deps p.level with
    | error f => rfl
    | ok signals => rfl
  · obtain ⟨l, hassign, hleveled⟩ := assign_leveled hn hsize hmem hinv hend fun g hg =>
      hinv.mem_queue_of_size (hsize ▸ hleft) (hsize ▸ hg)
    refine .inl ⟨l, _, ?_, hleveled⟩
    simp only [levelize, Netlist.validate_eq_ok.2 hw, horder, if_neg hleft, hassign]
    rfl

end Levels

/-- Whatever gets levels is well formed, and the levels are as low as they can be. -/
theorem levelize_leveled {n : Netlist} {l : LevelizedNetlist} (hn : n.Numbered)
    (h : levelize n = .ok l) : n.Wellformed ∧ ∃ level, l.Leveled n level := by
  have hw : n.Wellformed := by
    rw [← Netlist.validate_eq_ok]
    unfold levelize at h
    split at h
    · exact nomatch h
    · assumption
  refine ⟨hw, ?_⟩
  rcases Levels.levelize_cases hw hn with ⟨l', level, hl, hleveled⟩ | ⟨_, _, -, -, -, -, -, heq⟩
  · rw [hl] at h
    cases h
    exact ⟨level, hleveled⟩
  · rw [heq] at h
    split at h
    · exact nomatch h
    · exact nomatch h

/-- Whatever gets levels is well formed and comes out sorted. -/
theorem levelize_sorted {n : Netlist} {l : LevelizedNetlist} (hn : n.Numbered)
    (h : levelize n = .ok l) : n.Wellformed ∧ ∃ level, l.Sorted n level := by
  obtain ⟨hw, level, hleveled⟩ := levelize_leveled hn h
  exact ⟨hw, level, hleveled.sorted⟩

open Levels in
/-- A well-formed netlist gets levels if its gates can be ranked above the gates that they read. -/
theorem levelize_ok {n : Netlist} (hw : n.Wellformed) (hn : n.Numbered) {rank : GateId → Nat}
    (hrank : ∀ {g d}, n.Feeds d g → rank d < rank g) : ∃ l, levelize n = .ok l := by
  rcases levelize_cases hw hn with ⟨l, -, hl, -⟩ | ⟨deps, p, hsize, hmem, hinv, hend, hleft, -⟩
  · exact ⟨l, hl⟩
  · have hall : ∀ g < deps.size, g ∈ p.queue := fun g hg =>
      hinv.all_placed hend (fun hd => hsize ▸ (hmem.1 hd).lt) (fun hd => hrank (hmem.1 hd)) hg
    exact absurd (Placement.Invariant.size_le_of_all hall) (Nat.not_le.2 hleft)

end NandHdl
