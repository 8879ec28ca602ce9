-- SUMMARY: Two scopes that answer alike up to a renaming (`Scope.Renamed`), except for what has the old name and is not bound yet.
import NandHdl.Proofs.Elaboration.Names
import NandHdl.Proofs.Renaming.Programs

/-!
# Scopes up to a renaming

The scopes of a body and of its renamed version answer alike for every name and member, with one
exception. What a caller has bound to the old name may be inherited on one side only, so nothing is
said of the old name and its members before the body has bound them itself. Nothing at all is said
of the new name as a name of the first scope.
-/

namespace NandHdl

/-! ## Single names -/

namespace Scope

variable {s s' : Scope} {x x' y y' : String} {bits : Bits}

/-- What `s` answers for `x` is what `s'` answers for `x'`. -/
structure Same (s s' : Scope) (x x' : String) : Prop where
  bus : s.buses[x]? = s'.buses[x']?
  scalar : s.buses[x]? = none → s.lookup? x = s'.lookup? x'
  bit : ∀ {w}, s.buses[x]? = some w → ∀ i < w,
    s.lookup? (bitName x i) = s'.lookup? (bitName x' i)

namespace Same

theorem widthOf_eq (h : s.Same s' x x') : s.widthOf x = s'.widthOf x' := by
  rw [widthOf, widthOf, Std.TreeMap.getD_eq_getD_getElem?, Std.TreeMap.getD_eq_getD_getElem?, h.bus]

theorem isBus_eq (h : s.Same s' x x') : s.isBus x = s'.isBus x' := by
  rw [isBus, isBus, Std.TreeMap.contains_eq_isSome_getElem?,
    Std.TreeMap.contains_eq_isSome_getElem?, h.bus]

theorem bits?_eq (h : s.Same s' x x') : s.bits? x = s'.bits? x' := by
  unfold bits?
  rw [← h.bus]
  split
  · next w hw =>
    apply Option.ext
    intro bits
    have hbits : (List.range w).map (fun i => s.lookup? (bitName x i)) =
        (List.range w).map fun i => s'.lookup? (bitName x' i) :=
      List.map_congr_left fun i hi => h.bit hw i (List.mem_range.1 hi)
    rw [mapM_eq_some, mapM_eq_some, hbits]
  · next hnone => rw [h.scalar hnone]

/-- Bindings of other names do not matter. -/
theorem bind_of_ne (h : s.Same s' x x') (hx : Unindexed x) (hx' : Unindexed x') (hy : Unindexed y)
    (hy' : Unindexed y') (hne : y ≠ x) (hne' : y' ≠ x') (bits bits' : Bits) :
    (s.bind y bits).Same (s'.bind y' bits') x x' := by
  obtain ⟨hbus, hsignal, hbits⟩ := Scope.bind_of_ne (s := s) hx hy hne bits
  obtain ⟨hbus', hsignal', hbits'⟩ := Scope.bind_of_ne (s := s') hx' hy' hne' bits'
  constructor
  case bus => rw [hbus, hbus', h.bus]
  case scalar =>
    intro hnone
    rw [lookup?, lookup?, hsignal, hsignal']
    exact h.scalar (hbus ▸ hnone)
  case bit =>
    intro w hw i hi
    rw [lookup?, lookup?, hbits, hbits']
    exact h.bit (hbus ▸ hw) i hi

end Same

/-- Both names are bound to the same bits. -/
theorem same_bind (hbits : bits ≠ []) :
    (s.bind x bits).Same (s'.bind x' bits) x x' := by
  have hself : (s.bind x bits).bits? x = some bits := bits?_bind_self hbits
  have hself' : (s'.bind x' bits).bits? x' = some bits := bits?_bind_self hbits
  have hbus : (s.bind x bits).buses[x]? = (s'.bind x' bits).buses[x']? := by
    rw [buses_bind_self, buses_bind_self]
  constructor
  case bus => exact hbus
  case scalar =>
    intro hnone
    rw [bits?_of_scalar hnone, Option.map_eq_some_iff] at hself
    rw [bits?_of_scalar (hbus ▸ hnone), Option.map_eq_some_iff] at hself'
    obtain ⟨id, hid, rfl⟩ := hself
    obtain ⟨id', hid', heq⟩ := hself'
    rw [hid, hid', List.cons.inj heq |>.1]
  case bit =>
    intro w hw i hi
    rw [((bits?_eq_some_of_bus hw).1 hself).2 i hi,
      ((bits?_eq_some_of_bus (hbus ▸ hw)).1 hself').2 i hi]

/-- A binding changes nothing but what names stand for. -/
theorem bind_keeps (s : Scope) (x : String) (bits : Bits) :
    (s.bind x bits).owner = s.owner ∧ (s.bind x bits).namePrefix = s.namePrefix ∧
      (s.bind x bits).ports = s.ports := by
  unfold bind
  split <;> exact ⟨rfl, rfl, rfl⟩

theorem isPort_addPort (s : Scope) (x y : String) :
    (s.addPort x).isPort y = true ↔ x = y ∨ s.isPort y = true := by
  rw [isPort, addPort, Std.TreeSet.contains_insert, Bool.or_eq_true, beq_iff_eq,
    Std.LawfulEqCmp.compare_eq_iff_eq]
  rfl

/-- What a scope answers does not depend on its other fields. -/
theorem Same.of_tables {t t' : Scope} (h : s.Same s' x x') (hbuses : t.buses = s.buses)
    (hsignals : t.signals = s.signals) (hbuses' : t'.buses = s'.buses)
    (hsignals' : t'.signals = s'.signals) : t.Same t' x x' := by
  constructor
  case bus => rw [hbuses, hbuses', h.bus]
  case scalar =>
    rw [hbuses, lookup?, lookup?, hsignals, hsignals']
    exact h.scalar
  case bit =>
    intro w
    simp only [hbuses, lookup?, hsignals, hsignals']
    exact h.bit

/-- The scope has neither the old nor the new name, nor a member of one. -/
def Clear (ρ : Renaming) (s : Scope) : Prop :=
  ∀ r : Ref, r.Plain → r.name = ρ.old ∨ r.name = ρ.new →
    s.buses[r.text]? = none ∧ s.lookup? r.text = none

theorem Clear.bind {ρ : Renaming} (h : s.Clear ρ) {b : Ref} (hb : b.Plain) (hold : b.name ≠ ρ.old)
    (hnew : b.name ≠ ρ.new) (bits : Bits) : (s.bind b.text bits).Clear ρ := by
  intro r hr hname
  have hne : b.text ≠ r.text := by
    rw [Ne, Ref.text_inj hb hr]
    rintro rfl
    exact hname.elim hold hnew
  obtain ⟨hbus, hsignal, -⟩ := Scope.bind_of_ne (s := s) hr.unindexed hb.unindexed hne bits
  rw [hbus, lookup?, hsignal]
  exact h r hr hname

/-- What neither scope has is the same in both. -/
theorem Clear.same {ρ : Renaming} (h : s.Clear ρ) (h' : s'.Clear ρ) {r r' : Ref} (hr : r.Plain)
    (hr' : r'.Plain) (hname : r.name = ρ.old ∨ r.name = ρ.new)
    (hname' : r'.name = ρ.old ∨ r'.name = ρ.new) : s.Same s' r.text r'.text := by
  obtain ⟨hbus, hsignal⟩ := h r hr hname
  obtain ⟨hbus', hsignal'⟩ := h' r' hr' hname'
  refine ⟨hbus.trans hbus'.symm, fun _ => hsignal.trans hsignal'.symm, fun hw => ?_⟩
  rw [hbus] at hw
  exact nomatch hw

end Scope

/-! ## All names -/

/-- How a body stands to a renaming. -/
structure View where
  /-- The names of the body are changed. -/
  active : Bool
  /-- The scope of the body never has the old name, nor the new one before the renaming. -/
  clear : Prop

/-- The reference may be read on both sides: it is no use of the new name, and one of the old name
has been seen. -/
structure Ref.Readable (ρ : Renaming) (seen : Ref → Prop) (r : Ref) : Prop where
  plain : r.Plain
  ne_new : r.name ≠ ρ.new
  seen : r.name = ρ.old → seen r

/-- The reference may be bound on both sides. -/
structure Ref.Bindable (ρ : Renaming) (v : View) (r : Ref) : Prop where
  plain : r.Plain
  ne_new : r.name ≠ ρ.new
  ne_old : v.clear → r.name ≠ ρ.old

/-- The reference may be read and bound on both sides. -/
structure Ref.Assignable (ρ : Renaming) (v : View) (seen : Ref → Prop) (r : Ref) : Prop
    extends r.Readable ρ seen, r.Bindable ρ v

/-- How the body of `m` stands to the renaming. -/
def Program.view (p : Program) (ρ : Renaming) (m : ModuleDecl) (active : Bool) : View :=
  { active, clear := p.StaysClear ρ m }

theorem ModuleDecl.Fits.ports {ρ : Renaming} {active : Bool} {p : Program} {m : ModuleDecl}
    (h : m.Fits ρ active p) : ∀ q ∈ m.params ++ m.outputs,
      q.ref.Bindable ρ (p.view ρ m active) ∧ ρ.name active q.name = q.name := by
  intro q hq
  have hname : q.name ∈ m.portNames := List.mem_map_of_mem hq
  obtain ⟨hplain, hnew⟩ := h.port _ hname
  refine ⟨⟨⟨hplain, nofun⟩, hnew, fun hclear heq => hclear.2 ?_⟩, h.port_name _ hname⟩
  exact List.mem_append_left _ (heq ▸ hname)

theorem ModuleDecl.Fits.bindable_target {ρ : Renaming} {active : Bool} {p : Program}
    {m : ModuleDecl} (h : m.Fits ρ active p) {s : Statement} (hs : s ∈ m.statements) :
    Ref.Bindable ρ (p.view ρ m active) { name := s.target } := by
  have hname : s.target ∈ m.targets := List.mem_map_of_mem hs
  obtain ⟨hplain, hnew⟩ := h.target _ hname
  refine ⟨⟨hplain, nofun⟩, hnew, fun hclear heq => hclear.2 ?_⟩
  exact List.mem_append_right _ (heq ▸ hname)

/-- The scope `s'` is `s` with names changed. Of what has the old name, only the references that are
`seen` are bound alike, and a port of that name is. -/
structure Scope.Renamed (ρ : Renaming) (v : View) (seen : Ref → Prop) (s s' : Scope) : Prop where
  owner : s.owner = s'.owner
  namePrefix : s.namePrefix = s'.namePrefix
  isPort_iff : ∀ x ≠ ρ.new, s.isPort x = true ↔ s'.isPort (ρ.name v.active x) = true
  seen_port : s.isPort ρ.old = true → seen { name := ρ.old }
  same : ∀ r : Ref, r.Readable ρ seen → s.Same s' r.text (ρ.ref v.active r).text
  clear : v.clear → s.Clear ρ ∧ s'.Clear ρ

namespace Scope.Renamed

variable {ρ : Renaming} {v : View} {seen : Ref → Prop} {s s' : Scope}

/-- It only matters what is seen of the old name. -/
theorem congr (h : s.Renamed ρ v seen s') {seen' : Ref → Prop}
    (hseen : ∀ r : Ref, r.name = ρ.old → (seen r ↔ seen' r)) : s.Renamed ρ v seen' s' :=
  ⟨h.owner, h.namePrefix, h.isPort_iff, fun hport => (hseen _ rfl).1 (h.seen_port hport),
    fun r hr => h.same r ⟨hr.plain, hr.ne_new, fun heq => (hseen r heq).2 (hr.seen heq)⟩, h.clear⟩

/-- The same bits are bound on both sides, and all that is seen answers alike afterwards. -/
theorem rebind (h : s.Renamed ρ v seen s') {seen' : Ref → Prop}
    (hseen : seen { name := ρ.old } → seen' { name := ρ.old }) {x x' : String} {bits : Bits}
    (hsame : ∀ r : Ref, r.Readable ρ seen' →
      (s.bind x bits).Same (s'.bind x' bits) r.text (ρ.ref v.active r).text)
    (hclear : v.clear → (s.bind x bits).Clear ρ ∧ (s'.bind x' bits).Clear ρ) :
    (s.bind x bits).Renamed ρ v seen' (s'.bind x' bits) := by
  obtain ⟨howner, hnamed, hports⟩ := s.bind_keeps x bits
  obtain ⟨howner', hnamed', hports'⟩ := s'.bind_keeps x' bits
  refine ⟨?_, ?_, fun y hy => ?_, fun hport => ?_, hsame, hclear⟩
  · rw [howner, howner', h.owner]
  · rw [hnamed, hnamed', h.namePrefix]
  · rw [Scope.isPort, Scope.isPort, hports, hports']
    exact h.isPort_iff y hy
  · rw [Scope.isPort, hports] at hport
    exact hseen (h.seen_port hport)

/-- A reference is bound on both sides, and has been seen from then on. -/
theorem bind (h : s.Renamed ρ v seen s') {b : Ref} (hb : b.Bindable ρ v) {bits : Bits}
    (hbits : bits ≠ []) :
    (s.bind b.text bits).Renamed ρ v (fun r => seen r ∨ r = b)
      (s'.bind (ρ.ref v.active b).text bits) := by
  refine h.rebind .inl (fun r hr => ?_) fun hclear => ?_
  · have hr' : (ρ.ref v.active r).Plain := Renaming.plain_ref hr.plain
    have hb' : (ρ.ref v.active b).Plain := Renaming.plain_ref hb.plain
    by_cases heq : r = b
    · subst heq
      exact same_bind hbits
    · have hsame := h.same r
        ⟨hr.plain, hr.ne_new, fun hname => (hr.seen hname).resolve_right heq⟩
      refine hsame.bind_of_ne hr.plain.unindexed hr'.unindexed hb.plain.unindexed hb'.unindexed
        ?_ ?_ _ _
      · exact fun htext => heq ((Ref.text_inj hb.plain hr.plain).1 htext).symm
      · exact fun htext =>
          heq ((Renaming.text_ref_inj hb.plain hr.plain hb.ne_new hr.ne_new).1 htext).symm
  · rw [Renaming.ref_of_ne (hb.ne_old hclear)]
    obtain ⟨hs, hs'⟩ := h.clear hclear
    exact ⟨hs.bind hb.plain (hb.ne_old hclear) hb.ne_new bits,
      hs'.bind hb.plain (hb.ne_old hclear) hb.ne_new bits⟩

/-- A constant has one name on both sides, also if it is the old or the new one, as long as nothing
of the old name is said to be seen. -/
theorem bindConstant {start : Prop} (h : s.Renamed ρ v (fun _ => start) s')
    (hv : v.clear → start) {x : String} (hx : PlainName x)
    (hstart : start → x ≠ ρ.old ∧ x ≠ ρ.new) {bits : Bits} (hbits : bits ≠ []) :
    (s.bind x bits).Renamed ρ v (fun _ => start) (s'.bind x bits) := by
  have hb : Ref.Plain { name := x } := ⟨hx, nofun⟩
  by_cases hold : x = ρ.old ∨ x = ρ.new
  · have hnot : ¬start := fun hs => hold.elim (hstart hs).1 (hstart hs).2
    refine h.rebind id (fun r hr => ?_) fun hclear => absurd (hv hclear) hnot
    have hne : r.name ≠ ρ.old := fun heq => hnot (hr.seen heq)
    have hsame := h.same r hr
    rw [Renaming.ref_of_ne hne] at hsame ⊢
    have htext : x ≠ r.text := by
      intro heq
      obtain rfl := (Ref.text_inj hb hr.plain).1 heq
      exact hold.elim hne hr.ne_new
    exact hsame.bind_of_ne hr.plain.unindexed hr.plain.unindexed hx.1 hx.1 htext htext _ _
  · rw [not_or] at hold
    have hbound := h.bind (b := { name := x }) ⟨hb, hold.2, fun _ => hold.1⟩ hbits
    rw [Renaming.ref_of_ne hold.1] at hbound
    refine hbound.congr fun r hr => or_iff_left ?_
    rintro rfl
    exact hold.1 hr

/-- A port has one name on both sides. -/
theorem addPort (h : s.Renamed ρ v seen s') {x : String} (hx : x ≠ ρ.new)
    (hkept : ρ.name v.active x = x) (hseen : seen { name := x }) :
    (s.addPort x).Renamed ρ v seen (s'.addPort x) := by
  refine ⟨h.owner, h.namePrefix, fun y hy => ?_, fun hport => ?_, fun r hr => ?_, h.clear⟩
  · have hname : x = ρ.name v.active y ↔ x = y := by
      have hinj : ρ.name v.active x = ρ.name v.active y ↔ x = y := Renaming.name_inj hx hy
      rw [← hinj, hkept]
    rw [isPort_addPort, isPort_addPort, hname, h.isPort_iff y hy]
  · rcases (isPort_addPort s x ρ.old).1 hport with rfl | hport
    · exact hseen
    · exact h.seen_port hport
  · exact (h.same r hr).of_tables rfl rfl rfl rfl

/-- A port is bound on both sides under its name. -/
theorem bindPort (h : s.Renamed ρ v seen s') {x : String} (hx : Ref.Bindable ρ v { name := x })
    (hkept : ρ.name v.active x = x) {bits : Bits} (hbits : bits ≠ []) :
    ((s.bind x bits).addPort x).Renamed ρ v (fun r => seen r ∨ r = { name := x })
      ((s'.bind x bits).addPort x) := by
  have hbound := h.bind hx hbits
  rw [Renaming.ref, hkept] at hbound
  exact hbound.addPort hx.ne_new hkept (.inr rfl)

/-- The scope of an instance starts with nothing of its own. If the scope of its caller is clear, it
starts clear itself, and all that has the old name is unbound on both sides. -/
theorem child (h : s.Renamed ρ v seen s') (v' : View) {start : Prop} (hstart : start → v.clear)
    (hv' : v'.clear → start) (moduleName namePrefix : String) (owner : InstanceId) :
    (s.child moduleName namePrefix owner).Renamed ρ v' (fun _ => start)
      (s'.child moduleName namePrefix owner) := by
  have hport : ∀ (t : Scope) (x : String),
      ¬(t.child moduleName namePrefix owner).isPort x = true := by
    intro t x
    simp [Scope.isPort, Scope.child]
  refine ⟨rfl, rfl, fun x _ => ?_, fun hold => absurd hold (hport s _), fun r hr => ?_,
    fun hclear => h.clear (hstart (hv' hclear))⟩
  · exact iff_of_false (hport s _) (hport s' _)
  · have hsame : s.Same s' r.text (ρ.ref v'.active r).text := by
      by_cases hold : r.name = ρ.old
      · obtain ⟨hs, hs'⟩ := h.clear (hstart (hr.seen hold))
        exact hs.same hs' hr.plain (Renaming.plain_ref hr.plain) (.inl hold)
          (Renaming.ref_name_of_eq hold)
      · have hsame := h.same r ⟨hr.plain, hr.ne_new, fun heq => absurd heq hold⟩
        rwa [Renaming.ref_of_ne hold] at hsame ⊢
    exact hsame.of_tables rfl rfl rfl rfl

end Scope.Renamed

end NandHdl
