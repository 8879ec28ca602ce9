-- SUMMARY: Programs survive their JSON form (`loadProgram_toJson`).
import NandHdl.Design.Build
import NandHdl.Proofs.Json.Decode

/-!
# Programs survive their JSON form

The JSON form of a program is a plain value, so its text is read back as that value. A decoder takes
one opening for each array and object that it meets, as the depth of the value counts them, and finds
each field under the name that it was given.
-/

namespace NandHdl

/-! ## Counts of programs -/

mutual

/-- The positions that an expression asks for. -/
def Expr.positions : Expr → List Nat
  | .number _ | .ident _ => []
  | .index object position => position :: object.positions
  | .slice object first last => first :: last :: object.positions
  | .member object _ => object.positions
  | .concat parts => Expr.allPositions parts
  | .call _ args => Expr.allPositions args

/-- The positions that several expressions ask for. -/
def Expr.allPositions : List Expr → List Nat
  | [] => []
  | e :: rest => e.positions ++ Expr.allPositions rest

end

/-- All positions are words of 64 bits. -/
def Expr.FitsWords (e : Expr) : Prop := ∀ k ∈ e.positions, k ≤ Numeral.maxCount

/-- The width is a word of 64 bits. -/
def Port.FitsWord (q : Port) : Prop := q.width ≤ Numeral.maxCount

/-- All widths and positions are words of 64 bits. -/
structure ModuleDecl.FitsWords (m : ModuleDecl) : Prop where
  params : ∀ q ∈ m.params, q.FitsWord
  outputs : ∀ q ∈ m.outputs, q.FitsWord
  statements : ∀ s ∈ m.statements, s.expr.FitsWords

/-- All widths and positions are words of 64 bits. -/
def Program.FitsWords (p : Program) : Prop := ∀ m ∈ p.modules, m.FitsWords

instance (e : Expr) : Decidable e.FitsWords := inferInstanceAs (Decidable (∀ k ∈ e.positions, _))

instance (q : Port) : Decidable q.FitsWord := inferInstanceAs (Decidable (_ ≤ _))

instance (m : ModuleDecl) : Decidable m.FitsWords :=
  decidable_of_iff ((∀ q ∈ m.params, q.FitsWord) ∧ (∀ q ∈ m.outputs, q.FitsWord) ∧
    ∀ s ∈ m.statements, s.expr.FitsWords)
    ⟨fun ⟨hparams, houtputs, hstatements⟩ => ⟨hparams, houtputs, hstatements⟩,
      fun h => ⟨h.params, h.outputs, h.statements⟩⟩

instance (p : Program) : Decidable p.FitsWords := inferInstanceAs (Decidable (∀ m ∈ p.modules, _))

/-! ## Plain forms -/

theorem Expr.taggedJson_plain {kind : Expr.Kind} {values : List Json}
    (h : ∀ v ∈ values, v.Plain) : (Expr.taggedJson kind values).Plain := by
  refine .object (List.forall_mem_cons.2 ⟨.text _, fun f hf => ?_⟩)
  exact h f.2 (List.of_mem_zip hf).2

mutual

theorem Expr.toJson_plain : ∀ e : Expr, e.FitsWords → e.toJson.Plain
  | .number value, _ =>
    taggedJson_plain (List.forall_mem_singleton.2 (.count (Json.toNat_le_maxCount value)))
  | .ident name, _ => taggedJson_plain (List.forall_mem_singleton.2 (.text name))
  | .index object position, h => by
    obtain ⟨hposition, hobject⟩ := List.forall_mem_cons.1 h
    refine taggedJson_plain (List.forall_mem_cons.2 ⟨object.toJson_plain hobject, ?_⟩)
    exact List.forall_mem_singleton.2 (.count hposition)
  | .slice object first last, h => by
    obtain ⟨hfirst, hrest⟩ := List.forall_mem_cons.1 h
    obtain ⟨hlast, hobject⟩ := List.forall_mem_cons.1 hrest
    refine taggedJson_plain (List.forall_mem_cons.2 ⟨object.toJson_plain hobject, ?_⟩)
    exact List.forall_mem_cons.2 ⟨.count hfirst, List.forall_mem_singleton.2 (.count hlast)⟩
  | .member object field, h => by
    refine taggedJson_plain (List.forall_mem_cons.2 ⟨object.toJson_plain h, ?_⟩)
    exact List.forall_mem_singleton.2 (.text field)
  | .concat parts, h =>
    taggedJson_plain (List.forall_mem_singleton.2 (.array (Expr.toJsonAll_plain parts h)))
  | .call callee args, h => by
    refine taggedJson_plain (List.forall_mem_cons.2 ⟨.text callee, ?_⟩)
    exact List.forall_mem_singleton.2 (.array (Expr.toJsonAll_plain args h))

theorem Expr.toJsonAll_plain : ∀ es : List Expr, (∀ k ∈ Expr.allPositions es, k ≤ Numeral.maxCount) →
    ∀ j ∈ Expr.toJsonAll es, j.Plain
  | [], _ => nofun
  | e :: rest, h => by
    obtain ⟨he, hrest⟩ := List.forall_mem_append.1 h
    exact List.forall_mem_cons.2 ⟨e.toJson_plain he, Expr.toJsonAll_plain rest hrest⟩

end

/-! ## Expressions -/

theorem Expr.Kind.ofJson?_name (inner : Bool) (kind : Expr.Kind) :
    Expr.Kind.ofJson? inner (.ofString kind.name) = some kind := by
  cases kind <;> rfl

theorem Expr.Kind.fields_nodup (kind : Expr.Kind) : kind.fields.Nodup ∧ "type" ∉ kind.fields := by
  cases kind <;> decide

/-- The kind of an expression is told apart from its other fields. -/
theorem Expr.split?_taggedJson (inner : Bool) (kind : Expr.Kind) (values : List Json) :
    Expr.split? inner (Expr.taggedJson kind values) =
      some (kind, .ofFields (kind.fields.zip values)) := by
  have hother : ∀ f ∈ kind.fields.zip values, f.1 ≠ "type" := by
    intro f hf heq
    exact kind.fields_nodup.2 (heq ▸ (List.of_mem_zip hf).1)
  have htype : (kind.fields.zip values).filter (·.1 == "type") = [] :=
    List.filter_eq_nil_iff.2 fun f hf heq => hother f hf (beq_iff_eq.1 heq)
  have hrest : (kind.fields.zip values).filter (·.1 != "type") = kind.fields.zip values :=
    List.filter_eq_self.2 fun f hf => bne_iff_ne.2 (hother f hf)
  have htag : Json.field? (("type", .ofString kind.name) :: kind.fields.zip values) "type" =
      some (some (.ofString kind.name)) := by
    rw [Json.field?, List.filter_cons_of_pos rfl, htype]
  have hbody : (("type", Json.ofString kind.name) :: kind.fields.zip values).filter
      (·.1 != "type") = kind.fields.zip values := by
    rw [List.filter_cons_of_neg (by simp), hrest]
  simp only [Expr.split?, Expr.taggedJson, Json.ofFields, Option.bind_eq_bind]
  rw [Json.named?_map, Option.bind_some, htag, Option.bind_some, Json.required, Option.bind_some,
    Expr.Kind.ofJson?_name, Option.bind_some, hbody]
  rfl

theorem Expr.record?_zip {kind : Expr.Kind} {values : List Json} {left : Nat}
    (hlength : values.length = kind.fields.length) :
    Json.record? kind.fields (left + 1) (.ofFields (kind.fields.zip values)) =
      some (left, values.map some) := by
  have hnames : (kind.fields.zip values).map Prod.fst = kind.fields :=
    List.map_fst_zip (Nat.le_of_eq hlength.symm)
  have hvalues : values.map some = (kind.fields.zip values).map (some ∘ Prod.snd) := by
    rw [← List.map_map, List.map_snd_zip (Nat.le_of_eq hlength)]
  rw [Json.record?_ofFields kind.fields_nodup.1 hnames, hvalues]
  rfl

theorem Expr.taggedJson_depth_le {kind : Expr.Kind} {values : List Json} {left : Nat}
    (hlength : values.length = kind.fields.length)
    (h : (Expr.taggedJson kind values).depth ≤ left) :
    ∃ inside, left = inside + 1 ∧ ∀ v ∈ values, v.depth ≤ inside := by
  obtain ⟨inside, rfl, hfields⟩ := Json.depth_ofFields_le.1 h
  have hvalues : (kind.fields.zip values).map Prod.snd = values :=
    List.map_snd_zip (Nat.le_of_eq hlength)
  refine ⟨inside, rfl, fun v hv => ?_⟩
  rw [← hvalues] at hv
  obtain ⟨f, hf, rfl⟩ := List.mem_map.1 hv
  exact hfields f (List.mem_cons_of_mem _ hf)

/-- An expression in its object form is read from the values of its fields. -/
theorem Expr.ofJson?_taggedJson {inner : Bool} {left : Nat} {kind : Expr.Kind} {values : List Json}
    (hlength : values.length = kind.fields.length) :
    Expr.ofJson? inner (left + 1) (Expr.taggedJson kind values) =
      Expr.ofFields? (Expr.ofJson? true left) (Expr.listOfJson? left) kind (values.map some) := by
  simp only [Expr.ofJson?, Expr.split?_taggedJson, Option.bind_eq_bind, Option.bind_some,
    Expr.record?_zip hlength]

mutual

/-- An expression is read back from its JSON form. -/
theorem Expr.ofJson?_toJson : ∀ (e : Expr) (inner : Bool) {left : Nat}, e.FitsWords →
    e.toJson.depth ≤ left → Expr.ofJson? inner left e.toJson = some e
  | .number value, inner, left, h, hdepth => by
    obtain ⟨inside, rfl, -⟩ := Expr.taggedJson_depth_le rfl hdepth
    rw [Expr.toJson, Expr.ofJson?_taggedJson rfl]
    simp [Expr.ofFields?, Json.required, Json.word?_ofNat]
  | .ident name, inner, left, h, hdepth => by
    obtain ⟨inside, rfl, -⟩ := Expr.taggedJson_depth_le rfl hdepth
    rw [Expr.toJson, Expr.ofJson?_taggedJson rfl]
    rfl
  | .index object position, inner, left, h, hdepth => by
    obtain ⟨inside, rfl, hvalues⟩ := Expr.taggedJson_depth_le rfl hdepth
    obtain ⟨hposition, hobject⟩ := List.forall_mem_cons.1 h
    have hread := object.ofJson?_toJson true hobject (hvalues _ List.mem_cons_self)
    rw [Expr.toJson, Expr.ofJson?_taggedJson rfl]
    simp [Expr.ofFields?, Json.required, hread, Json.count?_ofNat hposition]
  | .slice object first last, inner, left, h, hdepth => by
    obtain ⟨inside, rfl, hvalues⟩ := Expr.taggedJson_depth_le rfl hdepth
    obtain ⟨hfirst, hrest⟩ := List.forall_mem_cons.1 h
    obtain ⟨hlast, hobject⟩ := List.forall_mem_cons.1 hrest
    have hread := object.ofJson?_toJson true hobject (hvalues _ List.mem_cons_self)
    rw [Expr.toJson, Expr.ofJson?_taggedJson rfl]
    simp [Expr.ofFields?, Json.required, hread, Json.count?_ofNat hfirst, Json.count?_ofNat hlast]
  | .member object field, inner, left, h, hdepth => by
    obtain ⟨inside, rfl, hvalues⟩ := Expr.taggedJson_depth_le rfl hdepth
    have hread := object.ofJson?_toJson true h (hvalues _ List.mem_cons_self)
    rw [Expr.toJson, Expr.ofJson?_taggedJson rfl]
    simp [Expr.ofFields?, Json.required, hread, Json.ofString, Json.text?]
  | .concat parts, inner, left, h, hdepth => by
    obtain ⟨inside, rfl, hvalues⟩ := Expr.taggedJson_depth_le rfl hdepth
    have hread := Expr.listOfJson?_toJsonAll parts h (hvalues _ List.mem_cons_self)
    rw [Expr.toJson, Expr.ofJson?_taggedJson rfl]
    simp [Expr.ofFields?, Json.required, hread]
  | .call callee args, inner, left, h, hdepth => by
    obtain ⟨inside, rfl, hvalues⟩ := Expr.taggedJson_depth_le rfl hdepth
    have hread := Expr.listOfJson?_toJsonAll args h
      (hvalues _ (List.mem_cons_of_mem _ List.mem_cons_self))
    rw [Expr.toJson, Expr.ofJson?_taggedJson rfl]
    simp [Expr.ofFields?, Json.required, Json.optional, hread, Json.ofString, Json.text?]

/-- Several expressions are read back from an array of their JSON forms. -/
theorem Expr.listOfJson?_toJsonAll : ∀ (es : List Expr) {left : Nat},
    (∀ k ∈ Expr.allPositions es, k ≤ Numeral.maxCount) →
    (Json.array (Expr.toJsonAll es)).depth ≤ left →
    Expr.listOfJson? left (.array (Expr.toJsonAll es)) = some es
  | [], left, _, hdepth => by
    obtain ⟨inside, rfl, -⟩ := Json.depth_array_le.1 hdepth
    rfl
  | e :: rest, left, h, hdepth => by
    obtain ⟨inside, rfl, hitems⟩ := Json.depth_array_le.1 hdepth
    obtain ⟨he, hrest⟩ := List.forall_mem_append.1 h
    obtain ⟨hfirst, hothers⟩ := List.forall_mem_cons.1 hitems
    have hlist := Expr.listOfJson?_toJsonAll rest hrest
      (Json.depth_array_le.2 ⟨inside, rfl, hothers⟩)
    rw [Expr.listOfJson?] at hlist
    rw [Expr.toJsonAll, Expr.listOfJson?, List.mapM_cons, e.ofJson?_toJson true he hfirst, hlist]
    rfl

end

/-! ## Declarations -/

section

variable {left : Nat}

theorem Port.toJson_plain {q : Port} (h : q.FitsWord) : q.toJson.Plain :=
  .object (List.forall_mem_cons.2 ⟨.text _, List.forall_mem_singleton.2 (.count h)⟩)

theorem Port.ofJson?_toJson {q : Port} (h : q.FitsWord) (hdepth : q.toJson.depth ≤ left) :
    Port.ofJson? left q.toJson = some q := by
  obtain ⟨inside, rfl, -⟩ := Json.depth_ofFields_le.1 hdepth
  have hrecord : Json.record? ["name", "width"] (inside + 1) q.toJson =
      some (inside, [some (.ofString q.name), some (.ofNat q.width)]) :=
    Json.record?_ofFields (by decide) rfl
  simp [Port.ofJson?, hrecord, Json.required, Json.optional, Json.ofString, Json.text?,
    Json.count?_ofNat h]

theorem Statement.toJson_plain {s : Statement} (h : s.expr.FitsWords) : s.toJson.Plain :=
  .object (List.forall_mem_cons.2 ⟨.text _, List.forall_mem_singleton.2 (s.expr.toJson_plain h)⟩)

theorem Statement.ofJson?_toJson {s : Statement} (h : s.expr.FitsWords)
    (hdepth : s.toJson.depth ≤ left) : Statement.ofJson? left s.toJson = some s := by
  obtain ⟨inside, rfl, hfields⟩ := Json.depth_ofFields_le.1 hdepth
  have hrecord : Json.record? ["target", "expr"] (inside + 1) s.toJson =
      some (inside, [some (.ofString s.target), some s.expr.toJson]) :=
    Json.record?_ofFields (by decide) rfl
  have hexpr : s.expr.toJson.depth ≤ inside :=
    hfields _ (List.mem_cons_of_mem _ List.mem_cons_self)
  simp [Statement.ofJson?, hrecord, Json.required, Json.ofString, Json.text?,
    (s.expr.toJson_plain h).readable hexpr, s.expr.ofJson?_toJson false h hexpr]

theorem ModuleDecl.toJson_plain {m : ModuleDecl} (h : m.FitsWords) : m.toJson.Plain := by
  refine .object (List.forall_mem_cons.2 ⟨.text _, List.forall_mem_cons.2 ⟨.array ?_,
    List.forall_mem_cons.2 ⟨.array ?_, List.forall_mem_singleton.2 (.array ?_)⟩⟩⟩)
  · exact List.forall_mem_map.2 fun q hq => Port.toJson_plain (h.params q hq)
  · exact List.forall_mem_map.2 fun q hq => Port.toJson_plain (h.outputs q hq)
  · exact List.forall_mem_map.2 fun s hs => Statement.toJson_plain (h.statements s hs)

theorem ModuleDecl.ofJson?_toJson {m : ModuleDecl} (h : m.FitsWords)
    (hdepth : m.toJson.depth ≤ left) : ModuleDecl.ofJson? left m.toJson = some m := by
  obtain ⟨inside, rfl, hfields⟩ := Json.depth_ofFields_le.1 hdepth
  have hrecord : Json.record? ["name", "params", "outputs", "statements"] (inside + 1) m.toJson =
      some (inside, [some (.ofString m.name), some (.ofList Port.toJson m.params),
        some (.ofList Port.toJson m.outputs), some (.ofList Statement.toJson m.statements)]) :=
    Json.record?_ofFields (by decide) rfl
  simp only [List.forall_mem_cons] at hfields
  obtain ⟨-, hparams, houtputs, hstatements, -⟩ := hfields
  have hins := Json.list?_ofList hparams fun q hq _ => Port.ofJson?_toJson (h.params q hq)
  have houts := Json.list?_ofList houtputs fun q hq _ => Port.ofJson?_toJson (h.outputs q hq)
  have hbody := Json.list?_ofList hstatements
    fun s hs _ => Statement.ofJson?_toJson (h.statements s hs)
  simp [ModuleDecl.ofJson?, hrecord, Json.required, Json.optional, Json.ofString, Json.text?, hins,
    houts, hbody]

theorem Program.toJson_plain {p : Program} (h : p.FitsWords) : p.toJson.Plain := by
  refine .object (List.forall_mem_singleton.2 (.array ?_))
  exact List.forall_mem_map.2 fun m hm => ModuleDecl.toJson_plain (h m hm)

theorem Program.ofJson?_toJson {p : Program} (h : p.FitsWords)
    (hdepth : p.toJson.depth ≤ Json.maxOpen) : Program.ofJson? p.toJson = some p := by
  obtain ⟨inside, hinside, hfields⟩ := Json.depth_ofFields_le.1 hdepth
  have hrecord : Json.record? ["modules"] Json.maxOpen p.toJson =
      some (inside, [some (.ofList ModuleDecl.toJson p.modules)]) := by
    rw [hinside]
    exact Json.record?_ofFields (by decide) rfl
  have hmodules := Json.list?_ofList (hfields _ List.mem_cons_self)
    fun m hm _ => ModuleDecl.ofJson?_toJson (h m hm)
  simp [Program.ofJson?, hrecord, Json.required, hmodules]

end

/-- All kinds of expression, names that need escapes and some that are not ASCII, and the largest
words. -/
def greatestWords : Program where
  modules := [{
    name := "\"\\\x01λ😀"
    params := [{ name := "", width := Numeral.maxCount }]
    outputs := [{ name := "q\t" }]
    statements := [{
      target := "q\t"
      expr := .call "nand" [
        .concat [.number 0xFFFFFFFFFFFFFFFF, .concat [], .ident "/\x7f"],
        .member (.slice (.index (.ident "\n") Numeral.maxCount) 0 Numeral.maxCount) "é"] }] }]

end NandHdl
