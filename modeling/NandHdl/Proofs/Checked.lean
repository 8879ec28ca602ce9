-- SUMMARY: Laws of checked table access: when it succeeds, what it answers, and passes over lists in which no step fails.
import NandHdl.Fault
import Mathlib.Tactic.Common

/-!
# Laws of checked access

An access succeeds exactly if the index is in range. A pass over a list succeeds if each of its
steps does.
-/

namespace NandHdl

theorem Except.bind_eq_ok {ε α β : Type} {x : Except ε α} {f : α → Except ε β} {b : β} :
    (x >>= f) = .ok b ↔ ∃ a, x = .ok a ∧ f a = .ok b := by
  cases x with
  | error e => simp [bind, Except.bind]
  | ok a => simp [bind, Except.bind]

theorem Except.map_eq_ok {ε α β : Type} {x : Except ε α} {f : α → β} {b : β} :
    x.map f = .ok b ↔ ∃ a, x = .ok a ∧ f a = b := by
  cases x with
  | error e => simp [Except.map]
  | ok a => simp [Except.map]

theorem Except.mapError_eq_ok {ε ε' α : Type} {x : Except ε α} {f : ε → ε'} {a : α} :
    x.mapError f = .ok a ↔ x = .ok a := by
  cases x with
  | error e => simp [Except.mapError]
  | ok a => simp [Except.mapError]

theorem Except.map_map {ε α β γ : Type} (f : α → β) (g : β → γ) (x : Except ε α) :
    (x.map f).map g = x.map (g ∘ f) := by
  cases x with
  | error e => rfl
  | ok a => rfl

@[simp] theorem Except.ok_bind {ε α β : Type} (a : α) (f : α → Except ε β) :
    (Except.ok a >>= f) = f a := rfl

theorem List.mapM_eq_ok {ε α β : Type} {f : α → Except ε β} {g : α → β} {l : List α}
    (h : ∀ a ∈ l, f a = .ok (g a)) : l.mapM f = .ok (l.map g) := by
  induction l with
  | nil => rfl
  | cons a l ih =>
    rw [List.mapM_cons, h a List.mem_cons_self,
      ih fun b hb => h b (List.mem_cons_of_mem a hb)]
    rfl

theorem Array.mapM_eq_ok {ε α β : Type} {f : α → Except ε β} {g : α → β} {xs : Array α}
    (h : ∀ a ∈ xs, f a = .ok (g a)) : xs.mapM f = .ok (xs.map g) := by
  rw [Array.mapM_eq_mapM_toList, List.mapM_eq_ok fun a ha => h a (Array.mem_toList_iff.1 ha)]
  simp only [Functor.map, Except.map, ← Array.toList_map, Array.toArray_toList]

/-- A pass keeps what each of its steps keeps. The property speaks of the elements that are done. -/
theorem List.foldlM_eq_ok {ε α β : Type} {f : β → α → Except ε β} {P : List α → β → Prop}
    {l : List α} {b : β} (start : P [] b)
    (step : ∀ done a rest b, l = done ++ a :: rest → P done b →
      ∃ b', f b a = .ok b' ∧ P (done ++ [a]) b') :
    ∃ b', l.foldlM f b = .ok b' ∧ P l b' := by
  suffices h : ∀ rest done b, l = done ++ rest → P done b →
      ∃ b', rest.foldlM f b = .ok b' ∧ P l b' from h l [] b rfl start
  intro rest
  induction rest with
  | nil =>
    intro done b hl hb
    refine ⟨b, rfl, ?_⟩
    rw [hl, List.append_nil]
    exact hb
  | cons a rest ih =>
    intro done b hl hb
    obtain ⟨b', hf, hb'⟩ := step done a rest b hl hb
    obtain ⟨b'', hrest, hb''⟩ := ih (done ++ [a]) b' (by simp [hl]) hb'
    refine ⟨b'', ?_, hb''⟩
    rw [List.foldlM_cons, hf]
    exact hrest

namespace Checked

variable {α : Type} {xs : Array α} {i : Nat}

theorem get_eq_ok {a : α} : get xs i = .ok a ↔ xs[i]? = some a := by
  unfold get
  cases h : xs[i]? <;> simp

theorem modify_ok (h : i < xs.size) (f : α → α) : modify xs i f = .ok (xs.modify i f) := by
  simp [modify, h]

theorem modify_eq_ok {f : α → α} {ys : Array α} :
    modify xs i f = .ok ys ↔ i < xs.size ∧ ys = xs.modify i f := by
  by_cases h : i < xs.size
  · simp [modify, h, eq_comm]
  · simp [modify, h]

theorem set_ok (h : i < xs.size) (a : α) : set xs i a = .ok (xs.modify i fun _ => a) :=
  modify_ok h _

theorem getElem?_modify_const (h : i < xs.size) (a : α) (k : Nat) :
    (xs.modify i fun _ => a)[k]? = if k = i then some a else xs[k]? := by
  rw [Array.getElem?_modify]
  by_cases hk : k = i
  · subst hk
    simp [h]
  · rw [if_neg (Ne.symm hk), if_neg hk]

/-- A table filled by one write per element of a list, each under a key of its own. -/
theorem foldlM_set {β : Type} (key value : β → Nat) (l : List β) (size : Nat)
    (hlt : ∀ a ∈ l, key a < size) (hnodup : (l.map key).Nodup) :
    ∃ table, l.foldlM (fun table a => set table (key a) (some (value a)))
        (Array.replicate size none) = .ok table ∧
      table.size = size ∧ ∀ k i, table[k]? = some (some i) ↔ ∃ a ∈ l, key a = k ∧ value a = i := by
  refine List.foldlM_eq_ok (P := fun done (table : Array (Option Nat)) => table.size = size ∧
    ∀ k i, table[k]? = some (some i) ↔ ∃ a ∈ done, key a = k ∧ value a = i) ?_ ?_
  · simp [Array.getElem?_replicate]
  · rintro done a rest table rfl ⟨hsize, htable⟩
    have ha : key a < table.size := hsize ▸ hlt a (by simp)
    have hfresh : ∀ b ∈ done, key b ≠ key a := by
      simp only [List.map_append, List.map_cons, List.nodup_append, List.mem_map] at hnodup
      exact fun b hb => hnodup.2.2 _ ⟨b, hb, rfl⟩ _ List.mem_cons_self
    refine ⟨_, set_ok ha _, by simpa using hsize, fun k i => ?_⟩
    rw [Array.getElem?_modify]
    by_cases hk : key a = k
    · subst hk
      simp only [if_true, Array.getElem?_eq_getElem ha, Option.map_some, Option.some.injEq,
        List.mem_append, List.mem_singleton]
      constructor
      · exact fun h => ⟨a, .inr rfl, rfl, h⟩
      · rintro ⟨b, hb | rfl, hkey, hvalue⟩
        · exact absurd hkey (hfresh b hb)
        · exact hvalue
    · rw [if_neg hk, htable]
      simp only [List.mem_append, List.mem_singleton]
      constructor
      · exact fun ⟨b, hb, h⟩ => ⟨b, .inl hb, h⟩
      · rintro ⟨b, hb | rfl, hkey, hvalue⟩
        · exact ⟨b, hb, hkey, hvalue⟩
        · exact absurd hkey hk

theorem pred_ok {n : Nat} (h : 0 < n) : pred n = .ok (n - 1) := by
  cases n with
  | zero => omega
  | succ n => rfl

end Checked

end NandHdl
