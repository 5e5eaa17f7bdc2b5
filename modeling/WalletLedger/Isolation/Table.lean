import Mathlib.Algebra.BigOperators.Group.List.Basic
import Mathlib.Algebra.Ring.Int.Defs
import Mathlib.Data.List.Nodup

/-!
# Tables with a primary key

A table is a list of rows no two of which share a key. The list order is the
order of insertion; nothing reads it as more than that. Key uniqueness is a
field, so a table that violates its primary key cannot be written down, and the
lemmas below never have to assume it.

`insert` refuses a taken key by leaving the table alone. Callers look first and
report the violation themselves, which is what makes the total function usable.
-/

namespace Isolation

/-- Rows of `α`, at most one for each key. -/
@[ext] structure Table (α κ : Type) (key : α → κ) where
  /-- The rows, oldest first. -/
  rows : List α
  /-- No two rows share a key. -/
  nodup : (rows.map key).Nodup

namespace Table

variable {α κ : Type} {key : α → κ} [DecidableEq κ]

/-- The table with no rows. -/
def empty : Table α κ key := ⟨[], by simp⟩

/-- The row under a key. -/
def get (t : Table α κ key) (k : κ) : Option α := t.rows.find? (fun a => decide (key a = k))

/-- Append a row, unless its key is taken. -/
def insert (t : Table α κ key) (a : α) : Table α κ key :=
  if h : key a ∈ t.rows.map key then t
  else ⟨t.rows ++ [a], by
    rw [List.map_append, List.nodup_append]
    refine ⟨t.nodup, by simp, ?_⟩
    intro x hx y hy
    simp only [List.map_cons, List.map_nil, List.mem_singleton] at hy
    subst hy
    exact fun he => h (he ▸ hx)⟩

/-- Rewrite the row under a key by a function that keeps the key. -/
def modify (t : Table α κ key) (k : κ) (f : α → α) (hf : ∀ a, key (f a) = key a) :
    Table α κ key :=
  ⟨t.rows.map (fun a => if key a = k then f a else a), by
    have : (t.rows.map (fun a => if key a = k then f a else a)).map key = t.rows.map key := by
      rw [List.map_map]
      refine List.map_congr_left (fun a _ => ?_)
      by_cases h : key a = k
      · simp [h, hf]
      · simp [h]
    rw [this]; exact t.nodup⟩

/-! ## Looking rows up -/

@[simp] theorem get_empty (k : κ) : (empty : Table α κ key).get k = none := rfl

omit [DecidableEq κ] in
@[simp] theorem rows_empty : (empty : Table α κ key).rows = [] := rfl

theorem mem_of_get {t : Table α κ key} {k : κ} {a : α} (h : t.get k = some a) : a ∈ t.rows :=
  List.mem_of_find?_eq_some h

theorem key_of_get {t : Table α κ key} {k : κ} {a : α} (h : t.get k = some a) : key a = k := by
  simpa using List.find?_some h

/-- **A row is found under its own key.** This is where uniqueness is used. -/
theorem get_of_mem {t : Table α κ key} {a : α} (h : a ∈ t.rows) : t.get (key a) = some a := by
  obtain ⟨b, hb⟩ : ∃ b, t.get (key a) = some b := by
    apply Option.isSome_iff_exists.mp
    rw [get, List.find?_isSome]
    exact ⟨a, h, by simp⟩
  have hk : key b = key a := key_of_get hb
  have hba : b = a := List.inj_on_of_nodup_map t.nodup (mem_of_get hb) h hk
  rw [hb, hba]

theorem get_eq_none {t : Table α κ key} {k : κ} : t.get k = none ↔ ∀ a ∈ t.rows, key a ≠ k := by
  simp [get, List.find?_eq_none]

theorem get_eq_some {t : Table α κ key} {k : κ} {a : α} :
    t.get k = some a ↔ a ∈ t.rows ∧ key a = k := by
  constructor
  · intro h; exact ⟨mem_of_get h, key_of_get h⟩
  · rintro ⟨h, rfl⟩; exact get_of_mem h

/-! ## Insertion -/

theorem fresh_iff {t : Table α κ key} {a : α} :
    key a ∉ t.rows.map key ↔ t.get (key a) = none := by
  rw [get_eq_none]
  simp only [List.mem_map, not_exists, not_and, ne_eq]

theorem rows_insert {t : Table α κ key} {a : α} (h : t.get (key a) = none) :
    (t.insert a).rows = t.rows ++ [a] := by
  unfold insert
  rw [dif_neg (fresh_iff.mpr h)]

theorem get_insert_self {t : Table α κ key} {a : α} (h : t.get (key a) = none) :
    (t.insert a).get (key a) = some a := by
  refine get_of_mem ?_
  rw [rows_insert h]
  simp

theorem get_insert_ne {t : Table α κ key} {a : α} {k : κ} (h : key a ≠ k) :
    (t.insert a).get k = t.get k := by
  unfold insert
  split
  · rfl
  · simp [get, List.find?_append, h]

/-- A row already present survives every insertion. -/
theorem get_insert_of_some {t : Table α κ key} {a b : α} {k : κ} (h : t.get k = some b) :
    (t.insert a).get k = some b := by
  by_cases hk : key a = k
  · have hin : key a ∈ t.rows.map key := by
      rw [hk, ← key_of_get h]; exact List.mem_map_of_mem (mem_of_get h)
    unfold insert
    rw [dif_pos hin]; exact h
  · rw [get_insert_ne hk]; exact h

theorem get_of_insert_none {t : Table α κ key} {a : α} {k : κ} (h : (t.insert a).get k = none) :
    t.get k = none := by
  cases hg : t.get k with
  | none => rfl
  | some b => rw [get_insert_of_some hg] at h; exact absurd h (by simp)

theorem mem_insert {t : Table α κ key} {a b : α} (h : t.get (key a) = none) :
    b ∈ (t.insert a).rows ↔ b ∈ t.rows ∨ b = a := by
  rw [rows_insert h]; simp

theorem mem_of_mem_insert {t : Table α κ key} {a b : α} (h : b ∈ (t.insert a).rows) :
    b ∈ t.rows ∨ b = a := by
  unfold insert at h
  split at h
  · exact .inl h
  · simpa using h

theorem mem_insert_of_mem {t : Table α κ key} {a b : α} (h : b ∈ t.rows) :
    b ∈ (t.insert a).rows := by
  unfold insert
  split
  · exact h
  · exact List.mem_append_left _ h

/-! ## Modification -/

section modify

variable {t : Table α κ key} {f : α → α} (hf : ∀ a, key (f a) = key a)

theorem rows_modify (t : Table α κ key) (k : κ) (f : α → α) (hf : ∀ a, key (f a) = key a) :
    (t.modify k f hf).rows = t.rows.map (fun a => if key a = k then f a else a) := rfl

theorem get_modify_ne {k k' : κ} (h : k' ≠ k) : (t.modify k f hf).get k' = t.get k' := by
  cases hg : t.get k' with
  | none =>
      rw [get_eq_none] at hg ⊢
      intro a ha
      rw [rows_modify, List.mem_map] at ha
      obtain ⟨b, hb, rfl⟩ := ha
      split
      · rw [hf]; exact hg b hb
      · exact hg b hb
  | some a =>
      obtain ⟨hm, rfl⟩ := get_eq_some.mp hg
      rw [get_eq_some, rows_modify, List.mem_map]
      exact ⟨⟨a, hm, if_neg h⟩, rfl⟩

theorem get_modify_self {k : κ} : (t.modify k f hf).get k = (t.get k).map f := by
  cases hg : t.get k with
  | none =>
      rw [Option.map_none, get_eq_none]
      rw [get_eq_none] at hg
      intro a ha
      rw [rows_modify, List.mem_map] at ha
      obtain ⟨b, hb, rfl⟩ := ha
      split
      · rw [hf]; exact hg b hb
      · exact hg b hb
  | some a =>
      obtain ⟨hm, rfl⟩ := get_eq_some.mp hg
      rw [Option.map_some, get_eq_some, rows_modify, List.mem_map]
      exact ⟨⟨a, hm, if_pos rfl⟩, hf a⟩

/-- Modification keeps a row in every column it does not change. -/
theorem get_modify_some {k k' : κ} {a : α} {R : α → α → Prop} (h : t.get k = some a)
    (hr : R a a) (hm : R a (f a)) : ∃ b, (t.modify k' f hf).get k = some b ∧ R a b := by
  by_cases hk : k = k'
  · subst hk
    exact ⟨f a, by rw [get_modify_self, h]; rfl, hm⟩
  · exact ⟨a, by rw [get_modify_ne hf hk]; exact h, hr⟩

theorem get_of_modify_none {k k' : κ} (h : (t.modify k' f hf).get k = none) : t.get k = none := by
  cases hg : t.get k with
  | none => rfl
  | some b =>
      obtain ⟨c, hc, -⟩ := get_modify_some hf (R := fun _ _ => True) hg trivial trivial
      rw [hc] at h
      exact absurd h (by simp)

/-- Rewriting one row moves a sum over all rows by the change in that row. -/
theorem sum_modify {k : κ} {a : α} (g : α → Int) (h : t.get k = some a) :
    ((t.modify k f hf).rows.map g).sum = (t.rows.map g).sum + (g (f a) - g a) := by
  obtain ⟨hm, hk⟩ := get_eq_some.mp h
  have hnd := t.nodup
  rw [rows_modify, List.map_map]
  generalize t.rows = l at hm hnd
  induction l with
  | nil => simp at hm
  | cons b l ih =>
      rw [List.map_cons, List.nodup_cons] at hnd
      rcases List.mem_cons.mp hm with rfl | hm'
      · -- the row itself: nothing behind it shares its key
        have htail : l.map (g ∘ fun a => if key a = k then f a else a) = l.map g := by
          refine List.map_congr_left (fun c hc => ?_)
          have hck : key c ≠ k := by
            intro he
            exact hnd.1 (by rw [hk, ← he]; exact List.mem_map_of_mem hc)
          simp [hck]
        simp only [List.map_cons, Function.comp_apply, List.sum_cons, hk, if_true, htail]
        omega
      · have hbk : key b ≠ k := by
          intro he
          exact hnd.1 (by rw [he, ← hk]; exact List.mem_map_of_mem hm')
        simp only [List.map_cons, Function.comp_apply, List.sum_cons, hbk, if_false]
        rw [ih hm' hnd.2]
        omega

end modify

/-- Updates of different rows commute. -/
theorem modify_comm (t : Table α κ key) {k k' : κ} (h : k ≠ k') {f g : α → α}
    (hf : ∀ a, key (f a) = key a)
    (hg : ∀ a, key (g a) = key a) :
    (t.modify k f hf).modify k' g hg = (t.modify k' g hg).modify k f hf := by
  apply Table.ext
  simp only [Table.rows_modify, List.map_map]
  refine List.map_congr_left (fun a _ => ?_)
  by_cases h₁ : key a = k
  · have h₂ : key a ≠ k' := fun he => h (h₁.symm.trans he)
    simp [h₁, hf, h]
  · by_cases h₂ : key a = k'
    · simp [h₂, hg, h.symm]
    · simp [h₁, h₂]

/-- A row inserted and then rewritten is the rewritten row inserted. -/
theorem rows_insert_modify {t : Table α κ key} {a : α} {f : α → α}
    (hf : ∀ a, key (f a) = key a) (h : t.get (key a) = none) :
    ((t.insert a).modify (key a) f hf).rows = t.rows ++ [f a] := by
  rw [rows_modify, rows_insert h, List.map_append]
  congr 1
  · conv_rhs => rw [← List.map_id t.rows]
    refine List.map_congr_left (fun b hb => ?_)
    have : key b ≠ key a := get_eq_none.mp h b hb
    simp [this]
  · simp

end Table

end Isolation
