import Mathlib.Algebra.Order.Floor.Div
import Mathlib.Data.List.Perm.Basic
import Mathlib.Data.List.Sort
import Mathlib.Order.Basic

/-!
# A backlog, batch by batch

A backlog is worked off in batches of at most `b`: each takes the smallest elements that are
left, in order, ties being open. Nothing is taken twice and nothing is passed over, and as
every element of a batch comes before everything it leaves, the batches together are in order.
How many batches there are is a matter of the length alone.
-/

namespace Isolation

variable {α κ : Type} [LinearOrder κ] {key : α → κ} {b : Nat} {backlog backlog' batch rest : List α}
  {batches : List (List α)}

/-- One batch of a backlog, and what it leaves. -/
structure IsBatch (key : α → κ) (b : Nat) (backlog batch rest : List α) : Prop where
  perm : backlog.Perm (batch ++ rest)
  length : batch.length = min b backlog.length
  sorted : batch.Pairwise (fun a a' => key a ≤ key a')
  least : ∀ a ∈ batch, ∀ a' ∈ rest, key a ≤ key a'

/-- There always is one. -/
theorem exists_isBatch (key : α → κ) (b : Nat) (backlog : List α) :
    ∃ batch rest, IsBatch key b backlog batch rest := by
  have htrans : ∀ a a' a'', decide (key a ≤ key a') = true → decide (key a' ≤ key a'') = true →
      decide (key a ≤ key a'') = true := fun a a' a'' h h' =>
    decide_eq_true (le_trans (of_decide_eq_true h) (of_decide_eq_true h'))
  have htotal : ∀ a a', (decide (key a ≤ key a') || decide (key a' ≤ key a))
    = true := fun a a' => by
    simpa using le_total (key a) (key a')
  have hsorted := List.pairwise_mergeSort htrans htotal backlog
  have hperm := List.mergeSort_perm backlog (fun a a' => decide (key a ≤ key a'))
  generalize backlog.mergeSort (fun a a' => decide (key a ≤ key a')) = l at hsorted hperm
  have hsplit : l = l.take b ++ l.drop b := (List.take_append_drop b l).symm
  have hordered : l.Pairwise (fun a a' => key a ≤ key a') :=
    hsorted.imp (fun h => of_decide_eq_true h)
  rw [hsplit, List.pairwise_append] at hordered
  refine ⟨l.take b, l.drop b, ?_, ?_, hordered.1, hordered.2.2⟩
  · rw [← hsplit]
    exact hperm.symm
  · rw [List.length_take, hperm.length_eq]

/-- What a number of batches has left of a backlog. -/
inductive Drain (key : α → κ) (b : Nat) (backlog : List α) : List (List α) → List α → Prop where
  | nil : Drain key b backlog [] backlog
  | snoc {batches : List (List α)} {left batch rest : List α} :
      Drain key b backlog batches left → IsBatch key b left batch rest →
        Drain key b backlog (batches ++ [batch]) rest

namespace Drain

/-- Nothing is lost, and nothing is taken twice. -/
theorem perm (h : Drain key b backlog batches rest) : backlog.Perm (batches.flatten ++ rest) := by
  induction h with
  | nil => exact .refl _
  | snoc _ hb ih =>
      refine ih.trans ((hb.perm.append_left _).trans ?_)
      simp

/-- The batches together are in order, and come before what is left. -/
theorem sorted (h : Drain key b backlog batches rest) :
    batches.flatten.Pairwise (fun a a' => key a ≤ key a')
      ∧ ∀ a ∈ batches.flatten, ∀ a' ∈ rest, key a ≤ key a' := by
  induction h with
  | nil => simp
  | @snoc batches left batch rest _ hb ih =>
      obtain ⟨hsorted, hleast⟩ := ih
      have hleft : ∀ a, a ∈ batch ∨ a ∈ rest → a ∈ left := fun a ha =>
        hb.perm.mem_iff.mpr (List.mem_append.mpr ha)
      rw [List.flatten_append, List.flatten_singleton]
      refine ⟨List.pairwise_append.mpr ⟨hsorted, hb.sorted, fun a ha a' ha' => ?_⟩,
        fun a ha a' ha' => ?_⟩
      · exact hleast a ha a' (hleft a' (.inl ha'))
      · rcases List.mem_append.mp ha with ha | ha
        · exact hleast a ha a' (hleft a' (.inr ha'))
        · exact hb.least a ha a' ha'

theorem snoc_inv (h : Drain key b backlog (batches ++ [batch]) rest) :
    ∃ left, Drain key b backlog batches left ∧ IsBatch key b left batch rest := by
  generalize hbs : batches ++ [batch] = bs at h
  cases h with
  | nil => exact absurd hbs (by simp)
  | snoc hd hb =>
      obtain ⟨rfl, hlast⟩ := List.append_inj' hbs rfl
      cases List.singleton_inj.mp hlast
      exact ⟨_, hd, hb⟩

/-- What is left is a matter of the number of batches. -/
theorem length_rest (h : Drain key b backlog batches rest) :
    rest.length = backlog.length - b * batches.length := by
  induction h with
  | nil => simp
  | @snoc batches left batch rest _ hb ih =>
      have hperm := hb.perm.length_eq
      have hlength := hb.length
      rw [List.length_append] at hperm
      rw [List.length_append, List.length_singleton, Nat.mul_add, Nat.mul_one]
      omega

/-- A batch that is not empty found something left. -/
theorem length_lt (h : Drain key b backlog (batches ++ [batch]) rest) (hne : batch ≠ []) :
    b * batches.length < backlog.length := by
  obtain ⟨left, hd, hb⟩ := h.snoc_inv
  have hleft := hd.length_rest
  have hlength := hb.length
  have hpos := List.length_pos_of_ne_nil hne
  omega

/-- There are only so many batches that are not empty. -/
theorem length_le (h : Drain key b backlog batches rest) (hb : 0 < b) (hne : [] ∉ batches) :
    batches.length ≤ backlog.length ⌈/⌉ b := by
  rcases List.eq_nil_or_concat batches with rfl | ⟨bs, batch, rfl⟩
  · exact Nat.zero_le _
  · rw [List.concat_eq_append] at h hne ⊢
    have hbatch : batch ≠ [] := by
      rintro rfl
      simp at hne
    have hlt := h.length_lt hbatch
    rw [List.length_append, List.length_singleton]
    by_contra hmany
    have hceil : backlog.length ⌈/⌉ b ≤ bs.length := by omega
    rw [ceilDiv_le_iff_le_mul hb] at hceil
    omega

/-- **After the first empty batch everything has been taken**, in as many batches as the backlog
fills. -/
theorem exhausted (h : Drain key b backlog (batches ++ [[]]) rest) (hb : 0 < b)
    (hne : [] ∉ batches) :
    rest = [] ∧ batches.length = backlog.length ⌈/⌉ b ∧ (batches.map List.length).sum
      = backlog.length
      ∧ backlog.Perm batches.flatten := by
  obtain ⟨left, hd, hlast⟩ := h.snoc_inv
  have hnone : left = [] := by
    have hlength := hlast.length
    rw [List.length_nil] at hlength
    exact List.eq_nil_of_length_eq_zero (by omega)
  subst hnone
  have hperm := hd.perm
  rw [List.append_nil] at hperm
  refine ⟨List.nil_perm.mp hlast.perm, ?_, ?_, hperm⟩
  · refine Nat.le_antisymm (hd.length_le hb hne) ?_
    have hrest := hd.length_rest
    rw [List.length_nil] at hrest
    rw [ceilDiv_le_iff_le_mul hb]
    omega
  · rw [hperm.length_eq, List.length_flatten]

end Drain

end Isolation
