import Mathlib.Data.List.Basic

/-!
# Tables

What a table holds at an index after a change, where reading past the end gives a default.
-/

namespace BytecodeOpt.Table

variable {α β : Type}

theorem getD_of_lt {t : Array α} {i : Nat} {d : α} (h : i < t.size) : t.getD i d = t[i] := by
  simp [Array.getD_eq_getD_getElem?, h]

theorem getD_of_le {t : Array α} {i : Nat} {d : α} (h : t.size ≤ i) : t.getD i d = d := by
  simp [Array.getD_eq_getD_getElem?, h]

theorem getD_push (t : Array α) (a d : α) (i : Nat) :
    (t.push a).getD i d = if i = t.size then a else t.getD i d := by
  simp only [Array.getD_eq_getD_getElem?, Array.getElem?_push]
  split <;> rfl

theorem getD_modify (t : Array α) (f : α → α) (d : α) (i j : Nat) :
    (t.modify i f).getD j d = if i = j ∧ j < t.size then f (t.getD j d) else t.getD j d := by
  simp only [Array.getD_eq_getD_getElem?, Array.getElem?_modify]
  by_cases hij : i = j
  · grind
  · simp [hij]

theorem getD_setIfInBounds (t : Array α) (a d : α) (i j : Nat) :
    (t.setIfInBounds i a).getD j d = if i = j ∧ j < t.size then a else t.getD j d := by
  simp only [Array.getD_eq_getD_getElem?, Array.getElem?_setIfInBounds]
  by_cases hij : i = j
  · grind
  · simp [hij]

theorem getD_map (t : Array α) (f : α → β) (d : β) (i : Nat) :
    (t.map f).getD i d = if h : i < t.size then f t[i] else d := by
  by_cases h : i < t.size
  · simp [h]
  · simp [h]

theorem getD_replicate (n : Nat) (a d : α) (i : Nat) :
    (Array.replicate n a).getD i d = if i < n then a else d := by
  simp only [Array.getD_eq_getD_getElem?, Array.getElem?_replicate]
  split <;> rfl

theorem mem_of_lookup [BEq α] [LawfulBEq α] {entries : List (α × β)} {k : α} {v : β}
    (h : entries.lookup k = some v) : (k, v) ∈ entries := by
  obtain ⟨before, after, rfl, -⟩ := List.lookup_eq_some_iff.1 h
  simp

/-- A fold that adds to what it has, item by item. -/
theorem foldl_adds {σ α : Type} {f : σ → α → σ} {P Q : σ → Prop} {R : α → Prop} {xs : List α}
    (hf : ∀ s, P s → ∀ a ∈ xs, P (f s a) ∧ (Q (f s a) ↔ Q s ∨ R a)) {s : σ} (hs : P s) :
    P (xs.foldl f s) ∧ (Q (xs.foldl f s) ↔ Q s ∨ ∃ a ∈ xs, R a) := by
  induction xs generalizing s with
  | nil => simpa using hs
  | cons a xs ih =>
    obtain ⟨hstep, hiff⟩ := hf s hs a List.mem_cons_self
    obtain ⟨hrest, hiff'⟩ := ih (fun t ht b hb => hf t ht b (List.mem_cons_of_mem a hb)) hstep
    refine ⟨hrest, ?_⟩
    rw [List.foldl_cons, hiff', hiff, or_assoc, List.exists_mem_cons_iff]

end BytecodeOpt.Table
