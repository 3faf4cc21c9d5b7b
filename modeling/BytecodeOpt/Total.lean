/-!
# Totals

The sum of a measure over a list.
-/

namespace BytecodeOpt

def totalOf {α : Type} (measure : α → Nat) : List α → Nat
  | [] => 0
  | a :: rest => measure a + totalOf measure rest

@[simp] theorem totalOf_nil {α : Type} (measure : α → Nat) : totalOf measure [] = 0 := rfl

@[simp] theorem totalOf_cons {α : Type} (measure : α → Nat) (a : α) (rest : List α) :
    totalOf measure (a :: rest) = measure a + totalOf measure rest := rfl

@[simp] theorem totalOf_append {α : Type} (measure : α → Nat) (xs ys : List α) :
    totalOf measure (xs ++ ys) = totalOf measure xs + totalOf measure ys := by
  induction xs with
  | nil => simp
  | cons a rest ih => simp [ih, Nat.add_assoc]

theorem totalOf_eq_foldr {α : Type} (measure : α → Nat) (xs : List α) :
    totalOf measure xs = (xs.map measure).foldr (· + ·) 0 := by
  induction xs with
  | nil => rfl
  | cons a rest ih => rw [totalOf_cons, ih, List.map_cons, List.foldr_cons]

theorem totalOf_le_totalOf {α : Type} {f g : α → Nat} {xs : List α} (h : ∀ a ∈ xs, f a ≤ g a) :
    totalOf f xs ≤ totalOf g xs := by
  induction xs with
  | nil => exact Nat.le_refl 0
  | cons a rest ih =>
    exact Nat.add_le_add (h a List.mem_cons_self) (ih fun b hb => h b (List.mem_cons_of_mem a hb))

theorem totalOf_add_le_totalOf {α : Type} {f g : α → Nat} {xs : List α} (h : ∀ a ∈ xs, f a ≤ g a)
    {a : α} (ha : a ∈ xs) {n : Nat} (hn : f a + n ≤ g a) : totalOf f xs + n ≤ totalOf g xs := by
  induction xs with
  | nil => cases ha
  | cons b rest ih =>
    have hb := h b List.mem_cons_self
    have hrest := fun c hc => h c (List.mem_cons_of_mem b hc)
    rw [totalOf_cons, totalOf_cons]
    rcases List.mem_cons.1 ha with rfl | ha
    · have := totalOf_le_totalOf hrest
      omega
    · have := ih hrest ha
      omega

theorem totalOf_lt_totalOf {α : Type} {f g : α → Nat} {xs : List α} (h : ∀ a ∈ xs, f a ≤ g a)
    {a : α} (ha : a ∈ xs) (hlt : f a < g a) : totalOf f xs < totalOf g xs :=
  Nat.lt_of_succ_le (totalOf_add_le_totalOf (n := 1) h ha hlt)

theorem totalOf_le_mul {α : Type} {f : α → Nat} {xs : List α} {n : Nat} (h : ∀ a ∈ xs, f a ≤ n) :
    totalOf f xs ≤ xs.length * n := by
  induction xs with
  | nil => exact Nat.zero_le _
  | cons a rest ih =>
    have ha := h a List.mem_cons_self
    have hrest := ih fun b hb => h b (List.mem_cons_of_mem a hb)
    rw [totalOf_cons, List.length_cons, Nat.succ_mul]
    omega

end BytecodeOpt
