import BytecodeOpt.Proofs.Ssa.WellFormed

/-!
# Following replacements

Replacements that are made one after the other, each of a value that was not replaced before and by
one that was not replaced either, have no cycle.  Resolving a value then carries out all of them.
-/

namespace BytecodeOpt

namespace Ssa

namespace Renaming

variable {entries : List (Operand × Operand)} {r : Renaming} {v target : Operand} {x : Operand}

def keys (entries : List (Operand × Operand)) : List Operand := entries.map Prod.fst

/-- Each replacement, the latest first, is between two values that were not replaced before. -/
def Layered : List (Operand × Operand) → Prop
  | [] => True
  | (v, target) :: rest =>
    v ∉ keys rest ∧ target ≠ v ∧ target ∉ keys rest ∧ Layered rest

def image : List (Operand × Operand) → Operand → Operand
  | [], x => x
  | (v, target) :: rest, x => if image rest x = v then target else image rest x

theorem lookup_eq_none_iff : entries.lookup x = none ↔ x ∉ keys entries := by
  rw [List.lookup_eq_none_iff]
  simp only [keys, List.mem_map, Prod.exists, exists_and_right, exists_eq_right, not_exists]
  constructor
  · grind
  · grind

theorem isRenamed_iff : r.isRenamed x = true ↔ x ∈ keys r.entries := by
  rw [isRenamed, get?, Option.isSome_iff_ne_none, ne_eq, lookup_eq_none_iff, not_not]

theorem image_not_mem_keys (h : Layered entries) (x : Operand) :
    image entries x ∉ keys entries := by
  induction entries with
  | nil => simp [keys]
  | cons e rest ih =>
    obtain ⟨v, target⟩ := e
    obtain ⟨-, hne, htarget, hrest⟩ := h
    simp only [image, keys, List.map_cons, List.mem_cons, not_or]
    split
    · exact ⟨hne, htarget⟩
    · exact ⟨‹_›, ih hrest⟩

theorem lookup_ne (h : Layered entries) {x next : Operand}
    (hlookup : entries.lookup x = some next) : next ≠ x := by
  induction entries with
  | nil => simp at hlookup
  | cons e rest ih =>
    obtain ⟨v, target⟩ := e
    rw [List.lookup_cons] at hlookup
    split at hlookup
    · rename_i hx
      cases hlookup
      rw [beq_iff_eq.1 hx]
      exact h.2.1
    · exact ih h.2.2.2 hlookup

theorem follow_cons {rest : List (Operand × Operand)} (h : Layered ((v, target) :: rest)) {n : Nat}
    (hdone : follow ⟨rest⟩ n x ∉ keys rest) :
    follow ⟨(v, target) :: rest⟩ (n + 1) x =
      if follow ⟨rest⟩ n x = v then target else follow ⟨rest⟩ n x := by
  obtain ⟨hv, hne, htarget, hrest⟩ := h
  have hstop : ∀ n, follow ⟨(v, target) :: rest⟩ n target = target := by
    intro n
    have hnone : ((v, target) :: rest).lookup target = none := by
      rw [lookup_eq_none_iff]
      simpa [keys] using ⟨hne, by simpa [keys] using htarget⟩
    cases n with
    | zero => rfl
    | succ n => simp only [follow, get?, hnone]
  -- where the older replacements end, the new one applies or nothing does
  have hend : ∀ n y, y ∉ keys rest → follow ⟨(v, target) :: rest⟩ (n + 1) y =
      if y = v then target else y := by
    intro n y hy
    simp only [follow, get?, List.lookup_cons]
    by_cases hyv : y = v
    · grind
    · rw [beq_false_of_ne hyv, if_neg hyv]
      simp only [lookup_eq_none_iff.2 hy]
  induction n generalizing x with
  | zero => exact hend 0 x hdone
  | succ n ih =>
    cases hlookup : rest.lookup x with
    | none =>
      have hx := lookup_eq_none_iff.1 hlookup
      have hself : follow ⟨rest⟩ (n + 1) x = x := by simp only [follow, get?, hlookup]
      rw [hself]
      exact hend (n + 1) x hx
    | some next =>
      have hnext := lookup_ne hrest hlookup
      have hxv : x ≠ v := by
        rintro rfl
        simp [lookup_eq_none_iff.2 hv] at hlookup
      have hstep : follow ⟨rest⟩ (n + 1) x = follow ⟨rest⟩ n next := by
        simp only [follow, get?, hlookup, if_neg hnext]
      have hstep' : follow ⟨(v, target) :: rest⟩ (n + 1 + 1) x =
          follow ⟨(v, target) :: rest⟩ (n + 1) next := by
        rw [follow]
        simp only [get?, List.lookup_cons, beq_false_of_ne hxv, hlookup, if_neg hnext]
      rw [hstep] at hdone ⊢
      rw [hstep']
      exact ih hdone

theorem follow_eq_image (h : Layered entries) {n : Nat} (hn : entries.length ≤ n) (x : Operand) :
    follow ⟨entries⟩ n x = image entries x := by
  induction entries generalizing n with
  | nil => cases n <;> rfl
  | cons e rest ih =>
    obtain ⟨v, target⟩ := e
    obtain ⟨m, rfl⟩ : ∃ m, n = m + 1 := ⟨n - 1, by simp at hn; omega⟩
    have hm : rest.length ≤ m := by simpa using hn
    have hrest := ih h.2.2.2 hm
    rw [follow_cons h (by rw [hrest]; exact image_not_mem_keys h.2.2.2 x), hrest, image]

/-- Resolving carries out all replacements. -/
theorem resolve_eq_image (h : Layered r.entries) (x : Operand) : r.resolve x = image r.entries x :=
  follow_eq_image h (Nat.le_succ _) x

theorem resolve_not_renamed (h : Layered r.entries) (x : Operand) :
    r.isRenamed (r.resolve x) = false := by
  rw [Bool.eq_false_iff, ne_eq, isRenamed_iff, resolve_eq_image h]
  exact image_not_mem_keys h x

theorem resolve_of_not_renamed (h : r.isRenamed x = false) : r.resolve x = x := by
  rw [isRenamed, Option.isSome_eq_false_iff, Option.isNone_iff_eq_none] at h
  simp only [resolve, follow, h]

theorem entries_insert (h : r.isRenamed v = false) :
    (r.insert v target).entries = (v, target) :: r.entries := by
  rw [Bool.eq_false_iff, ne_eq, isRenamed_iff] at h
  simp only [insert, List.cons.injEq, true_and, List.filter_eq_self, bne_iff_ne, ne_eq]
  rintro e he rfl
  exact h (List.mem_map_of_mem he)

theorem layered_insert (h : Layered r.entries) (hv : r.isRenamed v = false)
    (htarget : r.isRenamed target = false)
    (hne : target ≠ v) : Layered (r.insert v target).entries := by
  rw [entries_insert hv]
  rw [Bool.eq_false_iff, ne_eq, isRenamed_iff] at hv htarget
  exact ⟨hv, hne, htarget, h⟩

theorem resolve_insert (h : Layered r.entries) (hv : r.isRenamed v = false)
    (htarget : r.isRenamed target = false) (hne : target ≠ v) (x : Operand) :
    (r.insert v target).resolve x = if r.resolve x = v then target else r.resolve x := by
  rw [resolve_eq_image (layered_insert h hv htarget hne), entries_insert hv, image,
    resolve_eq_image h]

theorem isRenamed_insert {v target x : Operand} (hv : r.isRenamed v = false) :
    (r.insert v target).isRenamed x = true ↔ x = v ∨ r.isRenamed x = true := by
  rw [isRenamed_iff, entries_insert hv, isRenamed_iff]
  simp [keys]

end Renaming

end Ssa

namespace Op

variable (f : Operand → Operand) (op : Op)

@[simp] theorem isTerminator_mapUses : (op.mapUses f).isTerminator = op.isTerminator := by
  cases op <;> rfl

@[simp] theorem isArgument_mapUses : (op.mapUses f).isArgument = op.isArgument := by
  cases op <;> rfl

@[simp] theorem isMoveException_mapUses : (op.mapUses f).isMoveException = op.isMoveException := by
  cases op <;> rfl

@[simp] theorem canThrow_mapUses : (op.mapUses f).canThrow = op.canThrow := by
  cases op <;> rfl

@[simp] theorem hasSideEffects_mapUses : (op.mapUses f).hasSideEffects = op.hasSideEffects := by
  cases op <;> rfl

@[simp] theorem targets_mapUses : (op.mapUses f).targets = op.targets := by
  cases op <;> rfl

variable {f op} in
theorem mapUses_of_fixed (h : ∀ v ∈ op.uses, f v = v) : op.mapUses f = op := by
  have hlist : ∀ vs : List Operand, (∀ v ∈ vs, f v = v) → vs.map f = vs := fun vs hvs =>
    (List.map_congr_left hvs).trans (List.map_id vs)
  have hoption : ∀ v : Option Operand, (∀ u ∈ v.toList, f u = u) → v.map f = v := fun v hv => by
    cases v with
    | none => rfl
    | some u => simpa using hv
  cases op with
  | invoke kind method args dest | invokeCustom site args dest | filledNewArray dest type args =>
    rw [mapUses, hlist args h]
  | branch cond left right onTrue onFalse =>
    rw [uses, List.forall_mem_cons] at h
    rw [mapUses, h.1, hoption right h.2]
  | ret value => rw [mapUses, hoption value h]
  | _ => simp_all [mapUses, uses]

theorem mapUses_id (h : ∀ v, f v = v) : op.mapUses f = op := mapUses_of_fixed fun v _ => h v

end Op

namespace Ssa

theorem map_mapUses_id (ops : List Op) : ops.map (Op.mapUses id) = ops := by
  conv_rhs => rw [← List.map_id ops]
  exact List.map_congr_left fun op _ => op.mapUses_id id fun _ => rfl

theorem Block.mapUses_id (block : Block) : block.mapUses id = block := by
  rw [Block.mapUses, map_mapUses_id]
  simp

theorem Body.replaceUses_eq_mapBlocks (body : Body) {v target : Operand} (hne : target ≠ v) :
    body.replaceUses v target = body.mapBlocks
      (·.mapUses fun u => if u = v then target else u) := by
  have hresolve : (({} : Renaming).insert v target).resolve = fun u =>
      if u = v then target else u := by
    funext u
    have hempty : ({} : Renaming).resolve u = u := Renaming.resolve_of_not_renamed rfl
    rw [Renaming.resolve_insert (r := {}) trivial rfl rfl hne, hempty]
  rw [replaceUses, rename, hresolve]
  rfl

end Ssa

end BytecodeOpt
