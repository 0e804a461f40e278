import Mathlib.Data.List.Basic

/-!
# A map kept in slots

A table of slots, each empty or with a key and a value. A new entry goes to the first empty slot, or
to a new slot at the end; an entry is removed by emptying its slot. While the keys in the slots are
distinct (`Distinct`), the table is a finite map: `lookup` after `put` and after `clear` is the update
of a function (`lookup_put`, `lookup_clear`). `count` counts entries.
-/

/-- A table of slots. -/
abbrev Slots (κ ν : Type) := List (Option (κ × ν))

namespace Slots

variable {κ ν : Type} [DecidableEq κ]

/-- The value of a key, and its slot: the first that has the key. -/
def lookup (l : Slots κ ν) (key : κ) : Option (ν × Nat) :=
  match l with
  | [] => none
  | none :: l => (lookup l key).map fun r => (r.1, r.2 + 1)
  | some e :: l => if e.1 = key then some (e.2, 0) else (lookup l key).map fun r => (r.1, r.2 + 1)

/-- The first empty slot, the end if there is none. -/
def free : Slots κ ν → Nat
  | [] => 0
  | none :: _ => 0
  | some _ :: l => free l + 1

/-- A store to slot `j`, which may be at the end. -/
def put (l : Slots κ ν) (j : Nat) (e : Option (κ × ν)) : Slots κ ν :=
  if j < l.length then l.set j e else l ++ [e]

/-- No two slots have one key. -/
def Distinct (l : Slots κ ν) : Prop :=
  ∀ (i j : Nat) (a b : κ × ν), l[i]? = some (some a) → l[j]? = some (some b) → a.1 = b.1 → i = j

variable {l : Slots κ ν} {key key' : κ} {v : ν} {i j : Nat}

omit [DecidableEq κ] in
theorem free_le (l : Slots κ ν) : free l ≤ l.length := by
  induction l with
  | nil => exact Nat.le_refl _
  | cons e l ih =>
    cases e with
    | none => exact Nat.zero_le _
    | some e => exact Nat.succ_le_succ ih

omit [DecidableEq κ] in
/-- The slot that is used is empty, or it is a new one. -/
theorem getElem?_free (l : Slots κ ν) : l[free l]? = none ∨ l[free l]? = some none := by
  induction l with
  | nil => exact .inl rfl
  | cons e l ih =>
    cases e with
    | none => exact .inr rfl
    | some e =>
      rw [free, List.getElem?_cons_succ]
      exact ih

omit [DecidableEq κ] in
/-- A slot that is empty is used before a new one. -/
theorem free_lt (h : l[j]? = some none) : free l < l.length := by
  induction l generalizing j with
  | nil => simp at h
  | cons e l ih =>
    cases e with
    | none => exact Nat.succ_pos _
    | some e =>
      cases j with
      | zero => cases h
      | succ j => exact Nat.succ_lt_succ (ih (by rwa [List.getElem?_cons_succ] at h))

omit [DecidableEq κ] in
theorem getElem?_put (hj : j ≤ l.length) (e : Option (κ × ν)) (i : Nat) :
    (put l j e)[i]? = if i = j then some e else l[i]? := by
  unfold put
  split
  · rename_i hlt
    rw [List.getElem?_set]
    by_cases h : i = j
    · simp [h, hlt]
    · rw [if_neg (Ne.symm h), if_neg h]
  · have he : j = l.length := by omega
    subst he
    by_cases h : i = l.length
    · rw [h, if_pos rfl, List.getElem?_append_right (Nat.le_refl _), Nat.sub_self]
      rfl
    · rw [if_neg h]
      rcases Nat.lt_or_ge i l.length with hi | hi
      · rw [List.getElem?_append_left hi]
      · rw [List.getElem?_append_right hi, List.getElem?_eq_none hi, List.getElem?_eq_none]
        simp
        omega

omit [DecidableEq κ] in
theorem Distinct.tail {e : Option (κ × ν)} (h : Distinct (e :: l)) : Distinct l := by
  intro i j a b hi hj he
  have := h (i + 1) (j + 1) a b (by rwa [List.getElem?_cons_succ]) (by rwa [List.getElem?_cons_succ]) he
  omega

theorem lookup_mem (h : lookup l key = some (v, j)) : l[j]? = some (some (key, v)) := by
  induction l generalizing j with
  | nil => cases h
  | cons e l ih =>
    cases e with
    | none =>
      obtain ⟨⟨v', j'⟩, h₁, he⟩ := Option.map_eq_some_iff.mp h
      cases he
      rw [List.getElem?_cons_succ]
      exact ih h₁
    | some e =>
      simp only [lookup] at h
      split at h
      · rename_i he
        cases h
        rw [← he]
        rfl
      · obtain ⟨⟨v', j'⟩, h₁, he⟩ := Option.map_eq_some_iff.mp h
        cases he
        rw [List.getElem?_cons_succ]
        exact ih h₁

theorem lookup_ne_none (h : l[j]? = some (some (key, v))) : lookup l key ≠ none := by
  induction l generalizing j with
  | nil => simp at h
  | cons e l ih =>
    cases e with
    | none =>
      cases j with
      | zero => cases h
      | succ j =>
        rw [List.getElem?_cons_succ] at h
        simpa [lookup] using ih h
    | some e =>
      simp only [lookup]
      split
      · exact nofun
      · rename_i hne
        cases j with
        | zero =>
          rw [List.getElem?_cons_zero] at h
          cases h
          exact absurd rfl hne
        | succ j =>
          rw [List.getElem?_cons_succ] at h
          simpa using ih h

theorem lookup_eq_none : lookup l key = none ↔ ∀ (j : Nat) (v : ν), l[j]? ≠ some (some (key, v)) := by
  constructor
  · intro h j v hj
    exact lookup_ne_none hj h
  · intro h
    cases hl : lookup l key with
    | none => rfl
    | some r => exact absurd (lookup_mem hl) (h _ _)

omit [DecidableEq κ] in
theorem distinct_cons_none : Distinct (none :: l) ↔ Distinct l := by
  refine ⟨Distinct.tail, fun h i j a b hi hj he => ?_⟩
  cases i with
  | zero => cases hi
  | succ i =>
    cases j with
    | zero => cases hj
    | succ j =>
      rw [List.getElem?_cons_succ] at hi hj
      rw [h i j a b hi hj he]

theorem distinct_cons_some {e : κ × ν} : Distinct (some e :: l) ↔ lookup l e.1 = none ∧ Distinct l := by
  constructor
  · refine fun h => ⟨lookup_eq_none.mpr fun j v hj => ?_, h.tail⟩
    have := h 0 (j + 1) e (e.1, v) rfl (by rwa [List.getElem?_cons_succ]) rfl
    omega
  · rintro ⟨hnew, h⟩ i j a b hi hj he
    rw [lookup_eq_none] at hnew
    cases i with
    | zero =>
      cases hi
      cases j with
      | zero => rfl
      | succ j =>
        rw [List.getElem?_cons_succ] at hj
        exact absurd (show l[j]? = some (some (e.1, b.2)) by rw [hj, he]) (hnew j b.2)
    | succ i =>
      rw [List.getElem?_cons_succ] at hi
      cases j with
      | zero =>
        cases hj
        exact absurd (show l[i]? = some (some (e.1, a.2)) by rw [hi, ← he]) (hnew i a.2)
      | succ j =>
        rw [List.getElem?_cons_succ] at hj
        rw [h i j a b hi hj he]

instance decidableDistinct : (l : Slots κ ν) → Decidable (Distinct l)
  | [] => .isTrue fun _ _ _ _ hi => by simp at hi
  | none :: l => @decidable_of_iff _ _ distinct_cons_none.symm (decidableDistinct l)
  | some e :: l =>
    @decidable_of_iff _ _ distinct_cons_some.symm
      (@instDecidableAnd _ _ (decidable_of_iff ((lookup l e.1).isNone = true) Option.isNone_iff_eq_none)
        (decidableDistinct l))

/-- With distinct keys, any slot with the key is the one that is found. -/
theorem Distinct.lookup_iff (h : Distinct l) : lookup l key = some (v, j) ↔ l[j]? = some (some (key, v)) := by
  refine ⟨lookup_mem, fun hj => ?_⟩
  cases hl : lookup l key with
  | none => exact absurd hl (lookup_ne_none hj)
  | some r =>
    have hr := lookup_mem hl
    have he := h _ _ _ _ hr hj rfl
    rw [he, hj] at hr
    injection hr with hr
    injection hr with hr
    injection hr with _ hv
    rw [hv, ← he]

theorem Distinct.lookup_ext {l' : Slots κ ν} (h' : Distinct l')
    (he : ∀ (j : Nat) (v : ν), l'[j]? = some (some (key, v)) ↔ l[j]? = some (some (key, v))) :
    lookup l' key = lookup l key := by
  cases hl : lookup l key with
  | none =>
    rw [lookup_eq_none] at hl ⊢
    exact fun j v hj => hl j v ((he j v).mp hj)
  | some r => exact h'.lookup_iff.mpr ((he _ _).mpr (lookup_mem hl))

/-- A new key is put in a slot that has no entry. -/
theorem Distinct.put (h : Distinct l) (hj : j ≤ l.length) (hkey : lookup l key = none) :
    Distinct (put l j (some (key, v))) := by
  rw [lookup_eq_none] at hkey
  intro i i' a b hi hi' he
  rw [getElem?_put hj] at hi hi'
  split at hi <;> split at hi'
  · omega
  · cases hi
    exact absurd hi' (by rw [show b = (key, b.2) from Prod.ext he.symm rfl]; exact hkey _ _)
  · cases hi'
    exact absurd hi (by rw [show a = (key, a.2) from Prod.ext he rfl]; exact hkey _ _)
  · exact h i i' a b hi hi' he

omit [DecidableEq κ] in
theorem Distinct.clear (h : Distinct l) (hj : j < l.length) : Distinct (Slots.put l j none) := by
  intro i i' a b hi hi' he
  rw [getElem?_put (Nat.le_of_lt hj)] at hi hi'
  split at hi <;> split at hi'
  · cases hi
  · cases hi
  · cases hi'
  · exact h i i' a b hi hi' he

/-- Only the new key has changed. -/
theorem lookup_put (h : Distinct l) (hj : j ≤ l.length) (hfree : l[j]? = none ∨ l[j]? = some none)
    (hkey : lookup l key = none) :
    lookup (put l j (some (key, v))) key' = if key' = key then some (v, j) else lookup l key' := by
  have h' := h.put (v := v) hj hkey
  split
  · rename_i he
    rw [he, h'.lookup_iff, getElem?_put hj, if_pos rfl]
  · rename_i hne
    refine h'.lookup_ext fun i v' => ?_
    rw [getElem?_put hj]
    split
    · rename_i he
      subst he
      constructor
      · intro hi
        injection hi with hi
        injection hi with hi
        injection hi with hi
        exact absurd hi.symm hne
      · intro hi
        rcases hfree with hf | hf
        · rw [hf] at hi
          cases hi
        · rw [hf] at hi
          cases hi
    · exact Iff.rfl

/-- Only the key of the slot that is emptied has changed. -/
theorem lookup_clear (h : Distinct l) (hj : lookup l key = some (v, j)) :
    lookup (put l j none) key' = if key' = key then none else lookup l key' := by
  have hmem := lookup_mem hj
  have hlt : j < l.length := (List.getElem?_eq_some_iff.mp hmem).1
  have h' : Distinct (put l j none) := h.clear hlt
  split
  · rename_i he
    subst he
    refine lookup_eq_none.mpr fun i v' => ?_
    rw [getElem?_put (Nat.le_of_lt hlt)]
    split
    · exact nofun
    · rename_i hne
      exact fun hi => hne (h i j _ _ hi hmem rfl)
  · rename_i hne
    refine h'.lookup_ext fun i v' => ?_
    rw [getElem?_put (Nat.le_of_lt hlt)]
    split
    · rename_i he
      subst he
      refine ⟨nofun, fun hi => ?_⟩
      rw [hmem] at hi
      injection hi with hi
      injection hi with hi
      injection hi with hi
      exact absurd hi.symm hne
    · exact Iff.rfl

/-! ## Counting -/

omit [DecidableEq κ] in
/-- Slots in front that are used are not taken. -/
theorem le_free {n : Nat} (h : ∀ i < n, ∃ e, l[i]? = some (some e)) : n ≤ free l := by
  by_contra hlt
  obtain ⟨e, he⟩ := h (free l) (by omega)
  rcases getElem?_free l with hf | hf
  · rw [hf] at he
    cases he
  · rw [hf] at he
    cases he

omit [DecidableEq κ] in
theorem drop_put {n : Nat} (hn : n ≤ j) (hj : j ≤ l.length) (e : Option (κ × ν)) :
    (put l j e).drop n = put (l.drop n) (j - n) e := by
  unfold put
  rw [List.length_drop]
  by_cases h : j < l.length
  · rw [if_pos h, if_pos (by omega), List.drop_set, if_neg (by omega)]
  · rw [if_neg h, if_neg (by omega), List.drop_append_of_le_length (by omega)]

/-- The number of entries that satisfy `p`. -/
def count (p : κ × ν → Bool) (l : Slots κ ν) : Nat := l.countP fun e => e.any p

section Count

variable {p q : κ × ν → Bool} {e : κ × ν}

omit [DecidableEq κ] in
theorem count_put (hfree : l[j]? = none ∨ l[j]? = some none) :
    count p (put l j (some e)) = count p l + if p e then 1 else 0 := by
  unfold count put
  split
  · rename_i hlt
    have hnone : l[j] = none := by
      rcases hfree with hf | hf
      · rw [List.getElem?_eq_getElem hlt] at hf
        cases hf
      · rw [List.getElem?_eq_getElem hlt] at hf
        injection hf
    rw [List.countP_set hlt, hnone]
    simp
  · rw [List.countP_append]
    simp [List.countP_cons]

omit [DecidableEq κ] in
theorem count_clear (hj : l[j]? = some (some e)) : count p (put l j none) + (if p e then 1 else 0) = count p l := by
  obtain ⟨hlt, hjv⟩ := List.getElem?_eq_some_iff.mp hj
  unfold count put
  rw [if_pos hlt, List.countP_set hlt, hjv]
  by_cases hp : p e
  · have hpos : 0 < l.countP fun e => e.any p :=
      List.countP_pos_iff.mpr ⟨some e, by rw [← hjv]; exact List.getElem_mem hlt, by simpa using hp⟩
    simp [hp]
    omega
  · simp [hp]

omit [DecidableEq κ] in
theorem count_congr (h : ∀ (i : Nat) (e : κ × ν), l[i]? = some (some e) → p e = q e) : count p l = count q l := by
  refine List.countP_congr fun o ho => ?_
  cases o with
  | none => exact Iff.rfl
  | some e =>
    obtain ⟨i, hi, he⟩ := List.getElem_of_mem ho
    have := h i e (by rw [List.getElem?_eq_getElem hi, he])
    simp [this]

omit [DecidableEq κ] in
theorem count_pos (hj : l[j]? = some (some e)) (hp : p e = true) : 1 ≤ count p l := by
  have := count_clear (p := p) hj
  rw [if_pos hp] at this
  omega

omit [DecidableEq κ] in
theorem count_of_empty (h : l.all Option.isNone = true) : count p l = 0 := by
  refine List.countP_eq_zero.mpr fun o ho => ?_
  have := List.all_eq_true.mp h o ho
  rw [Option.isNone_iff_eq_none] at this
  simp [this]

end Count

end Slots
