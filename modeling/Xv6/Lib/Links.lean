import Mathlib.Data.List.Nodup
import Mathlib.Logic.Function.Basic

/-!
# Circular doubly linked lists

Nodes with pointers `next` and `prev`. `IsRing k h l`: from the node `h`, `next` leads through the nodes of `l` and
back, and `prev` leads through them in the opposite order. A node is taken out (`unlink`) and put behind `h` (`push`) by
the usual assignments; `seek` is a loop that follows the pointers until it is back at `h`.
-/

namespace Dll

open Function (update update_of_ne update_self)

/-- The pointers of the nodes. -/
structure Links (ν : Type) where
  next : ν → ν
  prev : ν → ν

section

variable {ν : Type} {f f' : ν → ν} {a a' b c h w : ν} {l l₁ l₂ : List ν} {p : ν → Bool}

/-- `f` leads from `a` through `l` to `b`. -/
def Path (f : ν → ν) : ν → List ν → ν → Prop
  | a, [], b => f a = b
  | a, x :: l, b => f a = x ∧ Path f x l b

theorem path_append : Path f a (l₁ ++ c :: l₂) b ↔ Path f a l₁ c ∧ Path f c l₂ b := by
  induction l₁ generalizing a with
  | nil => rfl
  | cons x l₁ ih =>
    show f a = x ∧ Path f x (l₁ ++ c :: l₂) b ↔ (f a = x ∧ Path f x l₁ c) ∧ _
    rw [ih, and_assoc]

/-- Only the pointers of the start and of the nodes on the way matter. -/
theorem Path.congr (hp : Path f a l b) (ha : f' a' = f a) (hl : ∀ x ∈ l, f' x = f x) : Path f' a' l b := by
  induction l generalizing a a' with
  | nil => exact ha.trans hp
  | cons x l ih =>
    refine ⟨ha.trans hp.1, ih hp.2 (hl x List.mem_cons_self) fun y hy => ?_⟩
    exact hl y (List.mem_cons_of_mem x hy)

theorem Path.first (hp : Path f a l b) : f a = l.headD b := by
  cases l with
  | nil => exact hp
  | cons x l => exact hp.1

/-- The nodes `l` with `h` make a ring. -/
structure Links.IsRing (k : Links ν) (h : ν) (l : List ν) : Prop where
  nodup : (h :: l).Nodup
  next : Path k.next h l h
  prev : Path k.prev h l.reverse h

variable {k : Links ν}

/-- The node `h` alone. -/
theorem Links.isRing_nil (hn : k.next h = h) (hp : k.prev h = h) : k.IsRing h [] :=
  ⟨List.nodup_singleton h, hn, hp⟩

variable [DecidableEq ν]

/-- The pointer of the node before `b` goes to the one behind it. -/
theorem Path.skip (hp : Path f a (l₁ ++ b :: l₂) c) (hw : w = (a :: l₁).getLast (List.cons_ne_nil a l₁))
    (hn : (a :: (l₁ ++ b :: l₂)).Nodup) : Path (update f w (f b)) a (l₁ ++ l₂) c := by
  induction l₁ generalizing a with
  | nil =>
    cases hw
    refine hp.2.congr (update_self ..) fun x hx => update_of_ne ?_ _ _
    rintro rfl
    exact (List.nodup_cons.mp hn).1 (List.mem_cons_of_mem b hx)
  | cons x l₁ ih =>
    rw [List.getLast_cons (List.cons_ne_nil x l₁)] at hw
    obtain ⟨ha, hn'⟩ := List.nodup_cons.mp hn
    have hne : a ≠ w := by
      rintro rfl
      refine ha (List.mem_append_left _ ?_)
      rw [hw]
      exact List.getLast_mem _
    refine ⟨?_, ih hp.2 hw hn'⟩
    rw [update_of_ne hne]
    exact hp.1

/-- The loop over the nodes from `b` on until `h`, for at most `n` turns. -/
def seek (f : ν → ν) (h : ν) (p : ν → Bool) : Nat → ν → Option ν
  | 0, _ => none
  | n + 1, b => if b = h then none else if p b then some b else seek f h p n (f b)

theorem Path.seek_eq {n : Nat} (hp : Path f a l h) (hh : h ∉ l) (hn : l.length < n) :
    seek f h p n (f a) = l.find? p := by
  induction l generalizing a n with
  | nil =>
    obtain ⟨n, rfl⟩ := Nat.exists_eq_add_of_lt hn
    rw [show f a = h from hp]
    exact if_pos rfl
  | cons x l ih =>
    obtain ⟨n, rfl⟩ : ∃ m, n = m + 1 := ⟨n - 1, by omega⟩
    have hx : x ≠ h := by
      rintro rfl
      exact hh List.mem_cons_self
    rw [hp.1, seek, if_neg hx]
    cases hp' : p x with
    | true => rw [if_pos rfl, List.find?_cons_of_pos hp']
    | false =>
      rw [if_neg Bool.false_ne_true, List.find?_cons_of_neg (by simp [hp'])]
      exact ih hp.2 (fun hm => hh (List.mem_cons_of_mem x hm)) (Nat.lt_of_succ_lt_succ hn)

/-! ## Rings -/

namespace Links

/-- The node `b` is taken out. -/
def unlink (k : Links ν) (b : ν) : Links ν :=
  let k := { k with prev := update k.prev (k.next b) (k.prev b) }
  { k with next := update k.next (k.prev b) (k.next b) }

/-- The node `b` is put behind `h`. -/
def push (k : Links ν) (h b : ν) : Links ν :=
  let k := { k with next := update k.next b (k.next h) }
  let k := { k with prev := update k.prev b h }
  let k := { k with prev := update k.prev (k.next h) b }
  { k with next := update k.next h b }

theorem IsRing.unlink (hr : IsRing k h l) (hb : b ∈ l) : IsRing (k.unlink b) h (l.erase b) := by
  obtain ⟨l₁, l₂, rfl⟩ := List.append_of_mem hb
  have hn := hr.nodup
  obtain ⟨hh, hnl⟩ := List.nodup_cons.mp hn
  have hrev : (l₁ ++ b :: l₂).reverse = l₂.reverse ++ b :: l₁.reverse := by simp
  have hnext := path_append.mp hr.next
  have hprev := hr.prev
  rw [hrev] at hprev
  have hprev' := path_append.mp hprev
  -- the neighbours of `b`
  have hafter : k.next b = (h :: l₂.reverse).getLast (List.cons_ne_nil _ _) := by
    rw [hnext.2.first]
    cases l₂ <;> simp
  have hbefore : k.prev b = (h :: l₁).getLast (List.cons_ne_nil _ _) := by
    rw [hprev'.2.first]
    rcases List.eq_nil_or_concat l₁ with rfl | ⟨l, x, rfl⟩ <;> simp
  have hne : b ≠ k.next b := by
    have hd := (List.nodup_append.mp hnl).2.1
    rw [hnext.2.first]
    cases l₂ with
    | nil =>
      rintro rfl
      exact hh hb
    | cons x l₂ =>
      rintro rfl
      exact (List.nodup_cons.mp hd).1 List.mem_cons_self
  have hkeep : update k.prev (k.next b) (k.prev b) b = k.prev b := update_of_ne hne _ _
  have he : (l₁ ++ b :: l₂).erase b = l₁ ++ l₂ := by
    have hb₁ : b ∉ l₁ := fun hm => (List.nodup_append.mp hnl).2.2 b hm b List.mem_cons_self rfl
    rw [List.erase_append_right _ hb₁, List.erase_cons_head]
  rw [he]
  refine ⟨?_, ?_, ?_⟩
  · refine hn.sublist (List.Sublist.cons_cons h ?_)
    exact List.Sublist.append_left (List.sublist_cons_self b l₂) l₁
  · show Path (update k.next (update k.prev (k.next b) (k.prev b) b) (k.next b)) _ _ _
    rw [hkeep]
    exact hr.next.skip hbefore hn
  · rw [List.reverse_append]
    refine hprev.skip hafter ?_
    rw [← hrev]
    exact List.nodup_cons.mpr ⟨fun hm => hh (List.mem_reverse.mp hm), List.nodup_reverse.mpr hnl⟩

theorem IsRing.push (hr : IsRing k h l) (hb : b ∉ h :: l) : IsRing (k.push h b) h (b :: l) := by
  have hbh : h ≠ b := fun e => hb (e ▸ List.mem_cons_self)
  have hbl : b ∉ l := fun hm => hb (List.mem_cons_of_mem h hm)
  obtain ⟨hh, hnl⟩ := List.nodup_cons.mp hr.nodup
  have hfirst : update k.next b (k.next h) h = k.next h := update_of_ne hbh _ _
  refine ⟨?_, ⟨update_self .., hr.next.congr ?_ fun x hx => ?_⟩, ?_⟩
  · refine List.nodup_cons.mpr ⟨?_, List.nodup_cons.mpr ⟨hbl, hnl⟩⟩
    simp [hbh, hh]
  · show update (update k.next b (k.next h)) h b b = k.next h
    rw [update_of_ne (Ne.symm hbh), update_self]
  · show update (update k.next b (k.next h)) h b x = k.next x
    rw [update_of_ne (by rintro rfl; exact hh hx), update_of_ne (by rintro rfl; exact hbl hx)]
  · show Path (update (update k.prev b h) (update k.next b (k.next h) h) b) h _ h
    rw [hfirst, List.reverse_cons, path_append]
    have hne : b ≠ k.next h := by
      rw [hr.next.first]
      cases l with
      | nil => exact Ne.symm hbh
      | cons x l =>
        rintro rfl
        exact hbl List.mem_cons_self
    constructor
    · -- the pointer of the first node, which may be `h` itself, is the last one on this way
      cases l with
      | nil =>
        have hself : k.next h = h := hr.next
        rw [hself]
        exact update_self ..
      | cons x l =>
        have hx : k.next h = x := hr.next.1
        have hprev := hr.prev
        rw [List.reverse_cons, path_append] at hprev
        rw [hx, List.reverse_cons, path_append]
        refine ⟨hprev.1.congr ?_ fun y hy => ?_, update_self ..⟩
        · rw [update_of_ne (by rintro rfl; exact hh List.mem_cons_self), update_of_ne hbh]
        · have hy := List.mem_reverse.mp hy
          rw [update_of_ne (by rintro rfl; exact (List.nodup_cons.mp hnl).1 hy),
            update_of_ne (by rintro rfl; exact hbl (List.mem_cons_of_mem x hy))]
    · refine (update_of_ne hne _ _).trans ?_
      exact update_self ..

/-- The loop that follows `next` looks at the nodes in order. -/
theorem IsRing.seek_next {n : Nat} (hr : IsRing k h l) (hn : l.length < n) :
    seek k.next h p n (k.next h) = l.find? p :=
  hr.next.seek_eq (List.nodup_cons.mp hr.nodup).1 hn

theorem IsRing.seek_prev {n : Nat} (hr : IsRing k h l) (hn : l.length < n) :
    seek k.prev h p n (k.prev h) = l.reverse.find? p := by
  refine hr.prev.seek_eq ?_ (by rwa [List.length_reverse])
  rw [List.mem_reverse]
  exact (List.nodup_cons.mp hr.nodup).1

end Links

end

end Dll
