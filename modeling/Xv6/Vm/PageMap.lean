import Xv6.Vm.Table

/-!
# A page table is a finite map

A page table from `uvmcreate`, the allocator, and a client that maps, unmaps and clears pages in any order
(`Reach`). `PtClient` is what the client may believe: a map from virtual page numbers to the physical page and
the flags, and the pages it has from `kalloc`. `pagetable_is_map` says that the three levels of tables agree
with the map at every address after every run, whichever calls of `kalloc` fail.
-/

namespace Xv6

open Seq
open Function (update update_of_ne update_self)

/-- The abstract state. -/
structure PtClient where
  /-- The physical page and the flags of each virtual page that is mapped. -/
  map : Nat → Option (Nat × Nat)
  /-- The pages that the client has from `kalloc`. -/
  held : List Nat

/-- The calls of a client of the page table. -/
inductive PtCall where
  | kalloc
  | kfree (pa : Nat)
  /-- The client writes to a page it has. -/
  | write (pa : Nat) (w : Nat → Nat)
  /-- `mappages` of one page. -/
  | map (va pa perm : Nat)
  | unmap (va npages : Nat) (doFree : Bool)
  | clear (va : Nat)

namespace PtClient

/-- The page is mapped in the `n` virtual pages from `v`. -/
def maps (c : PtClient) (v n q : Nat) : Bool :=
  (List.range n).any fun i => (c.map (v + i)).map Prod.fst == some q

/-- What a client may call: it maps pages that are not mapped, and it has the pages that it lets `uvmunmap`
free, each mapped once in the range. -/
def Legal (c : PtClient) : PtCall → Prop
  | .kalloc => True
  | .kfree pa => pa ∈ c.held
  | .write pa _ => pa ∈ c.held
  | .map va pa perm => va % PGSIZE = 0 ∧ va < MAXVA ∧ c.map (va / PGSIZE) = none ∧
      pa % PGSIZE = 0 ∧ pa < U64 ∧ perm < 1024
  | .unmap va n doFree => va % PGSIZE = 0 ∧ va + n * PGSIZE ≤ MAXVA ∧ (doFree = true →
      ∀ v, va / PGSIZE ≤ v → v < va / PGSIZE + n → ∀ m, c.map v = some m → m.1 ∈ c.held ∧
        ∀ w, va / PGSIZE ≤ w → w < va / PGSIZE + n → ∀ m', c.map w = some m' → m'.1 = m.1 → w = v)
  | .clear va => va < MAXVA

/-- What a call does to the abstract state, when it returns `res`. -/
def step (c : PtClient) : PtCall → Option Nat → PtClient
  | .kalloc, none => c
  | .kalloc, some q => { c with held := q :: c.held }
  | .kfree pa, _ => { c with held := c.held.erase pa }
  | .write _ _, _ => c
  | .map _ _ _, none => c
  | .map va pa perm, some _ => { c with map := update c.map (va / PGSIZE) (some (pa, perm ||| PTE_V)) }
  | .unmap va n doFree, _ =>
    { map := fun v => if va / PGSIZE ≤ v ∧ v < va / PGSIZE + n then none else c.map v
      held := if doFree then c.held.filter fun q => !c.maps (va / PGSIZE) n q else c.held }
  | .clear va, _ =>
    { c with map := update c.map (va / PGSIZE) ((c.map (va / PGSIZE)).map fun m => (m.1, pteClearU m.2)) }

end PtClient

/-- The abstract state of a new page table. -/
def PtClient.empty : PtClient := ⟨fun _ => none, []⟩

section

variable [K : Layout]

/-- The code of a call; `0` is `some 0` and `-1` is `none`. -/
def PtCall.run (r : Nat) : PtCall → KM (Option Nat)
  | .kalloc => Xv6.kalloc
  | .kfree pa => do
    Xv6.kfree pa
    pure (some 0)
  | .write pa w => do
    M.modify (·.setPage pa w)
    pure (some 0)
  | .map va pa perm => do
    if ← mappages r va PGSIZE pa perm then pure (some 0) else pure none
  | .unmap va npages doFree => do
    uvmunmap r va npages doFree
    pure (some 0)
  | .clear va => do
    uvmclear r va
    pure (some 0)

/-- The states after any sequence of calls, from the state `k₁` after `uvmcreate`. -/
inductive PtReach (r : Nat) (k₁ : Kmem) : Kmem → PtClient → Prop
  | start : PtReach r k₁ k₁ .empty
  | call {k k' : Kmem} {c : PtClient} {call : PtCall} {res : Option Nat} : PtReach r k₁ k c → c.Legal call →
      call.run r k = .ok (res, k') → PtReach r k₁ k' (c.step call res)

/-! ## The invariant -/

/-- The leaf of a virtual page is the one of the map. -/
def LeafIs (pte : Nat) (m : Option (Nat × Nat)) : Prop :=
  (m = none ∧ pte = 0) ∨ ∃ pa perm, m = some (pa, perm ||| PTE_V) ∧ pte = mkPte pa perm ∧ pa % PGSIZE = 0 ∧
    pa < U64 ∧ perm < 1024

/-- The memory holds the table of the abstract state. -/
structure Rep (k : Kmem) (own : Nat → Owner) (r : Nat) (L : Nat → Nat) (c : PtClient) : Prop where
  table : Local k own r L
  held : ∀ q, q ∈ c.held ↔ own q = .held
  nodup : c.held.Nodup
  noUser : ∀ q v, own q ≠ .user r v
  leaf : ∀ v < MAXVA / PGSIZE, LeafIs (L v) (c.map v)

variable {E : Panic → Prop} {k k₀ k₁ : Kmem} {own own' : Nat → Owner} {r : Nat} {L : Nat → Nat} {c : PtClient}

omit K in
theorem or_one (n : Nat) : n ||| PTE_V = n / 2 * 2 + 1 := by
  have h1 : (n ||| 1) / 2 = n / 2 := by simpa using Nat.or_div_two (a := n) (b := 1)
  have h2 : (n ||| 1) % 2 = 1 := by simp
  show n ||| 1 = _
  omega

omit K in
theorem LeafIs.clear {pte : Nat} {m : Option (Nat × Nat)} (h : LeafIs pte m) :
    LeafIs (pteClearU pte) (m.map fun m => (m.1, pteClearU m.2)) := by
  rcases h with ⟨rfl, rfl⟩ | ⟨pa, perm, rfl, rfl, h1, h2, h3⟩
  · exact .inl ⟨rfl, rfl⟩
  · refine .inr ⟨pa, pteClearU perm, ?_, ?_, h1, h2, ?_⟩
    · simp only [Option.map_some, or_one, pteClearU, Option.some.injEq, Prod.mk.injEq, true_and]
      omega
    · simp only [pteClearU, mkPte]
      omega
    · simp only [pteClearU]
      omega

variable {va pa v n q : Nat}

/-- The owners after free pages became tables. -/
theorem Rep.of_tabled {k' : Kmem} {L' : Nat → Nat} {c' : PtClient} (h : Rep k own r L c)
    (ht : Tabled r va k k' own own') (hl : Local k' own' r L') (hc : c'.held = c.held)
    (hm : ∀ v < MAXVA / PGSIZE, LeafIs (L' v) (c'.map v)) : Rep k' own' r L' c' where
  table := hl
  held q := by
    rw [hc, h.held q]
    exact ⟨fun hq => ht.taken.keep hq (by simp), fun hq => ht.taken.back hq rfl⟩
  nodup := hc ▸ h.nodup
  noUser q v hq := h.noUser q v (ht.taken.back hq rfl)
  leaf := hm

omit K in
theorem Rep.vpn_lt (hva : va < MAXVA) : va / PGSIZE < MAXVA / PGSIZE := by
  simp only [MAXVA, PGSIZE] at hva ⊢
  omega

/-! ## One call -/

theorem kalloc_rep (h : Rep k own r L c) :
    wp E (PtCall.run r .kalloc) k fun res k' => ∃ own' L', Rep k' own' r L' (c.step .kalloc res) := by
  refine (kalloc_local h.table).mono fun res k' hres => ?_
  rcases hres with ⟨rfl, -, h', -, -⟩ | ⟨q, rfl, -, hq, -, h', -⟩
  · exact ⟨own, L, { h with table := h' }⟩
  · refine ⟨_, L, ⟨h', fun q' => ?_, ?_, fun q' v => ?_, h.leaf⟩⟩
    · by_cases e : q' = q
      · subst e
        simp [PtClient.step]
      · rw [update_of_ne e, ← h.held q']
        simp [PtClient.step, e]
    · refine List.nodup_cons.mpr ⟨fun hin => ?_, h.nodup⟩
      rw [h.held, hq] at hin
      cases hin
    · by_cases e : q' = q
      · subst e
        rw [update_self]
        simp
      · rw [update_of_ne e]
        exact h.noUser q' v

theorem kfree_rep (h : Rep k own r L c) (hpa : pa ∈ c.held) :
    wp E (PtCall.run r (.kfree pa)) k fun res k' => ∃ own' L', Rep k' own' r L' (c.step (.kfree pa) res) := by
  have hown := (h.held pa).mp hpa
  have hnode : ¬ NodeOf r (own pa) := by
    rw [hown]
    exact fun hn => by cases hn.1
  rw [PtCall.run, wp_bind]
  refine wp_kfree (h.table.page pa (by rw [hown]; simp)) ?_
  have h' : Local (k.freed pa) (update own pa .free) r L :=
    h.table.push (by rw [hown]; simp) (by rw [hown]; simp) hnode rfl fun q' e => update_of_ne e _ _
  refine ⟨_, L, ⟨h', fun q => ?_, h.nodup.erase _, fun q v => ?_, h.leaf⟩⟩
  · show q ∈ c.held.erase pa ↔ _
    rw [h.nodup.mem_erase_iff, h.held]
    by_cases e : q = pa
    · subst e
      simp
    · rw [update_of_ne e]
      simp [e]
  · by_cases e : q = pa
    · subst e
      rw [update_self]
      simp
    · rw [update_of_ne e]
      exact h.noUser q v

theorem write_rep {w : Nat → Nat} (h : Rep k own r L c) (hpa : pa ∈ c.held) :
    wp E (PtCall.run r (.write pa w)) k fun res k' => ∃ own' L', Rep k' own' r L' (c.step (.write pa w) res) := by
  have hown := (h.held pa).mp hpa
  refine ⟨own, L, { h with table := h.table.fill (fun hn => ?_) w }⟩
  rw [hown] at hn
  cases hn.1

theorem map_rep {perm : Nat} (h : Rep k own r L c) (hleg : c.Legal (.map va pa perm)) :
    wp E (PtCall.run r (.map va pa perm)) k fun res k' =>
      ∃ own' L', Rep k' own' r L' (c.step (.map va pa perm) res) := by
  obtain ⟨hal, hva, hnone, hpa, hpa', hperm⟩ := hleg
  have hv := Rep.vpn_lt hva
  have h0 : L (va / PGSIZE) = 0 := by
    rcases h.leaf _ hv with ⟨-, h0⟩ | ⟨pa, perm, e, -⟩
    · exact h0
    · rw [hnone] at e
      cases e
  rw [PtCall.run, mappages_one hal, wp_bind]
  refine (mapPage_local h.table hva fun hn => absurd h0 hn).mono fun ok k' ⟨own', ht, hres⟩ => ?_
  rcases hres with ⟨rfl, -, h'⟩ | ⟨rfl, -, -, -, h'⟩
  · exact ⟨own', L, h.of_tabled ht h' rfl h.leaf⟩
  · refine ⟨own', _, h.of_tabled ht h' rfl fun v hlt => ?_⟩
    show LeafIs _ (update c.map (va / PGSIZE) _ v)
    by_cases e : v = va / PGSIZE
    · subst e
      rw [update_self, update_self]
      exact .inr ⟨pa, perm, rfl, rfl, hpa, hpa', hperm⟩
    · rw [update_of_ne e, update_of_ne e]
      exact h.leaf v hlt

theorem clear_rep (h : Rep k own r L c) (hva : va < MAXVA) (hE : c.map (va / PGSIZE) = none → E .uvmclear) :
    wp E (PtCall.run r (.clear va)) k fun res k' => ∃ own' L', Rep k' own' r L' (c.step (.clear va) res) := by
  have hv := Rep.vpn_lt hva
  rw [PtCall.run, wp_bind]
  refine (uvmclear_local h.table hva fun h0 => hE ?_).mono fun _ k' ⟨h', _, _⟩ => ?_
  · rcases h.leaf _ hv with ⟨e, -⟩ | ⟨pa, perm, -, e, -⟩
    · exact e
    · exact absurd (e.symm.trans h0) mkPte_ne_zero
  · refine ⟨own, _, ⟨h', h.held, h.nodup, h.noUser, fun v hlt => ?_⟩⟩
    show LeafIs _ (update c.map (va / PGSIZE) _ v)
    by_cases e : v = va / PGSIZE
    · subst e
      rw [update_self, update_self]
      exact (h.leaf _ hlt).clear
    · rw [update_of_ne e, update_of_ne e]
      exact h.leaf v hlt

omit K in
theorem PtClient.maps_iff : c.maps v n q = true ↔ ∃ w, v ≤ w ∧ w < v + n ∧ ∃ m, c.map w = some m ∧ m.1 = q := by
  simp only [PtClient.maps, List.any_eq_true, List.mem_range, beq_iff_eq, Option.map_eq_some_iff]
  constructor
  · intro ⟨i, hi, m, hm, e⟩
    exact ⟨v + i, by omega, by omega, m, hm, e⟩
  · intro ⟨w, h1, h2, m, hm, e⟩
    exact ⟨w - v, by omega, m, by rwa [Nat.add_sub_cancel' h1], e⟩

/-- Pages that the client has become the table's, as far as the owners go. -/
theorem Local.of_held (h : Local k own r L)
    (ho : ∀ q, own' q = own q ∨ own q = .held ∧ ∃ w, own' q = .user r w) : Local k own' r L where
  nodup := h.nodup
  free q := by
    rw [h.free q]
    rcases ho q with e | ⟨e, w, e'⟩
    · rw [e]
    · rw [e, e']
      simp
  page q hq := by
    refine h.page q ?_
    rcases ho q with e | ⟨e, -⟩
    · rwa [← e]
    · rw [e]
      simp
  pt := by
    refine h.pt.congr (fun q o h1 h2 => ?_) fun _ _ _ => rfl
    rcases ho q with e | ⟨e, w, e'⟩
    · rw [e]
    · rw [e, e']
      constructor
      · rintro rfl
        cases h2
      · rintro rfl
        cases h2

open Classical in
/-- The owners in the eyes of `uvmunmap`, which frees the pages that the range maps. -/
noncomputable def claimed (own : Nat → Owner) (r : Nat) (c : PtClient) (v n : Nat) : Nat → Owner := fun q =>
  if h : ∃ w, v ≤ w ∧ w < v + n ∧ ∃ m, c.map w = some m ∧ m.1 = q then .user r h.choose else own q

omit K in
theorem claimed_of_maps (own : Nat → Owner) (r : Nat) (h : c.maps v n q = true) :
    ∃ w, claimed own r c v n q = .user r w ∧ v ≤ w ∧ w < v + n ∧ ∃ m, c.map w = some m ∧ m.1 = q := by
  have hex := PtClient.maps_iff.mp h
  exact ⟨hex.choose, dif_pos hex, hex.choose_spec⟩

omit K in
theorem claimed_of_not (h : c.maps v n q = false) : claimed own r c v n q = own q :=
  dif_neg fun hex => by
    rw [PtClient.maps_iff.mpr hex] at h
    cases h

theorem Rep.claim (h : Rep k own r L c) (hleg : c.Legal (.unmap va n true)) :
    Local k (claimed own r c (va / PGSIZE) n) r L ∧
      ∀ w, va / PGSIZE ≤ w → w < va / PGSIZE + n → OwnedAt (claimed own r c (va / PGSIZE) n) r L w := by
  obtain ⟨hal, hmax, hheld⟩ := hleg
  have hheld := hheld rfl
  refine ⟨h.table.of_held fun q => ?_, fun w h1 h2 => ?_⟩
  · cases hq : c.maps (va / PGSIZE) n q with
    | false => exact .inl (claimed_of_not hq)
    | true =>
      obtain ⟨w, e, h1, h2, m, hm, rfl⟩ := claimed_of_maps own r hq
      exact .inr ⟨(h.held _).mp (hheld w h1 h2 m hm).1, w, e⟩
  · have hw : w < MAXVA / PGSIZE := by
      simp only [MAXVA, PGSIZE] at *
      omega
    -- a page of `w` is the one that the map has there
    have hback : ∀ q, claimed own r c (va / PGSIZE) n q = .user r w → ∃ m, c.map w = some m ∧ m.1 = q := by
      intro q hq
      cases hm : c.maps (va / PGSIZE) n q with
      | false =>
        rw [claimed_of_not hm] at hq
        exact absurd hq (h.noUser q w)
      | true =>
        obtain ⟨w', e, -, -, hm'⟩ := claimed_of_maps own r hm
        rw [e] at hq
        cases hq
        exact hm'
    rcases h.leaf w hw with ⟨hnone, h0⟩ | ⟨pa, perm, hsome, hL, -, -, hperm⟩
    · refine .inl ⟨h0, fun q hq => ?_⟩
      obtain ⟨m, hm, -⟩ := hback q hq
      rw [hnone] at hm
      cases hm
    · obtain ⟨w', e, h1', h2', m, hm, hpa⟩ := claimed_of_maps own r
        (PtClient.maps_iff.mpr ⟨w, h1, h2, _, hsome, rfl⟩)
      obtain rfl : w' = w := (hheld w h1 h2 _ hsome).2 w' h1' h2' m hm hpa
      refine .inr ⟨pa, perm, e, hL, hperm, fun q hq => ?_⟩
      obtain ⟨m', hm', rfl⟩ := hback q hq
      rw [hm] at hm'
      cases hm'
      exact hpa

theorem unmap_rep {doFree : Bool} (h : Rep k own r L c) (hleg : c.Legal (.unmap va n doFree)) :
    wp E (PtCall.run r (.unmap va n doFree)) k fun res k' =>
      ∃ own' L', Rep k' own' r L' (c.step (.unmap va n doFree) res) := by
  obtain ⟨hal, hmax, -⟩ := id hleg
  have hleaf : ∀ v < MAXVA / PGSIZE, LeafIs (clearRange L (va / PGSIZE) n v)
      (if va / PGSIZE ≤ v ∧ v < va / PGSIZE + n then none else c.map v) := by
    intro v hv
    unfold clearRange
    split
    · exact .inl ⟨rfl, rfl⟩
    · exact h.leaf v hv
  rw [PtCall.run, wp_bind]
  cases doFree with
  | false =>
    exact (uvmunmap_local h.table hal hmax (by simp)).mono fun _ k' ⟨h', _⟩ =>
      ⟨own, _, ⟨h', h.held, h.nodup, h.noUser, hleaf⟩⟩
  | true =>
    obtain ⟨hcl, hown⟩ := h.claim hleg
    refine (uvmunmap_local hcl hal hmax fun _ => hown).mono fun _ k' ⟨h', _⟩ => ⟨_, _, h', fun q => ?_, ?_, ?_, hleaf⟩
    · show q ∈ c.held.filter (fun q => !c.maps (va / PGSIZE) n q) ↔ release _ _ _ _ q = _
      rw [List.mem_filter, h.held q]
      cases hq : c.maps (va / PGSIZE) n q with
      | false =>
        rw [release_keep, claimed_of_not hq]
        · simp
        · intro w _ _
          rw [claimed_of_not hq]
          exact h.noUser q w
      | true =>
        obtain ⟨w, e, h1, h2, -⟩ := claimed_of_maps own r hq
        rw [release_user e h1 h2]
        simp
    · exact h.nodup.filter _
    · intro q v hq
      rcases release_cases (claimed own r c (va / PGSIZE) n) r (va / PGSIZE) n q with
        ⟨e, hk⟩ | ⟨e, -⟩
      · have hq' := e.symm.trans hq
        cases hm : c.maps (va / PGSIZE) n q with
        | false =>
          rw [claimed_of_not hm] at hq'
          exact h.noUser q v hq'
        | true =>
          obtain ⟨w, e', h1, h2, -⟩ := claimed_of_maps own r hm
          exact hk w h1 h2 e'
      · have hq' := e.symm.trans hq
        cases hq'

/-- Every call that a client may make does to the table what it does to the map; only `uvmclear` of a page
that is not mapped can panic. -/
theorem PtCall.run_rep (call : PtCall) (h : Rep k own r L c) (hleg : c.Legal call)
    (hE : ∀ va, call = .clear va → c.map (va / PGSIZE) = none → E .uvmclear) :
    wp E (call.run r) k fun res k' => ∃ own' L', Rep k' own' r L' (c.step call res) := by
  cases call with
  | kalloc => exact kalloc_rep h
  | kfree pa => exact kfree_rep h hleg
  | write pa w => exact write_rep h hleg
  | map va pa perm => exact map_rep h hleg
  | unmap va n doFree => exact unmap_rep h hleg
  | clear va => exact clear_rep h hleg (hE va rfl)

/-! ## Every run -/

/-- The pages on the free list are pages, each once. -/
def FreeOk (k : Kmem) : Prop := k.freelist.Nodup ∧ ∀ q ∈ k.freelist, IsPage q

/-- A table from `uvmcreate` is the empty map. -/
theorem uvmcreate_rep (h : FreeOk k₀) (hr : uvmcreate k₀ = .ok (some r, k₁)) : ∃ own L, Rep k₁ own r L .empty := by
  classical
  unfold uvmcreate at hr
  obtain ⟨res, k', hk, hr⟩ := bind_ok hr
  cases res with
  | none => cases hr
  | some q =>
    cases hr
    unfold kalloc at hk
    by_cases hf : k₀.fails k₀.calls = true
    · simp [hf] at hk
    · simp only [hf, Bool.false_eq_true, if_false] at hk
      cases hl : k₀.freelist with
      | nil => simp [hl] at hk
      | cons q l =>
        simp only [hl, Except.ok.injEq, Prod.mk.injEq, Option.some.injEq] at hk
        obtain ⟨rfl, rfl⟩ := hk
        obtain ⟨hnd, hpg⟩ := h
        rw [hl, List.nodup_cons] at hnd
        rw [hl] at hpg
        -- the root, the free pages, and the rest of the memory
        let own : Nat → Owner := fun q' => if q' = q then .root q else if q' ∈ l then .free else .outside
        have hown : ∀ q', (own q').table = some q → q' = q := by
          intro q' hq'
          by_contra e
          by_cases hin : q' ∈ l <;> simp [own, e, hin, Owner.table] at hq'
        refine ⟨own, fun _ => 0, ⟨⟨hnd.2, fun q' => ?_, fun q' hq' => ?_, ?_⟩, fun q' => ?_, List.nodup_nil,
          fun q' v => ?_, fun v _ => .inl ⟨rfl, rfl⟩⟩⟩
        · by_cases e : q' = q
          · simpa [own, e, Kmem.setPage] using hnd.1
          · by_cases hin : q' ∈ l <;> simp [own, e, hin, Kmem.setPage]
        · by_cases e : q' = q
          · exact hpg q' (by simp [e])
          · by_cases hin : q' ∈ l
            · exact hpg q' (by simp [hin])
            · simp [own, e, hin] at hq'
        · exact ptOk_empty hown (by simp [own]) fun x => by simp [Kmem.setPage]
        · by_cases e : q' = q
          · simp [own, e, PtClient.empty]
          · by_cases hin : q' ∈ l <;> simp [own, e, hin, PtClient.empty]
        · by_cases e : q' = q
          · simp [own, e]
          · by_cases hin : q' ∈ l <;> simp [own, e, hin]

theorem PtReach.rep (hf : FreeOk k₀) (hr : uvmcreate k₀ = .ok (some r, k₁)) (h : PtReach r k₁ k c) :
    ∃ own L, Rep k own r L c := by
  induction h with
  | start => exact uvmcreate_rep hf hr
  | call _ hleg hrun ih =>
    obtain ⟨own, L, hrep⟩ := ih
    exact (PtCall.run_rep (E := fun _ => True) _ hrep hleg fun _ _ _ => trivial).ok hrun

/-- The entry that `walk(va, 0)` finds says what the map says: none, or an entry that is not valid, where
nothing is mapped; else an entry with the page and the flags. -/
def WalkAgrees (k : Kmem) (res : Option (Nat × Nat)) : Option (Nat × Nat) → Prop
  | none => ∀ e, res = some e → k.mem e.1 e.2 = 0
  | some (pa, flags) => ∃ e, res = some e ∧ pteV (k.mem e.1 e.2) = true ∧ pte2pa (k.mem e.1 e.2) = pa ∧
      pteFlags (k.mem e.1 e.2) = flags

/-- The address that `walkaddr` answers for an entry of the map; `0` for a page that is not the user's. -/
def userAddr : Option (Nat × Nat) → Nat
  | none => 0
  | some (pa, flags) => if pteU flags then pa else 0

omit K in
theorem pteU_flags (pa : Nat) {perm : Nat} : pteU (perm ||| PTE_V) = pteU (mkPte pa perm) := by
  rw [or_one]
  unfold pteU mkPte
  congr 1
  omega

/-- **A page table is a finite map.** After every sequence of calls on a page table from `uvmcreate`, with
`kalloc` failing at any of them, `walk(va, 0)` and `walkaddr(va)` agree with the abstract map for every
`va < MAXVA`, and change nothing; and every call that a client may make returns, except `uvmclear` of a page
that is not mapped, which may panic with "uvmclear". -/
theorem pagetable_is_map (hf : FreeOk k₀) (hr : uvmcreate k₀ = .ok (some r, k₁)) (h : PtReach r k₁ k c) :
    (∀ va < MAXVA,
      (∃ res, walk r va false k = .ok (res, k) ∧ WalkAgrees k res (c.map (va / PGSIZE))) ∧
      ∃ res, walkaddr r va k = .ok (res, k) ∧ res.getD 0 = userAddr (c.map (va / PGSIZE))) ∧
    ∀ call, c.Legal call → (∃ res k', call.run r k = .ok (res, k')) ∨
      ∃ va, call = .clear va ∧ c.map (va / PGSIZE) = none ∧ call.run r k = .error .uvmclear := by
  obtain ⟨own, L, hrep⟩ := h.rep hf hr
  refine ⟨fun va hva => ⟨?_, ?_⟩, fun call hleg => ?_⟩
  · obtain ⟨res, k', hrun, rfl, hres⟩ := (walk_look_local (E := fun _ => False) hrep.table hva).returns
    refine ⟨res, hrun, ?_⟩
    rcases hrep.leaf _ (Rep.vpn_lt hva) with ⟨e, h0⟩ | ⟨pa, perm, e, hL, h1, h2, h3⟩
    · rw [e]
      rcases hres with ⟨rfl, -⟩ | ⟨pt, rfl, -, hw⟩
      · intro _ he
        cases he
      · intro _ he
        cases he
        exact hw.trans h0
    · rw [e]
      rcases hres with ⟨-, h0⟩ | ⟨pt, rfl, -, hw⟩
      · exact absurd (hL.symm.trans h0) mkPte_ne_zero
      · refine ⟨_, rfl, ?_⟩
        rw [hw, hL]
        exact ⟨pteV_mkPte, pte2pa_mkPte h1 h2 h3, by rw [pteFlags_mkPte h3, or_one]⟩
  · obtain ⟨res, k', hrun, rfl, rfl⟩ := (walkaddr_local (E := fun _ => False) hrep.table hva).returns
    refine ⟨_, hrun, ?_⟩
    rcases hrep.leaf _ (Rep.vpn_lt hva) with ⟨e, h0⟩ | ⟨pa, perm, e, hL, h1, h2, h3⟩
    · rw [e, h0]
      rfl
    · rw [e, hL, userAddr, pteU_flags pa, pte2pa_mkPte h1 h2 h3]
      cases pteU (mkPte pa perm) <;> rfl
  · cases hc : call.run r k with
    | ok x => exact .inl ⟨x.1, x.2, rfl⟩
    | error e =>
      have hspec := PtCall.run_rep (E := fun e => ∃ va, call = .clear va ∧ c.map (va / PGSIZE) = none ∧
        e = .uvmclear) call hrep hleg fun va h1 h2 => ⟨va, h1, h2, rfl⟩
      obtain ⟨va, h1, h2, rfl⟩ := hspec.error hc
      exact .inr ⟨va, h1, h2, rfl⟩

end

/-- The memory of the machine with eight pages, all of them free. -/
def smallKmem : Kmem where
  mem := fun _ _ => 0
  freelist := (List.range 8).map fun i => PHYSTOP - 8 * PGSIZE + i * PGSIZE
  fails := fun _ => false
  calls := 0

theorem smallKmem_freeOk : @FreeOk smallLayout smallKmem := by
  constructor
  · decide
  · unfold IsPage smallKmem
    decide

/-- The memory after `uvmcreate`. -/
def smallTable : Kmem := { smallKmem with
  mem := update (update smallKmem.mem (PHYSTOP - 8 * PGSIZE) fun _ => 0x0505050505050505)
    (PHYSTOP - 8 * PGSIZE) fun _ => 0
  freelist := smallKmem.freelist.tail
  calls := 1 }

/-- A page mapped at `0x3000` in a new table is found at `0x3008`. -/
theorem pagetable_is_map_one : ∃ r k₁ k c, uvmcreate smallKmem = .ok (some r, k₁) ∧
    @PtReach smallLayout r k₁ k c ∧ c.map 3 = some (0x87fff000, PTE_R + PTE_U + PTE_V) ∧
    ∃ res, walkaddr r 0x3008 k = .ok (res, k) ∧ res.getD 0 = 0x87fff000 := by
  let _ := smallLayout
  have hstart : PtReach (PHYSTOP - 8 * PGSIZE) smallTable smallTable .empty := .start
  have hreach := hstart.call (c := .empty) (k := smallTable)
    (show PtClient.Legal _ (.map 0x3000 0x87fff000 (PTE_R + PTE_U)) from
    ⟨rfl, by decide, rfl, rfl, by decide, by decide⟩) rfl
  exact ⟨_, _, _, _, rfl, hreach, rfl,
    ((pagetable_is_map smallKmem_freeOk rfl hreach).1 0x3008 (by decide)).2⟩

end Xv6
