import Xv6.Vm.Transfer

/-!
# `copyinstr` against `copyin`

`copyinstr` goes through the same pages as `copyin` with a loop of its own. It takes a page from `walkaddr` and does not
call `vmfault`, so it fails at a page that the process has not touched yet, where `copyin` reads zeros. The two agree
exactly on the addresses where this does not happen (`LazyStop`).
-/

namespace Xv6

open Seq

/-! ## The inner loop -/

/-- The first NUL is the last byte. -/
def IsCString (ws : List UInt8) : Prop := ∃ s, ws = s ++ [0] ∧ 0 ∉ s

/-- The loop stops at the first NUL, or has stored all bytes. -/
theorem copyStr_cases (bs : List UInt8) :
    (∃ i < bs.length, (∀ j < i, bs.getD j 0 ≠ 0) ∧ bs.getD i 0 = 0 ∧ copyStr bs = (true, bs.take (i + 1))) ∨
    ((∀ j < bs.length, bs.getD j 0 ≠ 0) ∧ copyStr bs = (false, bs)) := by
  induction bs with
  | nil => exact .inr ⟨fun j hj => absurd hj (by simp), rfl⟩
  | cons c cs ih =>
    unfold copyStr
    by_cases hc : c = 0
    · exact .inl ⟨0, by simp, fun j hj => absurd hj (by omega), by simp [hc], by simp [hc]⟩
    have hcons : ∀ n, (∀ j < n, cs.getD j 0 ≠ 0) → ∀ j < n + 1, (c :: cs).getD j 0 ≠ 0 := by
      intro n hn j hj
      cases j with
      | zero => simpa using hc
      | succ j => exact hn j (by omega)
    rw [if_neg hc]
    rcases ih with ⟨i, hi, hbefore, h0, e⟩ | ⟨hall, e⟩
    · exact .inl ⟨i + 1, by simpa using hi, hcons i hbefore, by simpa using h0, by simp [e]⟩
    · exact .inr ⟨by simpa using hcons _ hall, by simp [e]⟩

section

variable [K : Layout] {E : Panic → Prop} {k : Kmem} {own : Nat → Owner}
variable {T : Nat → Option (Nat → Nat)} {r sz : Nat} {L : Nat → Nat}

/-! ## What `copyinstr` answers -/

omit K in
/-- The pages from `a` to byte `n` are user-accessible. -/
def Accessible (L : Nat → Nat) (a n : Nat) : Prop := ∀ u, a / PGSIZE ≤ u → u ≤ (a + n) / PGSIZE → pteU (L u) = true

omit K in
/-- The first NUL from `a` on is byte `n`. -/
def StringAt (f : Nat → UInt8) (a n : Nat) : Prop := (∀ i < n, f (a + i) ≠ 0) ∧ f (a + n) = 0

variable {a n m i : Nat}

omit K in
theorem StringAt.unique {f : Nat → UInt8} (h : StringAt f a n) (h' : StringAt f a m) : n = m := by
  rcases Nat.lt_trichotomy n m with hlt | rfl | hgt
  · exact absurd h.2 (h'.1 n hlt)
  · rfl
  · exact absurd h'.2 (h.1 m hgt)

omit K in
theorem ubytes_take (h : m ≤ n) : (ubytes k L a n).take m = ubytes k L a m := by
  obtain ⟨t, rfl⟩ := Nat.exists_eq_add_of_le h
  rw [ubytes_add, List.take_append_of_le_length (by simp), List.take_of_length_le (by simp)]

omit K in
theorem isCString_ubytes : IsCString (ubytes k L a (n + 1)) ↔ StringAt (ubyte k L) a n := by
  have hlast : ubytes k L a (n + 1) = ubytes k L a n ++ [ubyte k L (a + n)] := ubytes_add
  rw [hlast]
  constructor
  · intro ⟨s, e, hs⟩
    obtain ⟨rfl, hn⟩ := List.append_inj' e rfl
    refine ⟨fun i hi h0 => hs ?_, by simpa using hn⟩
    rw [← h0]
    exact List.mem_map.mpr ⟨i, List.mem_range.mpr hi, rfl⟩
  · intro ⟨hb, h0⟩
    refine ⟨_, by rw [h0], fun hmem => ?_⟩
    obtain ⟨i, hi, e⟩ := List.mem_map.mp hmem
    exact hb i (List.mem_range.mp hi) e

/-- `walkaddr` of a page, whatever the address. -/
theorem walkaddr_page (h : Local k own r L) (htop : TopOk L) :
    wp E (walkaddr r (pgRoundDown a)) k fun res k' => k' = k ∧
      res = if pteU (L (a / PGSIZE)) then some (pte2pa (L (a / PGSIZE))) else none := by
  by_cases hva : pgRoundDown a < MAXVA
  · have := walkaddr_local (E := E) h hva
    rwa [pgRoundDown_div] at this
  · refine (walkaddr_above (by omega)).mono fun res k' ⟨hk, hres⟩ => ⟨hk, ?_⟩
    rw [hres, htop, if_neg (by simp)]
    unfold pgRoundDown at hva
    simp only [PGSIZE, MAXVA, NUSER] at hva ⊢
    omega

/-- `copyinstr` finds the first NUL if the pages up to it are user-accessible. -/
theorem copyinstrToLoop_spec {fuel max : Nat} {acc : List UInt8} (h : Local k own r L) (htop : TopOk L)
    (hf : max ≤ fuel) :
    wp E (copyinstrToLoop r fuel a max acc) k fun res k' => k' = k ∧
      ((res.1 = true ∧ ∃ n < max, Accessible L a n ∧ StringAt (ubyte k L) a n ∧ res.2 = acc ++ ubytes k L a (n + 1)) ∨
        (res.1 = false ∧ res.2.length ≤ acc.length + max ∧ ∀ n < max, Accessible L a n → ubyte k L (a + n) ≠ 0)) := by
  induction fuel generalizing a max acc with
  | zero => exact ⟨rfl, .inr ⟨rfl, Nat.le_add_right _ _, fun n hn => absurd hn (by omega)⟩⟩
  | succ fuel ih =>
    unfold copyinstrToLoop
    by_cases hmax : max = 0
    · rw [if_pos hmax]
      exact ⟨rfl, .inr ⟨rfl, Nat.le_add_right _ _, fun n hn => absurd hn (by omega)⟩⟩
    rw [if_neg hmax]
    simp only
    refine (walkaddr_page h htop).bind fun res k' ⟨hk, hres⟩ => ?_
    subst hk
    by_cases hU : pteU (L (a / PGSIZE)) = true
    swap
    · rw [if_neg hU] at hres
      subst hres
      refine ⟨rfl, .inr ⟨rfl, Nat.le_add_right _ _, fun n _ hn => absurd (hn _ le_rfl ?_) hU⟩⟩
      exact Nat.div_le_div_right (by omega)
    rw [if_pos hU] at hres
    subst hres
    have hL : L (a / PGSIZE) ≠ 0 := by
      intro h0
      rw [h0] at hU
      cases hU
    have hN : a / PGSIZE < NUSER := by
      by_contra hge
      rw [htop _ (by omega)] at hU
      cases hU
    have hwrap : (a / PGSIZE + 1) * PGSIZE % U64 = (a / PGSIZE + 1) * PGSIZE := by
      refine Nat.mod_eq_of_lt ?_
      simp only [NUSER, PGSIZE, U64] at hN ⊢
      omega
    have hpos := chunk_pos (a := a) hmax
    have hle : a % PGSIZE + chunk a max ≤ PGSIZE := chunk_le
    -- a byte of this page
    have hpage : ∀ i < chunk a max, (a + i) / PGSIZE = a / PGSIZE := by
      intro i hi
      simp only [PGSIZE] at *
      omega
    simp only
    rw [wp_bind, wp_gets, sub_pgRoundDown, next_page, hwrap]
    show wp E (if (copyStr (k'.bytes _ _ (chunk a max))).1 = true then
      pure (true, acc ++ (copyStr (k'.bytes _ _ (chunk a max))).2) else
        copyinstrToLoop r fuel _ (max - chunk a max) (acc ++ (copyStr (k'.bytes _ _ (chunk a max))).2)) k' _
    rw [bytes_eq_ubytes hL rfl hle]
    have hcm : chunk a max ≤ max := by
      unfold chunk
      omega
    rcases copyStr_cases (ubytes k' L a (chunk a max)) with ⟨i, hi, hbefore, h0, e⟩ | ⟨hall, e⟩
    · rw [ubytes_length] at hi
      rw [e, if_pos rfl, ubytes_take (by omega)]
      rw [ubytes_get hi] at h0
      refine ⟨rfl, .inl ⟨rfl, i, by omega, fun u h1 h2 => ?_, ⟨fun j hj => ?_, h0⟩, rfl⟩⟩
      · rw [hpage i hi] at h2
        rwa [show u = a / PGSIZE by omega]
      · have := hbefore j hj
        rwa [ubytes_get (by omega)] at this
    · rw [e, if_neg (by simp)]
      have hall' : ∀ j < chunk a max, ubyte k' L (a + j) ≠ 0 := by
        intro j hj
        have := hall j (by rwa [ubytes_length])
        rwa [ubytes_get hj] at this
      refine (ih (by omega)).mono fun res k'' ⟨hk, hres⟩ => ⟨hk, ?_⟩
      rcases hres with ⟨hok, n, hn, hacc, hstr, hres⟩ | ⟨hok, hlen, hno⟩
      · -- the string goes on on the next page
        have hnext : a + chunk a max = (a / PGSIZE + 1) * PGSIZE := chunk_next (by omega)
        rw [← hnext] at hacc hstr hres
        refine .inl ⟨hok, chunk a max + n, by omega, fun u h1 h2 => ?_, ⟨fun j hj => ?_, ?_⟩, ?_⟩
        · by_cases hu : u = a / PGSIZE
          · rwa [hu]
          · refine hacc u ?_ (by rwa [Nat.add_assoc])
            rw [hnext, mul_pgsize_div]
            omega
        · by_cases hj' : j < chunk a max
          · exact hall' j hj'
          · have := hstr.1 (j - chunk a max) (by omega)
            rwa [Nat.add_assoc, Nat.add_sub_cancel' (by omega)] at this
        · rw [← Nat.add_assoc]
          exact hstr.2
        · rw [hres, Nat.add_assoc, List.append_assoc]
          exact congrArg _ ubytes_add.symm
      · refine .inr ⟨hok, ?_, fun n hn hacc => ?_⟩
        · rw [List.length_append, ubytes_length] at hlen
          omega
        · by_cases hn' : n < chunk a max
          · exact hall' n hn'
          · have hnext : a + chunk a max = (a / PGSIZE + 1) * PGSIZE := chunk_next (by omega)
            rw [← hnext] at hno
            have := hno (n - chunk a max) (by omega) fun u h1 h2 => hacc u ?_ ?_
            · rwa [Nat.add_assoc, Nat.add_sub_cancel' (by omega)] at this
            · rw [hnext, mul_pgsize_div] at h1
              omega
            · rwa [Nat.add_assoc, Nat.add_sub_cancel' (by omega)] at h2

/-- `copyinstr` changes nothing, and answers fewer than `max` bytes. -/
theorem copyinstr_spec {max : Nat} (h : MemInv k own T) (hT : T r = some L) (htop : TopOk L) :
    wp E (copyinstr r a max) k fun res k' => k' = k ∧ ∀ bs, res = some bs → bs.length < max := by
  refine (copyinstrToLoop_spec (h.toLocal hT) htop le_rfl).bind fun res k' ⟨hk, hres⟩ => ⟨hk, fun bs e => ?_⟩
  rcases hres with ⟨hok, n, hn, -, -, hbs⟩ | ⟨hok, -⟩
  · rw [hok, hbs] at e
    obtain rfl := Option.some.inj e
    simpa using hn
  · rw [hok] at e
    cases e

/-! ## When the two agree -/

omit K in
theorem pageRange_touched {u : Nat} :
    PageRange (a / PGSIZE) (touched a (n + 1)) u ↔ a / PGSIZE ≤ u ∧ u ≤ (a + n) / PGSIZE := by
  unfold PageRange touched
  rw [if_neg (by omega)]
  simp only [PGSIZE]
  omega

/-- `copyin` succeeds exactly if the pages are usable, and answers the bytes there. -/
theorem copyin_some_iff {len : Nat} {ws : List UInt8} (h : MemInv k own T) (hT : T r = some L) (hsz : sz ≤ TRAPFRAME)
    (htop : TopOk L) : (∃ k', copyin sz r r a len k = .ok (some ws, k')) ↔
      UsableRange k r L sz false (a / PGSIZE) (touched a len) ∧ ws = ubytes k L a len := by
  have hspec : wp (fun _ => False) (copyinToLoop sz r r len a len []) k _ := copyinToLoop_exact h hT hsz htop le_rfl
  obtain ⟨⟨ok, bs⟩, k', hrun, own', L', j, hend, hok, hbs, -⟩ := hspec.returns
  have e : copyin sz r r a len k = .ok (if ok then some bs else none, k') := by
    rw [copyin_eq, show copyinTo sz r r a len k = .ok ((ok, bs), k') from hrun]
    rfl
  rw [e, ← hend.reached.eq_iff, ← show (ok = true ↔ _) from hok]
  simp only [List.nil_append] at hbs
  cases ok with
  | false => simp
  | true =>
    have hj := hok.mp rfl
    rw [moved_all hj] at hbs
    simp only [if_true, true_and]
    constructor
    · rintro ⟨k'', e⟩
      cases e
      exact hbs
    · rintro rfl
      exact ⟨k', by rw [hbs]⟩

/-- `copyinstr` with the answer `ok` and the bytes `bs` agrees with `copyin`. -/
def AgreesWithCopyin (sz r a max : Nat) (k : Kmem) (ok : Bool) (bs : List UInt8) : Prop :=
  (ok = true ↔ ∃ n < max, ∃ ws, (∃ k', copyin sz r r a (n + 1) k = .ok (some ws, k')) ∧ IsCString ws) ∧
  (ok = true → ∀ n < max, ∀ ws, (∃ k', copyin sz r r a (n + 1) k = .ok (some ws, k')) → IsCString ws → bs = ws) ∧
  bs.length ≤ max

omit K in
/-- From `a` on there are user-accessible pages with no NUL and fewer than `max` bytes, then a page that `vmfault`
would map. -/
def LazyStop (k : Kmem) (r : Nat) (L : Nat → Nat) (sz a max : Nat) : Prop :=
  ∃ i, (∀ u, PageRange (a / PGSIZE) i u → pteU (L u) = true) ∧ i * PGSIZE - a % PGSIZE < max ∧
    (∀ b < i * PGSIZE - a % PGSIZE, ubyte k L (a + b) ≠ 0) ∧ L (a / PGSIZE + i) = 0 ∧
    (a / PGSIZE + i) * PGSIZE < sz ∧ CanAlloc k (1 + missing k r ((a / PGSIZE + i) * PGSIZE))

omit K in
theorem Accessible.usableRange (h : Accessible L a n) (htop : TopOk L) :
    UsableRange k r L sz false (a / PGSIZE) (touched a (n + 1)) := by
  refine ⟨fun u hu => ?_, ?_⟩
  · obtain ⟨h1, h2⟩ := pageRange_touched.mp hu
    have hU := h u h1 h2
    refine ⟨?_, .inl ⟨hU, by simp⟩⟩
    by_contra hge
    rw [htop u (by simp only [PGSIZE, MAXVA, NUSER] at *; omega)] at hU
    cases hU
  · have e : unmapped L (a / PGSIZE) (touched a (n + 1)) = ∅ := by
      refine Finset.filter_eq_empty_iff.mpr fun u hu h0 => ?_
      obtain ⟨h1, h2⟩ := pageRange_touched.mp (Finset.mem_Ico.mp hu)
      have hU := h u h1 h2
      rw [h0] at hU
      cases hU
    rw [e]
    exact .zero

omit K in
/-- The page where `copyinstr` stops starts at the byte after those that it has read. -/
theorem lazy_page : (a + (i * PGSIZE - a % PGSIZE)) / PGSIZE = a / PGSIZE + i := by
  cases i with
  | zero => simp
  | succ i =>
    simp only [PGSIZE]
    omega

omit K in
theorem LazyStop.usableRange (hi : ∀ u, PageRange (a / PGSIZE) i u → pteU (L u) = true)
    (h0 : L (a / PGSIZE + i) = 0) (hlt : (a / PGSIZE + i) * PGSIZE < sz) (hsz : sz ≤ TRAPFRAME)
    (hc : CanAlloc k (1 + missing k r ((a / PGSIZE + i) * PGSIZE))) (htop : TopOk L) :
    UsableRange k r L sz false (a / PGSIZE) (touched a (i * PGSIZE - a % PGSIZE + 1)) := by
  have hrange : ∀ u, PageRange (a / PGSIZE) (touched a (i * PGSIZE - a % PGSIZE + 1)) u ↔
      PageRange (a / PGSIZE) i u ∨ u = a / PGSIZE + i := by
    intro u
    rw [pageRange_touched, lazy_page, ← pageRange_succ]
    unfold PageRange
    omega
  have hN : a / PGSIZE + i < NUSER := by
    simp only [PGSIZE, NUSER, TRAPFRAME, TRAMPOLINE, MAXVA] at hlt hsz ⊢
    omega
  refine ⟨fun u hu => ?_, ?_⟩
  · rcases (hrange u).mp hu with hu | rfl
    · have hU := hi u hu
      refine ⟨?_, .inl ⟨hU, by simp⟩⟩
      by_contra hge
      rw [htop u (by simp only [PGSIZE, MAXVA, NUSER] at *; omega)] at hU
      cases hU
    · refine ⟨?_, .inr ⟨h0, hlt⟩⟩
      simp only [PGSIZE, MAXVA, NUSER] at hN ⊢
      omega
  · have e : unmapped L (a / PGSIZE) (touched a (i * PGSIZE - a % PGSIZE + 1)) =
        insert (a / PGSIZE + i) (unmapped L (a / PGSIZE + i + 1) 0) := by
      ext u
      simp only [unmapped, Finset.mem_filter, Finset.mem_Ico, Finset.mem_insert]
      constructor
      · rintro ⟨hu, hL⟩
        rcases (hrange u).mp hu with hu | rfl
        · have hU := hi u hu
          rw [hL] at hU
          cases hU
        · exact .inl rfl
      · rintro (rfl | ⟨hu, -⟩)
        · exact ⟨(hrange _).mpr (.inr rfl), h0⟩
        · omega
    rw [e, needs_singleton hN]
    exact hc

omit K in
/-- A range that is usable but not accessible has a page that `vmfault` maps after accessible ones. -/
theorem exists_lazy (hu : UsableRange k r L sz false (a / PGSIZE) (touched a (n + 1)))
    (hno : ¬ Accessible L a n) (hsz : sz ≤ TRAPFRAME) :
    ∃ i, (∀ u, PageRange (a / PGSIZE) i u → pteU (L u) = true) ∧ i * PGSIZE - a % PGSIZE ≤ n ∧
      L (a / PGSIZE + i) = 0 ∧ (a / PGSIZE + i) * PGSIZE < sz ∧
      CanAlloc k (1 + missing k r ((a / PGSIZE + i) * PGSIZE)) := by
  -- the first page that is not accessible
  have hex : ∃ i, a / PGSIZE + i ≤ (a + n) / PGSIZE ∧ pteU (L (a / PGSIZE + i)) = false := by
    by_contra hc
    refine hno fun u h1 h2 => ?_
    by_contra hU
    exact hc ⟨u - a / PGSIZE, by rwa [Nat.add_sub_cancel' h1], by
      rw [Nat.add_sub_cancel' h1]
      simpa using hU⟩
  obtain ⟨hle, hU⟩ := Nat.find_spec hex
  have hin := pageRange_touched.mpr ⟨Nat.le_add_right (a / PGSIZE) (Nat.find hex), hle⟩
  obtain ⟨-, ⟨hU', -⟩ | ⟨h0, hlt⟩⟩ := hu.1 _ hin
  · rw [hU] at hU'
    cases hU'
  refine ⟨Nat.find hex, fun u hu' => ?_, ?_, h0, hlt, ?_⟩
  · have hmin := Nat.find_min hex (m := u - a / PGSIZE) (by have := hu'.1; have := hu'.2; omega)
    rw [Nat.add_sub_cancel' hu'.1] at hmin
    by_contra hc
    exact hmin ⟨by have := hu'.2; omega, by simpa using hc⟩
  · simp only [PGSIZE] at hle ⊢
    omega
  · have hN : a / PGSIZE + Nat.find hex < NUSER := by
      simp only [PGSIZE, NUSER, TRAPFRAME, TRAMPOLINE, MAXVA] at hlt hsz ⊢
      omega
    refine hu.2.mono ?_
    rw [← needs_singleton (L := L) hN]
    refine needs_mono fun u hu' => ?_
    simp only [unmapped, Finset.mem_filter, Finset.mem_Ico, Finset.mem_insert] at hu' ⊢
    rcases hu' with rfl | ⟨hu', -⟩
    · exact ⟨hin, h0⟩
    · omega

/-- **`copyinstr` agrees with `copyin` exactly where it does not stop at a page that has not been touched yet.** -/
theorem copyinstr_agrees_iff (h : MemInv k own T) (hT : T r = some L) (hsz : sz ≤ TRAPFRAME) (htop : TopOk L)
    (srcva max : Nat) : ∃ ok bs, copyinstrTo r srcva max k = .ok ((ok, bs), k) ∧
      (AgreesWithCopyin sz r srcva max k ok bs ↔ ¬ LazyStop k r L sz srcva max) := by
  have hspec : wp (fun _ => False) (copyinstrToLoop r max srcva max []) k _ :=
    copyinstrToLoop_spec (h.toLocal hT) htop le_rfl
  obtain ⟨⟨ok, bs⟩, k', hrun, rfl, hres⟩ := hspec.returns
  refine ⟨ok, bs, hrun, ?_⟩
  simp only [List.nil_append, List.length_nil, Nat.zero_add] at hres
  unfold AgreesWithCopyin
  simp only [copyin_some_iff h hT hsz htop]
  constructor
  · -- `copyin` gets the NUL from the page that `vmfault` maps
    intro ⟨hiff, _, _⟩ ⟨i, hU, hm, hb, h0, hlt, hc⟩
    have hzero : ubyte k' L (srcva + (i * PGSIZE - srcva % PGSIZE)) = 0 := by
      unfold ubyte
      rw [lazy_page, if_pos h0]
    have hok := hiff.mpr ⟨_, hm, _, ⟨LazyStop.usableRange hU h0 hlt hsz hc htop, rfl⟩, isCString_ubytes.mpr ⟨hb, hzero⟩⟩
    rcases hres with ⟨-, n, hn, hacc, hstr, -⟩ | ⟨hf, -⟩
    · have e := hstr.unique ⟨hb, hzero⟩
      have := hacc (srcva / PGSIZE + i) (Nat.le_add_right _ _) (by rw [e, lazy_page])
      rw [h0] at this
      cases this
    · rw [hok] at hf
      cases hf
  · intro hno
    -- a string that `copyin` finds is on accessible pages
    have hacc : ∀ n < max, UsableRange k' r L sz false (srcva / PGSIZE) (touched srcva (n + 1)) →
        StringAt (ubyte k' L) srcva n → Accessible L srcva n := by
      intro n hn hu hstr
      by_contra hc
      obtain ⟨i, hU, hm, h0, hlt, hc⟩ := exists_lazy hu hc hsz
      exact hno ⟨i, hU, by omega, fun b hb => hstr.1 b (by omega), h0, hlt, hc⟩
    rcases hres with ⟨rfl, n, hn, hAcc, hstr, rfl⟩ | ⟨rfl, hlen, hnone⟩
    · refine ⟨⟨fun _ => ⟨n, hn, _, ⟨hAcc.usableRange htop, rfl⟩, isCString_ubytes.mpr hstr⟩, fun _ => rfl⟩,
        fun _ m hm ws ⟨hu, e⟩ hws => ?_, by simpa using hn⟩
      subst e
      rw [hstr.unique (isCString_ubytes.mp hws)]
    · refine ⟨⟨fun hf => (by cases hf), ?_⟩, fun hf => (by cases hf), hlen⟩
      rintro ⟨n, hn, ws, ⟨hu, rfl⟩, hws⟩
      have hstr := isCString_ubytes.mp hws
      exact absurd hstr.2 (hnone n hn (hacc n hn hu hstr))

end

/-- A string across a page boundary, on pages that `copyout` has mapped. -/
theorem copyinstr_agrees_iff_small : ∃ k, @copyout smallLayout 4098 (PHYSTOP - 8 * PGSIZE) (PHYSTOP - 8 * PGSIZE) 4094
      [97, 98, 99, 0] smallTables = .ok (true, k) ∧
    copyinstrTo (PHYSTOP - 8 * PGSIZE) 4094 128 k = .ok ((true, [97, 98, 99, 0]), k) ∧
    @AgreesWithCopyin smallLayout 4098 (PHYSTOP - 8 * PGSIZE) 4094 128 k true [97, 98, 99, 0] := by
  let _ := smallLayout
  obtain ⟨own, T, h, h8, -⟩ := smallTables_memInv
  have hruns : ((copyout 4098 (PHYSTOP - 8 * PGSIZE) (PHYSTOP - 8 * PGSIZE) 4094 [97, 98, 99, 0] >>= fun ok =>
      copyinstrTo (PHYSTOP - 8 * PGSIZE) 4094 128 >>= fun x => pure (ok, x)) smallTables).toOption.map Prod.fst =
      some (true, true, [97, 98, 99, 0]) := by
    decide +kernel
  obtain ⟨⟨res, k₂⟩, hruns, rfl⟩ := Option.map_eq_some_iff.mp hruns
  obtain ⟨ok, k, hout, hruns⟩ := bind_ok (ok_of_toOption hruns)
  obtain ⟨x, k₁, hstr, hruns⟩ := bind_ok hruns
  cases hruns
  obtain ⟨own', L, j, hend, hok, -⟩ :=
    (copyoutLoop_exact (E := fun _ => True) h h8 (show 4098 ≤ TRAPFRAME by decide) (fun _ _ => rfl) le_rfl).ok hout
  obtain rfl : j = 2 := hok.mp rfl
  have htop : TopOk L := by
    intro v hv
    rw [hend.accessed.same v fun hc => absurd hc.1.2 (by simp only [NUSER, PGSIZE] at hv ⊢; omega)]
    rfl
  obtain ⟨ok, bs, hrun, hiff⟩ :=
    copyinstr_agrees_iff hend.inv (Function.update_self ..) (show 4098 ≤ TRAPFRAME by decide) htop 4094 128
  cases hstr.symm.trans hrun
  refine ⟨_, hout, hrun, hiff.mpr ?_⟩
  rintro ⟨i, -, -, -, h0, hlt, -⟩
  obtain ⟨q, -, -, hL, -⟩ := hend.accessed.new (4094 / PGSIZE + i)
    ⟨⟨by omega, by simp only [PGSIZE] at hlt ⊢; omega⟩, rfl⟩
  rw [hL] at h0
  exact mkPte_ne_zero h0

/-- A process of size 1 that has not touched its page: `copyin` reads the empty string there, `copyinstr` fails. -/
theorem copyinstr_lazy : ∃ own T, @MemInv smallLayout smallTables own T ∧
    T (PHYSTOP - 8 * PGSIZE) = some (fun _ => 0) ∧
    copyinstrTo (PHYSTOP - 8 * PGSIZE) 0 128 smallTables = .ok ((false, []), smallTables) ∧
    ¬ @AgreesWithCopyin smallLayout 1 (PHYSTOP - 8 * PGSIZE) 0 128 smallTables false [] := by
  let _ := smallLayout
  obtain ⟨own, T, h, h8, -⟩ := smallTables_memInv
  refine ⟨own, T, h, h8, rfl, fun ⟨hiff, _⟩ => ?_⟩
  have hin : (copyin 1 (PHYSTOP - 8 * PGSIZE) (PHYSTOP - 8 * PGSIZE) 0 1 smallTables).toOption.map Prod.fst =
      some (some [0]) := by
    decide +kernel
  obtain ⟨⟨res, k'⟩, hin, rfl⟩ := Option.map_eq_some_iff.mp hin
  have := hiff.mpr ⟨0, by decide, [0], ⟨k', ok_of_toOption hin⟩, [], rfl, by simp⟩
  cases this

end Xv6
