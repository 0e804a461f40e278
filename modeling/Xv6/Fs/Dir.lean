import Xv6.Fs.Node
import Xv6.Lib.Slots

/-!
# Directories

The contents of a directory are slots of `direntSize` bytes, each with a name and an inode number or
empty (`dirSlots`). Two names are the same for `namecmp` when they have the same bytes up to the
first zero or to `DIRSIZ` bytes, their `nameKey`. `dirlookup` is the lookup of the key in the slots,
and `dirlink` fails or puts an entry in the first empty slot.
-/

namespace Xv6.Fs

open Seq Seq.M

/-! ## Names -/

/-- The bytes of a string from index `i` on, up to the first zero and at most `n`. -/
def strKey (p : Nat → UInt8) : Nat → Nat → List UInt8
  | 0, _ => []
  | n + 1, i => if p i = 0 then [] else p i :: strKey p n (i + 1)

/-- What a directory knows of a name. -/
def nameKey (p : Nat → UInt8) : List UInt8 := strKey p DIRSIZ 0

theorem strncmp_eq_zero (p q : Nat → UInt8) (n i : Nat) : strncmp p q n i = 0 ↔ strKey p n i = strKey q n i := by
  induction n generalizing i with
  | zero => exact ⟨fun _ => rfl, fun _ => rfl⟩
  | succ n ih =>
    simp only [strncmp, strKey]
    by_cases h : p i ≠ 0 ∧ p i = q i
    · rw [if_pos h, ih, if_neg h.1, if_neg (h.2 ▸ h.1), h.2, List.cons_inj_right]
    · rw [if_neg h]
      have hz : ((p i).toNat : Int) - (q i).toNat = 0 ↔ p i = q i := by
        rw [Int.sub_eq_zero, Int.natCast_inj, UInt8.toNat_inj]
      rw [hz]
      by_cases hp : p i = 0
      · rw [if_pos hp, hp]
        by_cases hq : q i = 0
        · simp [hq]
        · simp [hq, Ne.symm hq]
      · have hne : p i ≠ q i := fun he => h ⟨hp, he⟩
        rw [if_neg hp]
        by_cases hq : q i = 0
        · simp [hq, hp]
        · simp [hq, hne]

theorem namecmp_eq_zero {p q : Nat → UInt8} : namecmp p q = 0 ↔ nameKey p = nameKey q :=
  strncmp_eq_zero p q DIRSIZ 0

theorem strKey_congr {p q : Nat → UInt8} {n i : Nat} (h : ∀ j, i ≤ j → j < i + n → p j = q j) :
    strKey p n i = strKey q n i := by
  induction n generalizing i with
  | zero => rfl
  | succ n ih =>
    simp only [strKey]
    rw [h i (Nat.le_refl _) (by omega), ih fun j h1 h2 => h j (by omega) (by omega)]

/-- `strncpy` keeps the name. -/
theorem strKey_strncpy (t : Nat → UInt8) (n i : Nat) (h : ∀ j < i, t j ≠ 0) :
    strKey (strncpy t) n i = strKey t n i := by
  induction n generalizing i with
  | zero => rfl
  | succ n ih =>
    have hi : strncpy t i = t i := by
      rw [strncpy, if_pos]
      rw [List.all_eq_true]
      intro j hj
      simpa using h j (List.mem_range.mp hj)
    simp only [strKey, hi]
    split
    · rfl
    · rename_i h0
      rw [ih (i + 1) fun j hj => ?_]
      rcases Nat.lt_succ_iff_lt_or_eq.mp hj with hj | rfl
      · exact h j hj
      · exact h0

/-- A string of bytes without a zero, in a buffer. -/
theorem strKey_list {p : Nat → UInt8} {l : List UInt8} {n i : Nat} (hl : ∀ b ∈ l, b ≠ 0)
    (hlen : l.length ≤ n) (hp : ∀ j (h : j < l.length), p (i + j) = l[j])
    (hend : l.length < n → p (i + l.length) = 0) : strKey p n i = l := by
  induction l generalizing n i with
  | nil =>
    cases n with
    | zero => rfl
    | succ n => exact if_pos (hend (Nat.succ_pos n))
  | cons b l ih =>
    cases n with
    | zero => cases hlen
    | succ n =>
      have h0 : p i = b := hp 0 (Nat.succ_pos _)
      rw [strKey, if_neg (by rw [h0]; exact hl b List.mem_cons_self), h0]
      congr 1
      refine ih (fun b hb => hl b (List.mem_cons_of_mem _ hb)) (Nat.le_of_succ_le_succ hlen)
        (fun j hj => ?_) fun hlt => ?_
      · rw [Nat.add_assoc, Nat.add_comm 1 j]
        exact hp (j + 1) (Nat.succ_lt_succ hj)
      · have := hend (Nat.succ_lt_succ hlt)
        rwa [List.length_cons, Nat.add_comm l.length, ← Nat.add_assoc] at this

/-! ## Slots -/

/-- The entry in a slot. -/
def dirEntry (e : List UInt8) : Option (List UInt8 × Nat) :=
  if direntInum e = 0 then none else some (nameKey (direntName e), direntInum e)

/-- The bytes of slot `j`. -/
def dirSlot (data : List UInt8) (j : Nat) : List UInt8 := (data.drop (j * direntSize)).take direntSize

/-- The slots of a directory. -/
def dirSlots (data : List UInt8) : Slots (List UInt8) Nat :=
  (List.range (data.length / direntSize)).map fun j => dirEntry (dirSlot data j)

/-- The contents of a directory on a disk with `n` inodes. -/
structure DirOk (n : Nat) (data : List UInt8) : Prop where
  dvd : direntSize ∣ data.length
  num : ∀ j < data.length / direntSize, direntInum (dirSlot data j) < n

@[simp] theorem length_dirSlots (data : List UInt8) : (dirSlots data).length = data.length / direntSize := by
  simp [dirSlots]

theorem getElem?_dirSlots (data : List UInt8) (j : Nat) :
    (dirSlots data)[j]? = if j < data.length / direntSize then some (dirEntry (dirSlot data j)) else none := by
  unfold dirSlots
  rw [List.getElem?_map]
  by_cases h : j < data.length / direntSize
  · rw [if_pos h, List.getElem?_range h]
    rfl
  · rw [if_neg h, List.getElem?_eq_none (by simpa using h)]
    rfl

theorem length_dirent (inum : Nat) (name : Nat → UInt8) : (dirent inum name).length = direntSize := by
  simp [dirent, direntSize, DIRSIZ]

theorem direntInum_dirent (inum : Nat) (name : Nat → UInt8) (h : inum < 65536) :
    direntInum (dirent inum name) = inum := by
  show (UInt8.ofNat inum).toNat + 256 * (UInt8.ofNat (inum / 256)).toNat = inum
  rw [UInt8.toNat_ofNat', UInt8.toNat_ofNat']
  omega

theorem nameKey_dirent (inum : Nat) (name : Nat → UInt8) :
    nameKey (direntName (dirent inum (strncpy name))) = nameKey name := by
  have h : nameKey (direntName (dirent inum (strncpy name))) = nameKey (strncpy name) := by
    refine strKey_congr fun j _ hj => ?_
    rw [Nat.zero_add] at hj
    rw [direntName, if_pos hj]
    rw [Nat.add_comm]
    show ((List.range DIRSIZ).map (strncpy name)).getD j 0 = _
    simp [List.getD_eq_getElem?_getD, hj]
  rw [h]
  exact strKey_strncpy name DIRSIZ 0 nofun

/-- The entry that `dirlink` writes. -/
theorem dirEntry_dirent {inum : Nat} (name : Nat → UInt8) (h0 : inum ≠ 0) (h : inum < 65536) :
    dirEntry (dirent inum (strncpy name)) = some (nameKey name, inum) := by
  rw [dirEntry, direntInum_dirent _ _ h, if_neg h0, nameKey_dirent]

/-- The entry that `sys_unlink` writes. -/
theorem dirEntry_zero : dirEntry (List.replicate direntSize 0) = none := by decide

theorem direntSize_pos : 0 < direntSize := by decide

section Store

variable {n j i : Nat} {data e : List UInt8}

section

variable (hd : direntSize ∣ data.length) (hj : j ≤ data.length / direntSize) (he : e.length = direntSize)
include hd hj he

/-- A store of a whole entry. -/
theorem dirSlot_splice (i : Nat) (hi : i < (Bytes.splice data (j * direntSize) e).length / direntSize) :
    dirSlot (Bytes.splice data (j * direntSize) e) i = if i = j then e else dirSlot data i := by
  have hle : j * direntSize ≤ data.length := by
    have := Nat.mul_le_mul_right direntSize hj
    rwa [Nat.div_mul_cancel hd] at this
  have hd0 : direntSize = 16 := rfl
  refine List.ext_getElem? fun x => ?_
  rw [dirSlot, List.getElem?_take]
  split
  · rename_i hx
    rw [List.getElem?_drop, Bytes.getElem?_splice hle, he]
    by_cases hij : i = j
    · subst hij
      rw [if_pos rfl, if_pos (by omega)]
      congr 1
      omega
    · rw [if_neg hij, if_neg, dirSlot, List.getElem?_take, if_pos hx, List.getElem?_drop]
      rw [hd0] at *
      omega
  · rename_i hx
    by_cases hij : i = j
    · rw [if_pos hij, List.getElem?_eq_none (by omega)]
    · rw [if_neg hij, dirSlot, List.getElem?_take, if_neg hx]

theorem length_splice_slot :
    (Bytes.splice data (j * direntSize) e).length = max data.length ((j + 1) * direntSize) := by
  have hle : j * direntSize ≤ data.length := by
    have := Nat.mul_le_mul_right direntSize hj
    rwa [Nat.div_mul_cancel hd] at this
  rw [Bytes.length_splice hle, he, Nat.succ_mul]

theorem dirSlots_splice :
    dirSlots (Bytes.splice data (j * direntSize) e) = Slots.put (dirSlots data) j (dirEntry e) := by
  have hlen := length_splice_slot hd hj he
  have hd0 : direntSize = 16 := rfl
  have hcount : (Bytes.splice data (j * direntSize) e).length / direntSize =
      max (data.length / direntSize) (j + 1) := by
    rw [hlen]
    obtain ⟨c, hc⟩ := hd
    rw [hc, hd0] at *
    omega
  refine List.ext_getElem? fun i => ?_
  rw [Slots.getElem?_put (by simpa using hj), getElem?_dirSlots]
  by_cases hij : i = j
  · subst hij
    have hi : i < (Bytes.splice data (i * direntSize) e).length / direntSize := by omega
    rw [if_pos hi, if_pos rfl, dirSlot_splice hd hj he i hi, if_pos rfl]
  · rw [if_neg hij, getElem?_dirSlots]
    by_cases hi : i < data.length / direntSize
    · have hi' : i < (Bytes.splice data (j * direntSize) e).length / direntSize := by omega
      rw [if_pos hi', if_pos hi, dirSlot_splice hd hj he i hi', if_neg hij]
    · rw [if_neg (by omega), if_neg hi]

theorem dvd_splice : direntSize ∣ (Bytes.splice data (j * direntSize) e).length := by
  rw [length_splice_slot hd hj he]
  rcases Nat.le_total data.length ((j + 1) * direntSize) with hle | hle
  · rw [Nat.max_eq_right hle]
    exact Nat.dvd_mul_left _ _
  · rw [Nat.max_eq_left hle]
    exact hd

end

/-- The contents stay well formed. -/
theorem DirOk.splice (h : DirOk n data) (hj : j ≤ data.length / direntSize) (he : e.length = direntSize)
    (hn : direntInum e < n) : DirOk n (Bytes.splice data (j * direntSize) e) := by
  refine ⟨dvd_splice h.dvd hj he, fun i hi => ?_⟩
  · rw [dirSlot_splice h.dvd hj he i hi]
    split
    · exact hn
    · rename_i hij
      refine h.num i ?_
      rw [length_splice_slot h.dvd hj he] at hi
      obtain ⟨c, hc⟩ := h.dvd
      have hd0 : direntSize = 16 := rfl
      rw [hc, hd0] at hi hj ⊢
      omega

end Store

/-! ## `dirlookup` -/

section Lookup

variable {sb : Superblock} {E : Panic → Prop} {s : St} {L : List Nat} {k : Nat} {nd : Node}

/-- One turn of a scan of a directory: the slot is read. -/
theorem readi_slot (h : FsOk sb L s) (lo : Loaded s k) (hnd : s.node sb (s.itable k).inum = some nd)
    {j : Nat} (hj : j < nd.data.length / direntSize) :
    wp E (readi sb k .kernel 0 (j * direntSize) direntSize) s fun r s' =>
      s' = s ∧ r = (some direntSize, dirSlot nd.data j) := by
  refine readi_ok h lo hnd ?_ 0
  have h1 := (Nat.le_div_iff_mul_le direntSize_pos).mp (Nat.succ_le_of_lt hj)
  rwa [Nat.succ_mul] at h1

theorem drop_dirSlots {data : List UInt8} {j : Nat} (hj : j < data.length / direntSize) :
    (dirSlots data).drop j = dirEntry (dirSlot data j) :: (dirSlots data).drop (j + 1) := by
  have hlt : j < (dirSlots data).length := by simpa using hj
  rw [List.drop_eq_getElem_cons hlt]
  congr 1
  have := getElem?_dirSlots data j
  rw [if_pos hj, List.getElem?_eq_getElem hlt] at this
  exact Option.some.inj this

theorem lt_size_iff {data : List UInt8} (hd : direntSize ∣ data.length) {j : Nat} :
    j * direntSize < data.length ↔ j < data.length / direntSize := by
  obtain ⟨c, hc⟩ := hd
  have hd0 : direntSize = 16 := rfl
  rw [hc, hd0]
  omega

/-- What `dirlookup` answers for the slots from the `j`-th on. -/
def LooksUp (sb : Superblock) (L : List Nat) (s : St) (l : Slots (List UInt8) Nat) (key : List UInt8)
    (j : Nat) (r : Option (Nat × Nat)) (s' : St) : Prop :=
  (Slots.lookup l key = none ∧ r = none ∧ s' = s) ∨
  ∃ v i k', Slots.lookup l key = some (v, i) ∧ r = some (k', (j + i) * direntSize) ∧
    FsOk sb (k' :: L) s' ∧ Quiet sb L s s' ∧ (s'.itable k').inum = v ∧ s'.locks = s.locks

theorem dirlookupFrom_ok (h : FsOk sb L s) (lo : Loaded s k)
    (hnd : s.node sb (s.itable k).inum = some nd) (hd : direntSize ∣ nd.data.length)
    (hE : NINODE ≤ L.toFinset.card → E .igetNoInodes) (name : Nat → UInt8) (fuel j : Nat)
    (hf : nd.data.length / direntSize < fuel + j) :
    wp E (dirlookupFrom sb k name fuel (j * direntSize)) s
      (LooksUp sb L s ((dirSlots nd.data).drop j) (nameKey name) j) := by
  have hsize := (lo.fields h hnd).size
  have hdone : ∀ j, ¬ j < nd.data.length / direntSize →
      LooksUp sb L s ((dirSlots nd.data).drop j) (nameKey name) j none s := fun j hj => by
    rw [List.drop_eq_nil_of_le (by simpa using Nat.le_of_not_lt hj)]
    exact .inl ⟨rfl, rfl, rfl⟩
  induction fuel generalizing j with
  | zero => exact hdone j (by omega)
  | succ fuel ih =>
    unfold dirlookupFrom
    refine wp_bind.mpr (wp_getInode.mpr ?_)
    rw [hsize]
    refine wp_ite.mpr ⟨fun hlt => ?_, fun hge => hdone j fun hj => hge ((lt_size_iff hd).mpr hj)⟩
    have hj := (lt_size_iff hd).mp hlt
    refine wp.bind (readi_slot h lo hnd hj) ?_
    rintro r s' ⟨rfl, rfl⟩
    rw [if_neg (fun hne => hne rfl), drop_dirSlots hj]
    have hnext : wp E (dirlookupFrom sb k name fuel (j * direntSize + direntSize)) s'
        fun r s'' => LooksUp sb L s' ((dirSlots nd.data).drop (j + 1)) (nameKey name) (j + 1) r s'' := by
      have := ih (j + 1) (by omega)
      rwa [Nat.succ_mul] at this
    have hshift : ∀ {r s''} {e : Option (List UInt8 × Nat)}, (∀ x, e = some x → x.1 ≠ nameKey name) →
        LooksUp sb L s' ((dirSlots nd.data).drop (j + 1)) (nameKey name) (j + 1) r s'' →
        LooksUp sb L s' (e :: (dirSlots nd.data).drop (j + 1)) (nameKey name) j r s'' := by
      intro r s'' e hne hl
      have hlook : Slots.lookup (e :: (dirSlots nd.data).drop (j + 1)) (nameKey name) =
          (Slots.lookup ((dirSlots nd.data).drop (j + 1)) (nameKey name)).map fun r => (r.1, r.2 + 1) := by
        cases e with
        | none => rfl
        | some x => exact if_neg (hne x rfl)
      rcases hl with ⟨h1, h2, h3⟩ | ⟨v, i, k', h1, h2, h3⟩
      · exact .inl ⟨by rw [hlook, h1]; rfl, h2, h3⟩
      · refine .inr ⟨v, i + 1, k', by rw [hlook, h1]; rfl, ?_, h3⟩
        rw [h2]
        congr 3
        omega
    refine wp_ite.mpr ⟨fun h0 => ?_, fun h0 => wp_ite.mpr ⟨fun hc => ?_, fun hc => ?_⟩⟩
    · -- an empty slot
      refine hnext.mono fun r s'' hl => hshift (fun x hx => ?_) hl
      rw [dirEntry, if_pos h0] at hx
      cases hx
    · -- the name is found
      have hkey := namecmp_eq_zero.mp hc
      refine wp.bind (iget_ok h hE _) ?_
      rintro k' s'' ⟨h', q, hnum, hlk⟩
      refine .inr ⟨_, 0, k', ?_, rfl, h', q, hnum, hlk⟩
      rw [dirEntry, if_neg h0]
      exact if_pos hkey.symm
    · refine hnext.mono fun r s'' hl => hshift (fun x hx he => ?_) hl
      rw [dirEntry, if_neg h0] at hx
      cases hx
      exact hc (namecmp_eq_zero.mpr he.symm)

/-- `dirlookup` is the lookup of the name in the directory's slots. -/
theorem dirlookup_ok (h : FsOk sb L s) (lo : Loaded s k) (hnd : s.node sb (s.itable k).inum = some nd)
    (ht : nd.type = T_DIR) (hd : direntSize ∣ nd.data.length) (hE : NINODE ≤ L.toFinset.card → E .igetNoInodes)
    (name : Nat → UInt8) : wp E (dirlookup sb k name) s (LooksUp sb L s (dirSlots nd.data) (nameKey name) 0) := by
  obtain ⟨htype, -, -, -, hsize⟩ := lo.fields h hnd
  refine wp_bind.mpr (wp_getInode.mpr (wp_ite.mpr ⟨fun hne => absurd (htype.trans ht) hne, fun _ => ?_⟩))
  have := dirlookupFrom_ok (E := E) h lo hnd hd hE name ((s.itable k).size + 1) 0 (by
    rw [hsize]
    have := Nat.div_le_self nd.data.length direntSize
    omega)
  rwa [Nat.zero_mul, List.drop_zero] at this

/-! ## `dirlink` -/

theorem dirlinkFrom_ok (h : FsOk sb L s) (lo : Loaded s k)
    (hnd : s.node sb (s.itable k).inum = some nd) (hd : direntSize ∣ nd.data.length) (fuel j : Nat)
    (hf : nd.data.length / direntSize < fuel + j) (hj : j ≤ nd.data.length / direntSize) :
    wp E (dirlinkFrom sb k fuel (j * direntSize)) s fun r s' =>
      s' = s ∧ r = (j + Slots.free ((dirSlots nd.data).drop j)) * direntSize := by
  have hsize := (lo.fields h hnd).size
  have hdone : ∀ j, ¬ j < nd.data.length / direntSize → Slots.free ((dirSlots nd.data).drop j) = 0 :=
    fun j hj => by
      rw [List.drop_eq_nil_of_le (by simpa using Nat.le_of_not_lt hj)]
      rfl
  induction fuel generalizing j with
  | zero => omega
  | succ fuel ih =>
    unfold dirlinkFrom
    refine wp_bind.mpr (wp_getInode.mpr ?_)
    rw [hsize]
    refine wp_ite.mpr ⟨fun hlt => ?_, fun hge => ⟨rfl, ?_⟩⟩
    swap
    · rw [hdone j fun hj => hge ((lt_size_iff hd).mpr hj), Nat.add_zero]
    replace hlt := (lt_size_iff hd).mp hlt
    refine wp.bind (readi_slot h lo hnd hlt) ?_
    rintro r s' ⟨rfl, rfl⟩
    rw [if_neg (fun hne => hne rfl), drop_dirSlots hlt]
    refine wp_ite.mpr ⟨fun h0 => ⟨rfl, ?_⟩, fun h0 => ?_⟩
    · rw [dirEntry, if_pos h0]
      rfl
    · have := ih (j + 1) (by omega) hlt
      rw [Nat.succ_mul] at this
      refine this.mono ?_
      rintro r s'' ⟨rfl, rfl⟩
      refine ⟨rfl, ?_⟩
      rw [dirEntry, if_neg h0, Slots.free]
      congr 1
      omega

/-- The number of bytes of an entry that fit in its block is all or none. -/
theorem entry_written {off tot : Nat} (hoff : direntSize ∣ off) (hle : tot ≤ direntSize)
    (h : tot = 0 ∨ (off + tot) % BSIZE = 0 ∨ tot = direntSize) : tot = 0 ∨ tot = direntSize := by
  obtain ⟨c, rfl⟩ := hoff
  simp only [direntSize, DIRSIZ, BSIZE] at *
  omega

/-- An entry is in one block. -/
theorem entry_cost (s : St) (k : Nat) {off : Nat} (hoff : direntSize ∣ off) :
    writeCost s s k (off / BSIZE) (endBlock off direntSize) ≤ 4 := by
  have hend : endBlock off direntSize = off / BSIZE + 1 := by
    obtain ⟨c, rfl⟩ := hoff
    simp only [endBlock, direntSize, DIRSIZ, BSIZE]
    omega
  have h1 := weight_le s s (s.blockAt k (off / BSIZE))
  have h2 := weight_le s s ((s.itable k).addrs NDIRECT)
  rw [writeCost, hend, Nat.Ico_succ_singleton, Finset.sum_singleton]
  omega

/-- The slot of a new entry and what is stored there. -/
def addEntry (data : List UInt8) (name : Nat → UInt8) (inum : Nat) : List UInt8 :=
  Bytes.splice data (Slots.free (dirSlots data) * direntSize) (dirent inum (strncpy name))

section

variable (w : sb.Wf) (h : FsOk sb L s) (hk : k ∈ L) (lo : Loaded s k) (hout : 1 ≤ s.outstanding)
  (hE : LOGBLOCKS ≤ s.lh.length + 4 → E .tooBigTransaction)
include w h hk lo hout hE

/-- `dirlink` fails and changes no node, or it adds the entry. -/
theorem dirlink_ok (hE' : NINODE ≤ L.toFinset.card → E .igetNoInodes) (hnd : s.node sb (s.itable k).inum = some nd)
    (ht : nd.type = T_DIR) (hd : direntSize ∣ nd.data.length) (name : Nat → UInt8) (inum : Nat) :
    wp E (dirlink sb k name inum) s fun r s' => FsOk sb L s' ∧ Keeps L s s' ∧ Loaded s' k ∧
      s'.locks = s.locks ∧
      ((r = false ∧ Slots.lookup (dirSlots nd.data) (nameKey name) ≠ none ∧ Quiet sb L s s') ∨
        (r = false ∧ Slots.lookup (dirSlots nd.data) (nameKey name) = none ∧
          (NoFree sb s' ∨
            MAXFILE * BSIZE < Slots.free (dirSlots nd.data) * direntSize + direntSize) ∧
          s'.node sb = s.node sb) ∨
        (r = true ∧ Slots.lookup (dirSlots nd.data) (nameKey name) = none ∧
          s'.node sb = Function.update (s.node sb) (s.itable k).inum
            (some { nd with data := addEntry nd.data name inum }))) := by
  have hsize := (lo.fields h hnd).size
  have hn : nd.data.length / direntSize < (s.itable k).size + 1 := by
    rw [hsize]
    have := Nat.div_le_self nd.data.length direntSize
    omega
  unfold dirlink
  refine wp.bind (dirlookup_ok h lo hnd ht hd hE' name) ?_
  rintro r s₁ (⟨hnone, rfl, rfl⟩ | ⟨v, i, k', hsome, rfl, h₁, q₁, hnum, hlk₁⟩)
  · refine wp_bind.mpr (wp_getInode.mpr ?_)
    have hoff := dirlinkFrom_ok (E := E) h lo hnd hd ((s₁.itable k).size + 1) 0 hn (Nat.zero_le _)
    rw [Nat.zero_mul, List.drop_zero, Nat.zero_add] at hoff
    refine wp.bind hoff ?_
    rintro off s₂ ⟨rfl, rfl⟩
    have hfree : Slots.free (dirSlots nd.data) ≤ nd.data.length / direntSize := by
      have := Slots.free_le (dirSlots nd.data)
      simpa using this
    have hoffle : Slots.free (dirSlots nd.data) * direntSize ≤ nd.data.length := by
      have := Nat.mul_le_mul_right direntSize hfree
      rwa [Nat.div_mul_cancel hd] at this
    have hoffd := Nat.dvd_mul_left direntSize (Slots.free (dirSlots nd.data))
    refine wp.bind (writei_ok w h hk lo hout hnd (n := direntSize) (fun hl => hE ?_) (by decide)
      fun _ _ => trivial) ?_
    · have := entry_cost s₂ k hoffd
      omega
    rintro r s' ⟨h', hkeep, lo', hlk, hr⟩
    refine wp_pure.mpr ⟨h', hkeep, lo', hlk, .inr ?_⟩
    rcases hr with ⟨rfl, hacc, rfl⟩ | ⟨tot, rfl, hle, hal, -, hfull, hnode⟩
    · refine .inl ⟨rfl, hnone, .inr ?_, rfl⟩
      by_contra hno
      exact hacc ⟨hoffle, by omega⟩
    · rcases entry_written hoffd hle hal with rfl | rfl
      · refine .inl ⟨rfl, hnone, .inl (hfull direntSize_pos).1, ?_⟩
        rw [hnode]
        have : Bytes.splice nd.data (Slots.free (dirSlots nd.data) * direntSize)
            (Bytes.slice (Src.kernel fun i => (dirent inum (strncpy name)).getD i 0).byte 0 0) = nd.data := by
          simp [Bytes.splice, Bytes.slice]
        rw [this]
        refine (congrArg _ ?_).trans (Function.update_eq_self _ _)
        exact hnd.symm
      · refine .inr ⟨by simp, hnone, ?_⟩
        have : Bytes.slice (Src.kernel fun i => (dirent inum (strncpy name)).getD i 0).byte 0 direntSize =
            dirent inum (strncpy name) := by
          refine List.ext_getElem (by rw [Bytes.length_slice, length_dirent]) fun i h1 h2 => ?_
          rw [Bytes.getElem_slice, Nat.zero_add]
          exact (List.getD_eq_getElem?_getD ..).trans (by rw [List.getElem?_eq_getElem h2]; rfl)
        rw [hnode, this]
        rfl
  · -- the name is there already
    refine wp.bind (iput_quiet w h₁ (h.noOrphan.quiet q₁)) ?_
    rintro _ s' ⟨h', hq, hlk⟩
    have q := q₁.trans hq
    refine wp_pure.mpr ⟨h', q.toKeeps, h'.loaded hk (q.valid k hk lo.valid), hlk.trans hlk₁,
      .inl ⟨rfl, ?_, q⟩⟩
    rw [hsome]
    simp

/-- `sys_unlink` empties slot `j`. -/
theorem clearEntry_ok (hnd : s.node sb (s.itable k).inum = some nd) {j : Nat} (hj : j < nd.data.length / direntSize) :
    wp E (clearEntry sb k (j * direntSize)) s fun _ s' => FsOk sb L s' ∧ Keeps L s s' ∧ Loaded s' k ∧
      s'.locks = s.locks ∧ s'.node sb = Function.update (s.node sb) (s.itable k).inum
        (some { nd with
          data := Bytes.splice nd.data (j * direntSize) (List.replicate direntSize 0) }) := by
  have hoffd := Nat.dvd_mul_left direntSize j
  have hin : j * direntSize + direntSize ≤ nd.data.length := by
    have h1 := (Nat.le_div_iff_mul_le direntSize_pos).mp (Nat.succ_le_of_lt hj)
    rwa [Nat.succ_mul] at h1
  have hmax : nd.data.length ≤ MAXFILE * BSIZE := by
    rw [← (lo.fields h hnd).size]
    exact h.size_le lo
  refine wp.bind (writei_ok w h hk lo hout hnd (n := direntSize) (fun hl => hE ?_) (by decide)
    fun _ _ => trivial) ?_
  · have := entry_cost s k hoffd
    omega
  rintro r s' ⟨h', hkeep, lo', hlk, ⟨-, hacc, -⟩ | ⟨tot, rfl, hle, -, -, hfull, hnode⟩⟩
  · exact absurd ⟨by omega, by omega⟩ hacc
  · have htot : tot = direntSize := by
      by_contra hne
      have := (hfull (by omega)).2
      omega
    subst htot
    rw [if_neg (fun hne => hne rfl)]
    refine wp_pure.mpr ⟨h', hkeep, lo', hlk, ?_⟩
    rw [hnode]
    congr 3

end

end Lookup

end Xv6.Fs
