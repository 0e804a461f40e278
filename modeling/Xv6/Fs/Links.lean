import Xv6.Fs.Calls
import Xv6.Fs.Plan

/-!
# Link counts

`links` is the number of directory entries for an inode, without the first two entries of each
directory. While no count is raised above the largest `short`, `sys_link` and `sys_unlink` keep the
link count of every file equal to it (`OneMore.counted`, `Unlinks.counted`), over whole runs
(`link_counts_right`). A count of 32767 that is raised is negative, and the next `sys_unlink` of the
file stops the kernel (`link_count_wraps`).
-/

namespace Xv6.Fs

open Seq Seq.M Finset
open Function (update update_of_ne update_self)

/-- The slots of a directory without `.` and `..`. -/
def Node.userSlots (nd : Node) : Slots (List UInt8) Nat := (dirSlots nd.data).drop 2

/-- The number of entries for inode `i` in a directory. -/
def Node.entriesFor (i : Nat) (nd : Node) : Nat :=
  if nd.type = T_DIR then Slots.count (fun e => decide (e.2 = i)) nd.userSlots else 0

/-- The number of entries for directories in a directory. -/
def Node.subdirs (N : Nat → Option Node) (nd : Node) : Nat :=
  if nd.type = T_DIR then Slots.count (fun e => isDir N e.2) nd.userSlots else 0

/-- The number of links to inode `i` on a disk with `n` inodes. -/
def links (n : Nat) (N : Nat → Option Node) (i : Nat) : Nat :=
  ∑ d ∈ range n, (N d).elim 0 (Node.entriesFor i)

/-- The link count of inode `i` is right. A file has one for each entry, a directory also one for each
of its subdirectories, whose `..` it is, and the root directory one for its own `..`. -/
def CountOk (n : Nat) (N : Nat → Option Node) (i : Nat) : Prop :=
  ∀ nd, N i = some nd → nd.nlink = links n N i + nd.subdirs N + if i = ROOTINO then 1 else 0

/-- A directory starts with `.` and `..`. -/
def DotsOk (nd : Node) : Prop :=
  nd.type = T_DIR → ∃ a b, (dirSlots nd.data)[0]? = some (some (dot, a)) ∧
    (dirSlots nd.data)[1]? = some (some (dotdot, b))

/-- All link counts are right. -/
structure Tallied (n : Nat) (N : Nat → Option Node) : Prop where
  dots : ∀ {d dnd}, N d = some dnd → DotsOk dnd
  count : ∀ i, CountOk n N i
  bound : ∀ {i nd}, N i = some nd → nd.nlink < 2 ^ 15
  /-- No entry is for a free inode. -/
  free : ∀ {i}, N i = none → links n N i = 0
  zero : N 0 = none
  lt : ∀ {i nd}, N i = some nd → i < n

/-- A directory that is in no directory is the root or among the inodes in use `I`. -/
def Used (n : Nat) (I : List Nat) (N : Nat → Option Node) (d : Nat) : Prop :=
  isDir N d = true → 1 ≤ links n N d ∨ d = ROOTINO ∨ d ∈ I

/-- All link counts are right, and only directories in use are in no directory. -/
structure Counted (n : Nat) (I : List Nat) (N : Nat → Option Node) : Prop extends Tallied n N where
  used : ∀ d, Used n I N d

section Counts

variable {n i d j x : Nat} {I : List Nat} {N N' : Nat → Option Node} {nd dnd : Node} {key : List UInt8}

/-- Only directory `d` has other entries. -/
theorem links_change (hd : d < n)
    (h : ∀ e, e ≠ d → (N' e).elim 0 (Node.entriesFor x) = (N e).elim 0 (Node.entriesFor x)) :
    links n N' x + (N d).elim 0 (Node.entriesFor x) = links n N x + (N' d).elim 0 (Node.entriesFor x) := by
  unfold links
  have hmem : d ∈ range n := mem_range.mpr hd
  rw [← add_sum_erase (range n) _ hmem, ← add_sum_erase (range n) (fun d => (N d).elim 0 _) hmem]
  have hrest : ∑ e ∈ (range n).erase d, (N' e).elim 0 (Node.entriesFor x) =
      ∑ e ∈ (range n).erase d, (N e).elim 0 (Node.entriesFor x) :=
    sum_congr rfl fun e he => h e (ne_of_mem_erase he)
  rw [hrest]
  omega

theorem entriesFor_le_links (hd : d < n) (hdnd : N d = some dnd) : dnd.entriesFor i ≤ links n N i := by
  have := single_le_sum (f := fun d => (N d).elim 0 (Node.entriesFor i)) (fun _ _ => Nat.zero_le _)
    (mem_range.mpr hd)
  rw [hdnd] at this
  exact this

theorem Node.userSlots_getElem? (nd : Node) (hj : 2 ≤ j) : nd.userSlots[j - 2]? = (dirSlots nd.data)[j]? := by
  rw [Node.userSlots, List.getElem?_drop]
  congr 1
  omega

/-- The slot of a name that is not `.` or `..`. -/
theorem Tallied.two_le (c : Tallied n N) (hdnd : N d = some dnd) (hdir : dnd.type = T_DIR)
    (h1 : key ≠ dot) (h2 : key ≠ dotdot) (hj : (dirSlots dnd.data)[j]? = some (some (key, i))) : 2 ≤ j := by
  obtain ⟨a, b, h0', h1'⟩ := c.dots hdnd hdir
  by_contra hlt
  have hj' : j = 0 ∨ j = 1 := by omega
  rcases hj' with rfl | rfl
  · rw [h0'] at hj
    cases hj
    exact h1 rfl
  · rw [h1'] at hj
    cases hj
    exact h2 rfl

/-- An entry is counted. -/
theorem Tallied.links_pos (c : Tallied n N) (hdnd : N d = some dnd) (hdir : dnd.type = T_DIR)
    (hj2 : 2 ≤ j) (hj : (dirSlots dnd.data)[j]? = some (some (key, i))) : 1 ≤ links n N i := by
  refine Nat.le_trans ?_ (entriesFor_le_links (c.lt hdnd) hdnd)
  rw [Node.entriesFor, if_pos hdir]
  rw [← Node.userSlots_getElem? dnd hj2] at hj
  exact Slots.count_pos hj (by simp)

/-- The first two slots stay, the count goes up by the new entry. -/
theorem addEntry_counts (name : Nat → UInt8) (hd : direntSize ∣ dnd.data.length) (h0 : i ≠ 0) (hi : i < 65536)
    (h2 : 2 ≤ Slots.free (dirSlots dnd.data)) :
    (∀ j < 2, (dirSlots (addEntry dnd.data name i))[j]? = (dirSlots dnd.data)[j]?) ∧
    ∀ p, Slots.count p ((dirSlots (addEntry dnd.data name i)).drop 2) =
      Slots.count p dnd.userSlots + if p (nameKey name, i) then 1 else 0 := by
  have hle := Slots.free_le (dirSlots dnd.data)
  have hslots : dirSlots (addEntry dnd.data name i) =
      Slots.put (dirSlots dnd.data) (Slots.free (dirSlots dnd.data)) (some (nameKey name, i)) := by
    rw [addEntry, dirSlots_splice hd (by rwa [length_dirSlots] at hle) (length_dirent _ _),
      dirEntry_dirent name h0 hi]
  rw [hslots]
  refine ⟨fun j hj => ?_, fun p => ?_⟩
  · rw [Slots.getElem?_put hle, if_neg (by omega)]
  · rw [Slots.drop_put h2 hle]
    refine Slots.count_put ?_
    have := Slots.getElem?_free (dirSlots dnd.data)
    rwa [← Node.userSlots_getElem? dnd h2] at this

/-- The first two slots stay, the count goes down by the entry that is cleared. -/
theorem clear_counts (hd : direntSize ∣ dnd.data.length) (h2 : 2 ≤ j)
    (hj : (dirSlots dnd.data)[j]? = some (some (key, i))) :
    (∀ j' < 2, (dirSlots (Bytes.splice dnd.data (j * direntSize) (List.replicate direntSize 0)))[j']? =
      (dirSlots dnd.data)[j']?) ∧
    ∀ p, Slots.count p ((dirSlots (Bytes.splice dnd.data (j * direntSize)
      (List.replicate direntSize 0))).drop 2) + (if p (key, i) then 1 else 0) =
        Slots.count p dnd.userSlots := by
  have hlt : j < (dirSlots dnd.data).length := (List.getElem?_eq_some_iff.mp hj).1
  have hslots : dirSlots (Bytes.splice dnd.data (j * direntSize) (List.replicate direntSize 0)) =
      Slots.put (dirSlots dnd.data) j none := by
    rw [dirSlots_splice hd (by rw [length_dirSlots] at hlt; omega) (by simp), dirEntry_zero]
  rw [hslots]
  refine ⟨fun j' hj' => ?_, fun p => ?_⟩
  · rw [Slots.getElem?_put (Nat.le_of_lt hlt), if_neg (by omega)]
  · rw [Slots.drop_put h2 (Nat.le_of_lt hlt)]
    refine Slots.count_clear ?_
    rw [← hj, ← Node.userSlots_getElem? dnd h2]
    rfl

/-! ## One entry more -/

/-- `N'` has one more entry than `N`, in directory `d` for inode `i`. -/
structure OneMore (N N' : Nat → Option Node) (d i : Nat) : Prop where
  ne : i ≠ d
  dir : ∃ dnd dnd' key, N d = some dnd ∧ N' d = some dnd' ∧ dnd.type = T_DIR ∧ dnd'.type = T_DIR ∧
    (∀ j < 2, (dirSlots dnd'.data)[j]? = (dirSlots dnd.data)[j]?) ∧
    (∀ p, Slots.count p dnd'.userSlots = Slots.count p dnd.userSlots + if p (key, i) then 1 else 0) ∧
    dnd'.nlink = dnd.nlink + if isDir N i then 1 else 0
  inode : ∃ nd, N i = some nd ∧ N' i = some { nd with nlink := nd.nlink + 1 }
  other : ∀ x, x ≠ d → x ≠ i → N' x = N x

namespace OneMore

variable (h : OneMore N N' d i)

include h

theorem isDir_eq : isDir N' = isDir N := by
  obtain ⟨dnd, dnd', key, hd, hd', ht, ht', -⟩ := h.dir
  obtain ⟨nd, hi, hi'⟩ := h.inode
  funext x
  unfold isDir
  by_cases h1 : x = d
  · rw [h1, hd, hd']
    simp [ht, ht']
  · by_cases h2 : x = i
    · rw [h2, hi, hi']
      rfl
    · rw [h.other x h1 h2]

theorem subdirs_eq (nd : Node) : nd.subdirs N' = nd.subdirs N := by
  unfold Node.subdirs
  rw [h.isDir_eq]

theorem links_eq (hd : d < n) (x : Nat) : links n N' x = links n N x + if x = i then 1 else 0 := by
  have hch : links n N' x + (N d).elim 0 (Node.entriesFor x) =
      links n N x + (N' d).elim 0 (Node.entriesFor x) := by
    refine links_change hd fun e he => ?_
    by_cases hei : e = i
    · obtain ⟨nd, hi, hi'⟩ := h.inode
      rw [hei, hi, hi']
      rfl
    · rw [h.other e he hei]
  obtain ⟨dnd, dnd', key, hd, hd', ht, ht', -, hcnt, -⟩ := h.dir
  rw [hd, hd'] at hch
  simp only [Option.elim, Node.entriesFor, if_pos ht, if_pos ht'] at hch
  rw [hcnt] at hch
  by_cases hx : x = i
  · rw [if_pos hx]
    rw [if_pos (by simp [hx])] at hch
    omega
  · rw [if_neg hx]
    rw [if_neg (by simp [Ne.symm hx])] at hch
    omega

theorem countOk_iff (hd : d < n) (x : Nat) : CountOk n N' x ↔ CountOk n N x := by
  obtain ⟨dnd, dnd', key, hd₀, hd', ht, ht', -, hcnt, hnl⟩ := h.dir
  obtain ⟨nd, hi, hi'⟩ := h.inode
  unfold CountOk
  simp only [h.links_eq hd, h.subdirs_eq]
  by_cases h1 : x = d
  · subst h1
    simp only [hd₀, hd', Option.some.injEq, forall_eq', if_neg h.ne.symm, Node.subdirs, if_pos ht, if_pos ht',
      hcnt, hnl]
    omega
  · by_cases h2 : x = i
    · subst h2
      have hsub : Node.subdirs N { nd with nlink := nd.nlink + 1 } = nd.subdirs N := rfl
      simp only [hi, hi', Option.some.injEq, forall_eq', hsub]
      rw [if_pos trivial]
      omega
    · rw [h.other x h1 h2, if_neg h2]
      exact Iff.rfl

theorem dotsOk_iff : (∀ {x y}, N' x = some y → DotsOk y) ↔ ∀ {x y}, N x = some y → DotsOk y := by
  obtain ⟨dnd, dnd', key, hd, hd', ht, ht', hslots, -⟩ := h.dir
  obtain ⟨nd, hi, hi'⟩ := h.inode
  have hdd : DotsOk dnd' ↔ DotsOk dnd := by
    unfold DotsOk
    rw [ht, ht', hslots 0 (by omega), hslots 1 (by omega)]
  constructor
  · intro hall x y hy
    by_cases h1 : x = d
    · rw [h1, hd] at hy
      cases hy
      exact hdd.mp (hall hd')
    · by_cases h2 : x = i
      · rw [h2, hi] at hy
        cases hy
        have hdots := hall hi'
        exact hdots
      · exact hall ((h.other x h1 h2).trans hy)
  · intro hall x y hy
    by_cases h1 : x = d
    · rw [h1, hd'] at hy
      cases hy
      exact hdd.mpr (hall hd)
    · by_cases h2 : x = i
      · rw [h2, hi'] at hy
        cases hy
        have hdots := hall hi
        exact hdots
      · exact hall ((h.other x h1 h2).symm.trans hy)

theorem eq_none_iff (x : Nat) : N' x = none ↔ N x = none := by
  obtain ⟨dnd, dnd', key, hd, hd', -⟩ := h.dir
  obtain ⟨nd, hi, hi'⟩ := h.inode
  by_cases h1 : x = d
  · rw [h1, hd, hd']
    exact ⟨nofun, nofun⟩
  · by_cases h2 : x = i
    · rw [h2, hi, hi']
      exact ⟨nofun, nofun⟩
    · rw [h.other x h1 h2]

theorem lt_iff : (∀ {x y}, N' x = some y → x < n) ↔ ∀ {x y}, N x = some y → x < n := by
  constructor
  · intro hall x y hy
    obtain ⟨y', hy'⟩ := Option.ne_none_iff_exists'.mp fun hno => by
      rw [(h.eq_none_iff x).mp hno] at hy
      cases hy
    exact hall hy'
  · intro hall x y hy
    obtain ⟨y', hy'⟩ := Option.ne_none_iff_exists'.mp fun hno => by
      rw [(h.eq_none_iff x).mpr hno] at hy
      cases hy
    exact hall hy'

/-- A link is added. -/
theorem counted (c : Counted n I N) (hb : ∀ {x y}, N' x = some y → y.nlink < 2 ^ 15) : Counted n I N' := by
  obtain ⟨dnd, -, -, hd, -⟩ := h.dir
  have hdn := c.lt hd
  refine ⟨⟨h.dotsOk_iff.mpr c.dots, fun x => (h.countOk_iff hdn x).mpr (c.count x), hb, fun {x} hx => ?_,
    (h.eq_none_iff 0).mpr c.zero, h.lt_iff.mpr c.lt⟩, fun x hx => ?_⟩
  · have hxi : x ≠ i := by
      rintro rfl
      obtain ⟨nd, -, hi'⟩ := h.inode
      rw [hi'] at hx
      cases hx
    rw [h.links_eq hdn, if_neg hxi]
    exact c.free ((h.eq_none_iff x).mp hx)
  · rw [h.isDir_eq] at hx
    rw [h.links_eq hdn]
    exact (c.used x hx).imp_left fun h => by omega

/-- A link is removed, and the inode is still there. -/
theorem tallied (c : Counted n I N') : Tallied n N ∧ ∀ x, x ≠ i → Used n I N x := by
  obtain ⟨dnd, dnd', key, hd, hd', -, -, -, -, hnl⟩ := h.dir
  obtain ⟨nd, hi, hi'⟩ := h.inode
  have hdn := c.lt hd'
  refine ⟨⟨h.dotsOk_iff.mp c.dots, fun x => (h.countOk_iff hdn x).mp (c.count x), fun {x y} hy => ?_,
    fun {x} hx => ?_, (h.eq_none_iff 0).mp c.zero, h.lt_iff.mp c.lt⟩, fun x hxi hx => ?_⟩
  · by_cases h1 : x = d
    · rw [h1, hd] at hy
      cases hy
      have := c.bound hd'
      omega
    · by_cases h2 : x = i
      · rw [h2, hi] at hy
        cases hy
        have : nd.nlink + 1 < 2 ^ 15 := c.bound hi'
        omega
      · exact c.bound ((h.other x h1 h2).trans hy)
  · have := c.free ((h.eq_none_iff x).mpr hx)
    rw [h.links_eq hdn] at this
    omega
  · have := c.used x (by rw [h.isDir_eq]; exact hx)
    rw [h.links_eq hdn, if_neg hxi] at this
    exact this

end OneMore

/-- The inode, if nothing is left that refers to it, is freed. -/
theorem Tallied.drop (c : Tallied n N) (hused : ∀ x, x ≠ i → Used n I N x) (hnd : N i = some nd)
    (hempty : nd.type = T_DIR → nd.userSlots.all Option.isNone = true) : Counted n I (dropRef I N i) := by
  have hcount := c.count i nd hnd
  have hsub : nd.subdirs N = 0 := by
    unfold Node.subdirs
    split
    · rename_i hdir
      exact Slots.count_of_empty (hempty hdir)
    · rfl
  unfold dropRef
  split
  · rename_i hfree
    rw [hnd] at hfree
    have h0 : nd.nlink = 0 := by simpa using hfree.2
    have hlinks0 : links n N i = 0 := by omega
    -- its entries are not counted, and no entry is for it
    have hlinks : ∀ x, links n (update N i none) x = links n N x := by
      intro x
      have hch : links n (update N i none) x + (N i).elim 0 (Node.entriesFor x) = _ :=
        links_change (c.lt hnd) fun e he => by rw [update_of_ne he]
      have hz : nd.entriesFor x = 0 := by
        unfold Node.entriesFor
        split
        · rename_i hdir
          exact Slots.count_of_empty (hempty hdir)
        · rfl
      rw [hnd, update_self] at hch
      simp only [Option.elim, hz] at hch
      exact hch
    have hsubdirs : ∀ {x y}, N x = some y → y.subdirs (update N i none) = y.subdirs N := by
      intro x y hy
      unfold Node.subdirs
      split
      · rename_i hdir
        have hno := entriesFor_le_links (i := i) (c.lt hy) hy
        rw [hlinks0, Node.entriesFor, if_pos hdir] at hno
        refine Slots.count_congr fun j e hj => ?_
        have hne : e.2 ≠ i := fun he => by
          have := Slots.count_pos (p := fun e => decide (e.2 = i)) hj (by simpa using he)
          omega
        unfold isDir
        rw [update_of_ne hne]
      · rfl
    have hcase : ∀ {x y}, update N i none x = some y → x ≠ i ∧ N x = some y := by
      intro x y hy
      by_cases hx : x = i
      · rw [hx, update_self] at hy
        cases hy
      · rw [update_of_ne hx] at hy
        exact ⟨hx, hy⟩
    refine ⟨⟨fun hy => c.dots (hcase hy).2, fun x y hy => ?_, fun hy => c.bound (hcase hy).2, fun {x} hx => ?_,
      ?_, fun hy => c.lt (hcase hy).2⟩, fun x hx => ?_⟩
    · obtain ⟨-, hy⟩ := hcase hy
      rw [hlinks, hsubdirs hy]
      exact c.count x y hy
    · rw [hlinks]
      by_cases hxi : x = i
      · rw [hxi]
        exact hlinks0
      · rw [update_of_ne hxi] at hx
        exact c.free hx
    · by_cases h0 : (0 : Nat) = i
      · rw [h0, update_self]
      · rw [update_of_ne h0]
        exact c.zero
    · have hxi : x ≠ i := by
        rintro rfl
        unfold isDir at hx
        rw [update_self] at hx
        cases hx
      rw [hlinks]
      refine hused x hxi ?_
      unfold isDir at hx ⊢
      rwa [update_of_ne hxi] at hx
  · rename_i hkeep
    refine ⟨c, fun x hx => ?_⟩
    by_cases hxi : x = i
    · subst hxi
      rw [hnd] at hkeep
      by_cases hI : x ∈ I
      · exact .inr (.inr hI)
      · have hne : nd.nlink ≠ 0 := fun h0 => hkeep ⟨hI, by simpa using h0⟩
        by_cases hr : x = ROOTINO
        · exact .inr (.inl hr)
        · rw [if_neg hr] at hcount
          exact .inl (by omega)
    · exact hused x hxi hx

/-! ## `sys_link` and `sys_unlink` -/

/-- The directories have whole entries. -/
def WholeDirs (N : Nat → Option Node) : Prop :=
  ∀ {d dnd}, N d = some dnd → dnd.type = T_DIR → direntSize ∣ dnd.data.length

theorem Links.oneMore {name : Nat → UInt8} (h : Links I N i d name N') (c : Counted n I N) (hn : n ≤ 65536)
    (hw : WholeDirs N) (hlt : ∀ nd, N i = some nd → nd.nlink + 1 < 2 ^ 15) : OneMore N N' d i := by
  obtain ⟨nd, dnd, hnd, hdnd, hfile, hdir, -, rfl⟩ := h
  have hlt := hlt nd hnd
  have hid : i ≠ d := by
    rintro rfl
    rw [hnd] at hdnd
    cases hdnd
    exact hfile hdir
  have hi0 : i ≠ 0 := by
    rintro rfl
    rw [c.zero] at hnd
    cases hnd
  have hi := c.lt hnd
  have h2 : 2 ≤ Slots.free (dirSlots dnd.data) := by
    obtain ⟨a, b, h0, h1⟩ := c.dots hdnd hdir
    refine Slots.le_free fun j hj => ?_
    have hj : j = 0 ∨ j = 1 := by omega
    rcases hj with rfl | rfl
    · exact ⟨_, h0⟩
    · exact ⟨_, h1⟩
  have hinc : incLink nd.nlink = nd.nlink + 1 := by
    unfold incLink
    omega
  have hkeep : ∀ x, update (update N i (some { nd with nlink := incLink nd.nlink })) d
      (some { dnd with data := addEntry dnd.data name i }) i = some x → x.nlink = 0 → i ∈ I := by
    intro x hx h0
    rw [update_of_ne hid, update_self] at hx
    cases hx
    rw [hinc] at h0
    cases h0
  rw [dropRef_of_held hkeep, hinc]
  obtain ⟨hfirst, hcnt⟩ := addEntry_counts name (hw hdnd hdir) hi0 (by omega) h2
  refine ⟨hid, ⟨dnd, _, nameKey name, hdnd, update_self _ _ _, hdir, hdir, hfirst, hcnt, ?_⟩,
    ⟨nd, hnd, ?_⟩, fun x h1 h2 => ?_⟩
  · rw [isDir, hnd]
    simp [hfile]
  · rw [update_of_ne hid, update_self]
  · rw [update_of_ne h1, update_of_ne h2]

theorem one_le_of_short {m : Nat} (h : m < 2 ^ 15) (hs : 1 ≤ short m) : 1 ≤ m := by
  rw [short, if_pos h] at hs
  omega

theorem Unlinks.oneMore (h : Unlinks I N d key N') (c : Counted n I N) (hw : WholeDirs N) :
    ∃ i N₁ nd, OneMore N₁ N d i ∧ N₁ i = some nd ∧
      (nd.type = T_DIR → nd.userSlots.all Option.isNone = true) ∧ N' = dropRef I N₁ i := by
  obtain ⟨dnd, i, j, nd, hdnd, hdir, hdot, hdotdot, hlook, hid, hnd, hpos, hempty, rfl⟩ := h
  have hj := Slots.lookup_mem hlook
  have hj2 := c.two_le hdnd hdir hdot hdotdot hj
  have hnl : 1 ≤ nd.nlink := one_le_of_short (c.bound hnd) hpos
  have hdec : ∀ {m : Nat}, 1 ≤ m → m < 2 ^ 15 → decLink m = m - 1 := fun h1 h2 => by
    unfold decLink
    omega
  have hisd : (isDir N i = true) ↔ nd.type = T_DIR := by
    rw [isDir, hnd]
    simp
  -- the directory has a link for each subdirectory
  have hcount := c.count d dnd hdnd
  have hsub : nd.type = T_DIR → 1 ≤ dnd.subdirs N := by
    intro ht
    rw [Node.subdirs, if_pos hdir]
    rw [← Node.userSlots_getElem? dnd hj2] at hj
    exact Slots.count_pos hj (hisd.mpr ht)
  have hnlink : (dnd.without j nd).nlink + (if nd.type = T_DIR then 1 else 0) = dnd.nlink := by
    unfold Node.without
    split
    · rename_i ht
      have := hsub ht
      rw [hdec (by omega) (c.bound hdnd)]
      show dnd.nlink - 1 + 1 = dnd.nlink
      omega
    · rfl
  have hkeep : dropRef (i :: I) (update N d (some (dnd.without j nd))) d =
      update N d (some (dnd.without j nd)) := by
    refine dropRef_of_held fun x hx h0 => List.mem_cons_of_mem _ ?_
    rw [update_self] at hx
    cases hx
    have hu := c.used d (by rw [isDir, hdnd]; simpa using hdir)
    have hle : (if nd.type = T_DIR then 1 else 0) ≤ dnd.subdirs N := by
      split
      · rename_i ht
        exact hsub ht
      · exact Nat.zero_le _
    by_cases hr : d = ROOTINO
    · rw [if_pos hr] at hcount
      omega
    · rcases hu with hu | hu | hu
      · omega
      · exact absurd hu hr
      · exact hu
  obtain ⟨hfirst, hcnt⟩ := clear_counts (hw hdnd hdir) hj2 hj
  refine ⟨i, update (update N d (some (dnd.without j nd))) i
    (some { nd with nlink := decLink nd.nlink }), _, ⟨hid, ⟨dnd.without j nd, dnd, key, ?_, hdnd, hdir, hdir,
      fun j' hj' => (hfirst j' hj').symm, fun p => (hcnt p).symm, ?_⟩, ⟨_, update_self _ _ _, ?_⟩,
      fun x h1 h2 => ?_⟩, update_self _ _ _, hempty, ?_⟩
  · rw [update_of_ne hid.symm, update_self]
  · rw [isDir, update_self, ← hnlink]
    simp
  · rw [hdec hnl (c.bound hnd), hnd]
    congr 1
    show nd = { nd with nlink := nd.nlink - 1 + 1 }
    rw [Nat.sub_add_cancel hnl]
  · rw [update_of_ne h2, update_of_ne h1]
  · rw [removeLink, hkeep]

/-- A link that is removed. -/
theorem Unlinks.counted (h : Unlinks I N d key N') (c : Counted n I N) (hw : WholeDirs N) : Counted n I N' := by
  obtain ⟨i, N₁, nd, hone, hnd, hempty, rfl⟩ := h.oneMore c hw
  obtain ⟨ht, hu⟩ := hone.tallied c
  exact ht.drop hu hnd hempty

/-- With right counts, `sys_unlink` never finds a count that is not positive. -/
theorem Counted.not_badCount (c : Counted n I N) : ¬ BadCount N := by
  rintro ⟨d, dnd, key, i, j, nd, hdnd, hdir, h1, h2, hlook, hnd, hbad⟩
  have hj := Slots.lookup_mem hlook
  have hpos := c.links_pos hdnd hdir (c.two_le hdnd hdir h1 h2 hj) hj
  have hcount := c.count i nd hnd
  rw [short, if_pos (c.bound hnd)] at hbad
  omega

end Counts

/-! ## Runs -/

section Runs

variable {sb : Superblock} {E : Panic → Prop} {s s' s₀ : St} {L I : List Nat} {N N' : Nat → Option Node}
  {d i : Nat} {key : List UInt8} {name : Nat → UInt8}

theorem dropRef_ne_none {x : Nat} (hx : x ∈ I) (h : N x ≠ none) : dropRef I N i x ≠ none := by
  by_cases hxi : x = i
  · unfold dropRef
    rw [if_neg fun hc => hc.1 (hxi ▸ hx)]
    exact h
  · rwa [dropRef_of_ne hxi]

theorem DirsOk.dropRef (h : DirsOk sb N) : DirsOk sb (dropRef I N i) := by
  intro x nd hnd
  unfold Fs.dropRef at hnd
  split at hnd
  · by_cases hx : x = i
    · rw [hx, update_self] at hnd
      cases hnd
    · rw [update_of_ne hx] at hnd
      exact h x nd hnd
  · exact h x nd hnd

theorem DirOk.addEntry {n : Nat} {data : List UInt8} (h : DirOk n data) (hn : n ≤ 65536) (hi : i < n) :
    DirOk n (addEntry data name i) := by
  refine h.splice ?_ (length_dirent _ _) ?_
  · have := Slots.free_le (dirSlots data)
    rwa [length_dirSlots] at this
  · rw [direntInum_dirent i _ (by omega)]
    exact hi

theorem Links.dirsOk (h : Links I N i d name N') (dirs : DirsOk sb N) (hn : sb.ninodes ≤ 65536)
    (hi : i < sb.ninodes) : DirsOk sb N' := by
  obtain ⟨nd, dnd, -, hdnd, hfile, hdir, -, rfl⟩ := h
  refine DirsOk.dropRef (DirsOk.update (DirsOk.update dirs ?_) ?_)
  · exact fun ht => absurd ht hfile
  · exact fun _ => (dirs d dnd hdnd hdir).addEntry hn hi

theorem Unlinks.dirsOk (h : Unlinks I N d key N') (dirs : DirsOk sb N) : DirsOk sb N' := by
  obtain ⟨dnd, i, j, nd, hdnd, hdir, -, -, hlook, -, hnd, -, -, rfl⟩ := h
  have hlt := (List.getElem?_eq_some_iff.mp (Slots.lookup_mem hlook)).1
  rw [length_dirSlots] at hlt
  have hok := dirs d dnd hdnd hdir
  have hz : direntInum (List.replicate direntSize 0) = 0 := by decide
  have hclear : DirOk sb.ninodes (dnd.without j nd).data := by
    refine hok.splice (Nat.le_of_lt hlt) (by simp) ?_
    rw [hz]
    exact Nat.lt_of_le_of_lt (Nat.zero_le _) (hok.lookup_lt hlook)
  refine DirsOk.dropRef (DirsOk.update (DirsOk.dropRef (DirsOk.update dirs ?_)) ?_)
  · exact fun _ => hclear
  · exact fun ht => dirs i nd hnd ht

theorem Unlinks.ne_none (h : Unlinks I N d key N') {x : Nat} (hx : x ∈ I) (hne : N x ≠ none) : N' x ≠ none := by
  obtain ⟨dnd, i, j, nd, -, -, -, -, -, -, -, -, -, rfl⟩ := h
  exact dropRef_ne_none hx (update_ne_none (dropRef_ne_none (List.mem_cons_of_mem _ hx) (update_ne_none hne)))

/-- The root directory is not freed. -/
theorem Unlinks.root {n : Nat} (h : Unlinks I N d key N') (c : Counted n I N) (hw : WholeDirs N)
    (hdir : isDir N ROOTINO = true) : isDir N' ROOTINO = true := by
  obtain ⟨i, N₁, nd, hone, hnd, -, rfl⟩ := h.oneMore c hw
  rw [hone.isDir_eq] at hdir
  unfold isDir at hdir ⊢
  by_cases hi : ROOTINO = i
  · subst hi
    unfold dropRef
    rw [if_neg]
    · exact hdir
    · rintro ⟨-, h0⟩
      have := (hone.tallied c).1.count ROOTINO nd hnd
      rw [if_pos rfl] at this
      rw [hnd] at h0
      have h0 : nd.nlink = 0 := by simpa using h0
      omega
  · rwa [dropRef_of_ne hi]

/-- A call of `sys_link`, with a count that can be raised, or of `sys_unlink`, that returns. -/
inductive LinkStep (sb : Superblock) (L : List Nat) : St → St → Prop
  | link {s s' : St} {cwd : Nat} {old new : Option (List UInt8)} {name : Nat → UInt8} {r : Int}
      (hcwd : cwd ∈ L) (hold : ∀ p, old = some p → ∀ b ∈ p, b ≠ 0) (hnew : ∀ p, new = some p → ∀ b ∈ p, b ≠ 0)
      (hfit : ∀ p i nd, old = some p → walk (s.node sb) (s.startOf cwd p) (components p) = some i →
        s.node sb i = some nd → nd.nlink < 32767)
      (hrun : sysLink sb cwd old new name s = .ok (r, s')) : LinkStep sb L s s'
  | unlink {s s' : St} {cwd : Nat} {path : Option (List UInt8)} {name : Nat → UInt8} {r : Int}
      (hcwd : cwd ∈ L) (hpath : ∀ p, path = some p → ∀ b ∈ p, b ≠ 0)
      (hrun : sysUnlink sb cwd path name s = .ok (r, s')) : LinkStep sb L s s'

/-- A state between two calls with right link counts. -/
structure LinksOk (sb : Superblock) (L : List Nat) (s : St) : Prop extends SysOk sb L s where
  rootDir : isDir (s.node sb) ROOTINO = true
  counted : Counted sb.ninodes (s.inums L) (s.node sb)

theorem SysOk.wholeDirs (o : SysOk sb L s) : WholeDirs (s.node sb) :=
  fun hdnd hdir => (o.dirs _ _ hdnd hdir).dvd

/-- The state after a call, from what it has done to the nodes. -/
theorem LinksOk.called (o : LinksOk sb L s) (h : Called sb L s s') (dirs : DirsOk sb (s'.node sb))
    (hlive : ∀ x ∈ s.inums L, s.node sb x ≠ none → s'.node sb x ≠ none) (hroot : isDir (s'.node sb) ROOTINO = true)
    (c : Counted sb.ninodes (s.inums L) (s'.node sb)) : LinksOk sb L s' := by
  refine ⟨⟨h.ok, dirs, fun k hk => ?_, h.unlocked, fun h0 => ?_⟩, hroot, ?_⟩
  · rw [h.inum k hk]
    exact hlive _ (List.mem_map.mpr ⟨k, hk, rfl⟩) (o.live k hk)
  · unfold isDir at hroot
    rw [h0] at hroot
    cases hroot
  · rw [h.toKeeps.inums]
    exact c

theorem LinksOk.same (o : LinksOk sb L s) (h : Called sb L s s') (hn : s'.node sb = s.node sb) : LinksOk sb L s' := by
  have hd := o.dirs
  have hr := o.rootDir
  have hc := o.counted
  rw [← hn] at hd hr hc
  exact o.called h hd (fun x _ hx => by rw [hn]; exact hx) hr hc

theorem mayStop_true : MayStop (fun _ => True) := ⟨trivial, trivial, trivial, trivial⟩

/-- One call. -/
theorem LinkStep.linksOk (w : sb.Wf) (hn : sb.ninodes ≤ 65536) (h : LinkStep sb L s s') (o : LinksOk sb L s) :
    LinksOk sb L s' := by
  cases h with
  | @link cwd old new name r hcwd hold hnew hfit hrun =>
    obtain ⟨hcalled, ⟨-, hsame⟩ | ⟨-, p, q, i, d, name', rfl, -, hwalk, -, hl⟩⟩ :=
      (sysLink_ok w mayStop_true o.toSysOk hcwd hold hnew name).ok hrun
    · exact o.same hcalled hsame
    · have hlt : ∀ nd, s.node sb i = some nd → nd.nlink + 1 < 2 ^ 15 := fun nd hnd => by
        have := hfit p i nd rfl hwalk hnd
        omega
      have hone := hl.oneMore o.counted hn o.wholeDirs hlt
      have hi : i < sb.ninodes := walk_lt o.dirs (o.start_lt hcwd p) hwalk
      have hne : ∀ x, s.node sb x ≠ none → s'.node sb x ≠ none := fun x hx h0 =>
        hx ((hone.eq_none_iff x).mp h0)
      have hroot : isDir (s'.node sb) ROOTINO = true := by
        rw [hone.isDir_eq]
        exact o.rootDir
      refine o.called hcalled (hl.dirsOk o.dirs hn hi) (fun x _ hx => hne x hx) hroot
        (hone.counted o.counted fun {x y} hy => ?_)
      obtain ⟨dnd, dnd', key, hd, hd', -, -, -, -, hnl⟩ := hone.dir
      obtain ⟨nd, hi, hi'⟩ := hone.inode
      by_cases h1 : x = d
      · rw [h1, hd'] at hy
        cases hy
        obtain ⟨nd₀, -, hnd₀, -, hfile, -⟩ := hl
        have hno : isDir (s.node sb) i = false := by
          rw [isDir, hnd₀]
          simpa using hfile
        rw [hnl, hno]
        exact o.counted.bound hd
      · by_cases h2 : x = i
        · rw [h2, hi'] at hy
          cases hy
          exact hlt nd hi
        · rw [hone.other x h1 h2] at hy
          exact o.counted.bound hy
  | @unlink cwd path name r hcwd hpath hrun =>
    obtain ⟨hcalled, ⟨-, hsame⟩ | ⟨-, p, d, key, -, -, hu⟩⟩ :=
      (sysUnlink_ok w mayStop_true o.toSysOk (fun _ => trivial) hcwd hpath name).ok hrun
    · exact o.same hcalled hsame
    · exact o.called hcalled (hu.dirsOk o.dirs) (fun x hx hne => hu.ne_none hx hne)
        (hu.root o.counted o.wholeDirs o.rootDir) (hu.counted o.counted o.wholeDirs)

/-- Any number of calls. -/
theorem linksOk_of_run (w : sb.Wf) (hn : sb.ninodes ≤ 65536) (o : LinksOk sb L s₀)
    (h : Relation.ReflTransGen (LinkStep sb L) s₀ s) : LinksOk sb L s := by
  induction h with
  | refl => exact o
  | tail _ hstep ih => exact hstep.linksOk w hn ih

/-- In a run of calls that raise no count above the largest `short`, the link count of every file is
the number of its entries, no inode with an entry is free, and `sys_unlink` does not stop for a link
count. -/
theorem link_counts_right (w : sb.Wf) (hn : sb.ninodes ≤ 65536) (o : LinksOk sb L s₀)
    (h : Relation.ReflTransGen (LinkStep sb L) s₀ s) :
    (∀ i nd, s.node sb i = some nd → nd.type ≠ T_DIR →
      short nd.nlink = links sb.ninodes (s.node sb) i) ∧
    (∀ i, links sb.ninodes (s.node sb) i ≠ 0 → s.node sb i ≠ none) ∧
    ∀ cwd ∈ L, ∀ path : Option (List UInt8), (∀ p, path = some p → ∀ b ∈ p, b ≠ 0) → ∀ name,
      sysUnlink sb cwd path name s ≠ .error .unlinkNlink := by
  have o := linksOk_of_run w hn o h
  refine ⟨fun i nd hnd hfile => ?_, fun i hi h0 => hi (o.counted.free h0),
    fun cwd hcwd path hpath name he => ?_⟩
  · have hroot : i ≠ ROOTINO := by
      rintro rfl
      have hd := o.rootDir
      rw [isDir, hnd] at hd
      exact hfile (by simpa using hd)
    have hc := o.counted.count i nd hnd
    rw [Node.subdirs, if_neg hfile, if_neg hroot] at hc
    rw [short, if_pos (o.counted.bound hnd), hc]
    rfl
  · have m : MayStop fun e => e ≠ Panic.unlinkNlink := by constructor <;> simp
    exact (sysUnlink_ok w m o.toSysOk (fun hb => absurd hb o.counted.not_badCount) hcwd hpath
      name).error he rfl

/-- One fact about each of the three inodes in use on the small disk. -/
theorem sample_cases {P : Nat → Node → Prop} (h1 : P 1 sampleRoot) (h2 : P 2 sampleFile) (h3 : P 3 sampleDir)
    {i : Nat} {nd : Node} (h : sample.st.node sample.sb i = some nd) : P i nd := by
  rw [sample_node] at h
  split at h
  · rename_i hi
    cases h
    exact hi ▸ h1
  split at h
  · rename_i hi
    cases h
    exact hi ▸ h2
  split at h
  · rename_i hi
    cases h
    exact hi ▸ h3
  · cases h

theorem sample_isDir (i : Nat) : isDir (sample.st.node sample.sb) i = decide (i = 1 ∨ i = 3) := by
  rw [isDir, sample_node]
  split
  · rename_i h
    simp [h, sampleRoot]
  split
  · rename_i h
    simp [h, sampleFile, T_FILE, T_DIR]
  split
  · rename_i h
    simp [h, sampleDir]
  · exact (decide_eq_false (by omega)).symm

theorem sample_links (i : Nat) : links sample.sb.ninodes (sample.st.node sample.sb) i =
    if i = 2 ∨ i = 3 then 1 else 0 := by
  have hroot : sampleRoot.entriesFor i = if i = 2 ∨ i = 3 then 1 else 0 := by
    refine (if_pos (c := sampleRoot.type = T_DIR) rfl).trans ?_
    rw [Node.userSlots, sampleRoot_slots]
    simp only [Slots.count, List.drop_succ_cons, List.drop_zero, List.countP_cons, List.countP_nil, Option.any,
      decide_eq_true_eq]
    split <;> split <;> split <;> omega
  have hdir : sampleDir.entriesFor i = 0 := by
    refine (if_pos (c := sampleDir.type = T_DIR) rfl).trans ?_
    rw [Node.userSlots, sampleDir_slots]
    rfl
  have hsub : ({1} : Finset Nat) ⊆ range sample.sb.ninodes := by decide
  rw [links, ← sum_subset hsub, sum_singleton, sample_node, if_pos rfl, Option.elim_some, hroot]
  intro d _ hd
  rw [mem_singleton] at hd
  rw [sample_node, if_neg hd]
  split
  · rfl
  split
  · exact hdir
  · rfl

theorem sample_counted (I : List Nat) : Counted sample.sb.ninodes I (sample.st.node sample.sb) := by
  refine ⟨⟨?_, fun i nd hnd => ?_, ?_, fun {i} hi => ?_, ?_, ?_⟩, fun d hd => ?_⟩
  · refine sample_cases (P := fun _ nd => DotsOk nd) (fun _ => ⟨1, 1, ?_, ?_⟩) nofun fun _ => ⟨3, 1, ?_, ?_⟩
    · rw [sampleRoot_slots]
      rfl
    · rw [sampleRoot_slots]
      rfl
    · rw [sampleDir_slots]
      rfl
    · rw [sampleDir_slots]
      rfl
  · refine sample_cases (P := fun i nd => nd.nlink = links sample.sb.ninodes (sample.st.node sample.sb) i +
      nd.subdirs (sample.st.node sample.sb) + if i = ROOTINO then 1 else 0) ?_ ?_ ?_ hnd
    · have hsub : sampleRoot.subdirs (sample.st.node sample.sb) = 1 := by
        refine (if_pos (c := sampleRoot.type = T_DIR) rfl).trans ?_
        rw [Node.userSlots, sampleRoot_slots]
        simp [Slots.count, sample_isDir]
      rw [hsub, sample_links]
      rfl
    · rw [sample_links]
      rfl
    · have hsub : sampleDir.subdirs (sample.st.node sample.sb) = 0 := by
        refine (if_pos (c := sampleDir.type = T_DIR) rfl).trans ?_
        rw [Node.userSlots, sampleDir_slots]
        rfl
      rw [hsub, sample_links]
      rfl
  · exact sample_cases (P := fun _ nd => nd.nlink < 2 ^ 15) (by decide) (by decide) (by decide)
  · rw [sample_node] at hi
    rw [sample_links]
    split at hi
    · cases hi
    split at hi
    · cases hi
    split at hi
    · cases hi
    · rw [if_neg (by omega)]
  · rw [sample_node]
    rfl
  · exact sample_cases (P := fun i _ => i < sample.sb.ninodes) (by decide) (by decide) (by decide)
  · rw [sample_isDir, decide_eq_true_eq] at hd
    rw [sample_links]
    rcases hd with rfl | rfl
    · exact .inr (.inl rfl)
    · exact .inl (by decide)

/-- `link("f", "g")` on the small disk. -/
theorem link_counts_right_sample : ∃ cwd s s' nd, iget ROOTINO sample.st = .ok (cwd, s) ∧
    LinksOk sample.sb [cwd] s ∧ LinkStep sample.sb [cwd] s s' ∧ s'.node sample.sb 2 = some nd ∧
    short nd.nlink = 2 ∧ links sample.sb.ninodes (s'.node sample.sb) 2 = 2 := by
  obtain ⟨cwd, s, hget, o, hnode, -⟩ := sample_sysOk
  have hok : LinksOk sample.sb [cwd] s := by
    refine ⟨o, ?_, ?_⟩
    · rw [hnode, sample_isDir]
      rfl
    · rw [hnode]
      exact sample_counted _
  have hres : ((iget ROOTINO sample.st).toOption.bind fun r =>
      (sysLink sample.sb r.1 (some [102]) (some [103]) (fun _ => 0) r.2).toOption.bind fun x =>
        (x.2.node sample.sb 2).map fun nd => (nd.type, nd.nlink)) = some (T_FILE, 2) := by decide +kernel
  obtain ⟨a, hget', hres⟩ := Option.bind_eq_some_iff.mp hres
  have ha := ok_of_toOption hget'
  rw [hget] at ha
  cases ha
  obtain ⟨⟨r, s'⟩, hlink, hres⟩ := Option.bind_eq_some_iff.mp hres
  obtain ⟨nd, hnd, hres⟩ := Option.map_eq_some_iff.mp hres
  simp only [Prod.mk.injEq] at hres
  obtain ⟨ht, hn⟩ := hres
  have hstep : LinkStep sample.sb [cwd] s s' := by
    refine .link List.mem_cons_self ?_ ?_ ?_ (ok_of_toOption hlink)
    · rintro p ⟨⟩
      exact ne_zero_of_all rfl
    · rintro p ⟨⟩
      exact ne_zero_of_all rfl
    · rintro p i nd - - hnd
      rw [hnode] at hnd
      exact sample_cases (P := fun _ nd => nd.nlink < 32767) (by decide) (by decide) (by decide) hnd
  have h2 : short nd.nlink = 2 := by
    rw [hn]
    rfl
  have hright := (link_counts_right sample_ok.wf (by decide) hok (.single hstep)).1 2 nd hnd
    (by rw [ht]; decide)
  rw [h2] at hright
  exact ⟨cwd, s, s', nd, hget, hok, hstep, hnd, h2, by exact_mod_cast hright.symm⟩

end Runs

/-! ## A file with 32767 links -/

/-- The entry `j` of a directory with many links to inode 2. -/
def manyLinks (d j : Nat) : Nat × List UInt8 :=
  if j = 0 then (d, dot)
  else if j = 1 then (ROOTINO, dotdot)
  else (2, [j % 16, j / 16 % 16, j / 256 % 16, j / 4096].map fun x => UInt8.ofNat (97 + x))

/-- The entries of the root directory. -/
def manyRoot (j : Nat) : Nat × List UInt8 :=
  [(1, dot), (1, dotdot), (2, [102]), (3, [97]), (4, [98])].getD j (0, [])

/-- A disk with the file `f`, which has one link in the root directory, 16384 in the directory `a` and
16382 in the directory `b`. -/
def many : Plan where
  sb := { size := 600, nblocks := 596, ninodes := 16, inodestart := 2, bmapstart := 3 }
  type i := if i = 1 ∨ i = 3 ∨ i = 4 then T_DIR else if i = 2 then T_FILE else 0
  nlink i := if i = 1 then 3 else if i = 2 then 32767 else 1
  size i := (if i = 1 then 5 else if i = 3 then 16386 else if i = 4 then 16384 else 0) * direntSize
  byte i := if i = 1 then dirBytes manyRoot else dirBytes (manyLinks i)
  place i σ := (if i = 1 then 4 else if i = 3 then 5 else 263) + slotIndex σ
  owner b :=
    if b = 4 then some (1, .direct 0)
    else if 5 ≤ b ∧ b < 263 then some (3, slotAt (b - 5))
    else if 263 ≤ b ∧ b < 520 then some (4, slotAt (b - 263))
    else none

/-- The root directory. -/
def manyTop : Node where
  type := T_DIR
  nlink := 3
  data := Bytes.slice (dirBytes manyRoot) 0 (5 * direntSize)

/-- The directory `a` or `b`. -/
def manyDir (d m : Nat) : Node where
  type := T_DIR
  nlink := 1
  data := Bytes.slice (dirBytes (manyLinks d)) 0 (m * direntSize)

theorem many_type {i : Nat} (h : many.type i ≠ 0) : i = 1 ∨ i = 2 ∨ i = 3 ∨ i = 4 := by
  simp only [many] at h
  split at h
  · omega
  split at h
  · omega
  · exact absurd rfl h

theorem many_size (i : Nat) : many.size i =
    (if i = 1 then 5 else if i = 3 then 16386 else if i = 4 then 16384 else 0) * direntSize := rfl

theorem many_place (i : Nat) (σ : Slot) : many.place i σ =
    (if i = 1 then 4 else if i = 3 then 5 else 263) + slotIndex σ := rfl

theorem many_owner (b : Nat) : many.owner b =
    if b = 4 then some (1, .direct 0)
    else if 5 ≤ b ∧ b < 263 then some (3, slotAt (b - 5))
    else if 263 ≤ b ∧ b < 520 then some (4, slotAt (b - 263))
    else none := rfl

theorem many_ok : many.Ok where
  wf := by constructor <;> decide
  type_lt i := by
    simp only [many]
    split
    · decide
    split <;> decide
  nlink_lt i := by
    simp only [many]
    split
    · decide
    split <;> decide
  size_le i := by
    rw [many_size]
    refine Nat.le_trans (Nat.mul_le_mul_right direntSize (m := 16386) ?_) (by decide)
    split
    · omega
    split
    · omega
    split <;> omega
  inode_end i hi := by
    by_contra hne
    have := many_type hne
    have hi : 16 ≤ i := hi
    omega
  nlink i _ := by
    simp only [many]
    split
    · decide
    split <;> decide
  data b x h := by
    have hd : ∀ b, 4 ≤ b → b < 520 → many.sb.Data b := fun b h1 h2 => ⟨h1, Nat.lt_trans h2 (by decide)⟩
    rw [many_owner] at h
    split at h
    · exact hd b (by omega) (by omega)
    split at h
    · exact hd b (by omega) (by omega)
    split at h
    · exact hd b (by omega) (by omega)
    · cases h
  owner i σ ht hu := by
    have hd := Plan.lt_of_uses_direct hu
    rw [many_place]
    rcases many_type ht with rfl | rfl | rfl | rfl
    · have hle := Plan.slotIndex_le (c := 1) (by decide) hu
      have hz : σ = .direct 0 := by
        cases σ with
        | direct k =>
          have hk : k * BSIZE < many.size 1 := by
            simp only [Plan.uses, Bool.and_eq_true, decide_eq_true_eq] at hu
            exact hu.2
          have : many.size 1 = 80 := by decide
          simp only [BSIZE] at hk
          congr 1
          omega
        | indirect => simp [slotIndex, NDIRECT] at hle
        | entry j => simp [slotIndex, NDIRECT] at hle; omega
      rw [hz]
      rfl
    · exact absurd (Plan.size_pos_of_uses hu) (by decide)
    · have hle := Plan.slotIndex_le (c := 257) (by decide) hu
      rw [many_owner]
      simp only [show (3 : Nat) = 1 ↔ False by decide, if_false, if_true]
      rw [if_neg (by omega), if_pos (by omega), Nat.add_sub_cancel_left, slotAt_slotIndex hd]
    · have hle := Plan.slotIndex_le (c := 256) (by decide) hu
      rw [many_owner]
      simp only [show (4 : Nat) = 1 ↔ False by decide, show (4 : Nat) = 3 ↔ False by decide, if_false]
      rw [if_neg (by omega), if_neg (by omega), if_pos (by omega), Nat.add_sub_cancel_left,
        slotAt_slotIndex hd]
  owned b i σ h := by
    rw [many_owner] at h
    split at h
    · rename_i hb
      cases h
      exact ⟨by decide, by decide, hb.symm⟩
    split at h
    · rename_i hb
      cases h
      refine ⟨by decide, Plan.uses_slotAt (c := 257) (by decide) (by decide) (by decide) (by omega), ?_⟩
      rw [many_place, slotIndex_slotAt]
      show 5 + (b - 5) = b
      omega
    split at h
    · rename_i hb
      cases h
      refine ⟨by decide, Plan.uses_slotAt (c := 256) (by decide) (by decide) (by decide) (by omega), ?_⟩
      rw [many_place, slotIndex_slotAt]
      show 263 + (b - 263) = b
      omega
    · cases h

theorem many_node (i : Nat) : many.image.st.node many.sb i = if i = 1 then some manyTop
    else if i = 2 then some ⟨T_FILE, 0, 0, 32767, []⟩ else if i = 3 then some (manyDir 3 16386)
    else if i = 4 then some (manyDir 4 16384) else none := by
  by_cases ht : many.type i = 0
  · rw [many_ok.node_free ht]
    simp only [many] at ht
    split at ht
    · cases ht
    split at ht
    · cases ht
    · rw [if_neg (by omega), if_neg (by omega), if_neg (by omega), if_neg (by omega)]
  · rcases many_type ht with rfl | rfl | rfl | rfl <;> exact many_ok.node (by decide)

/-- The entries of the directory `a` or `b` are all for the file. -/
theorem manyDir_count {d m : Nat} (q : Nat → Bool) :
    Slots.count (fun e => q e.2) (manyDir d m).userSlots = if q 2 then m - 2 else 0 := by
  have hslots : (manyDir d m).userSlots = (List.range' 2 (m - 2)).map fun j =>
      dirEntry (dirent (manyLinks d j).1 fun i => (manyLinks d j).2.getD i 0) := by
    show (dirSlots (Bytes.slice (dirBytes (manyLinks d)) 0 (m * direntSize))).drop 2 = _
    rw [dirSlots_dirBytes, ← List.map_drop, List.range_eq_range', List.drop_range']
  have hall : ∀ o ∈ (manyDir d m).userSlots, o.any (fun e => q e.2) = q 2 := by
    rw [hslots]
    intro o ho
    obtain ⟨j, hj, rfl⟩ := List.mem_map.mp ho
    have hj := (List.mem_range'_1.mp hj).1
    have h2 : (manyLinks d j).1 = 2 := by
      rw [manyLinks, if_neg (by omega), if_neg (by omega)]
    rw [h2, dirEntry, direntInum_dirent _ _ (by decide)]
    rfl
  unfold Slots.count
  split
  · rename_i hq
    rw [List.countP_eq_length.mpr fun o ho => (hall o ho).trans hq, hslots, List.length_map, List.length_range']
  · rename_i hq
    exact List.countP_eq_zero.mpr fun o ho => by rw [hall o ho]; exact hq

theorem manyTop_slots : dirSlots manyTop.data =
    [some (dot, 1), some (dotdot, 1), some ([102], 2), some ([97], 3), some ([98], 4)] := by
  refine (dirSlots_dirBytes manyRoot 5).trans ?_
  decide

theorem manyTop_count (q : Nat → Bool) : Slots.count (fun e => q e.2) manyTop.userSlots =
    (if q 2 then 1 else 0) + (if q 3 then 1 else 0) + (if q 4 then 1 else 0) := by
  rw [Node.userSlots, manyTop_slots]
  simp only [Slots.count, List.drop_succ_cons, List.drop_zero, List.countP_cons, List.countP_nil, Option.any]
  omega

theorem many_links (i : Nat) : links many.sb.ninodes (many.image.st.node many.sb) i =
    if i = 2 then 32767 else if i = 3 ∨ i = 4 then 1 else 0 := by
  have hsum : links many.sb.ninodes (many.image.st.node many.sb) i =
      manyTop.entriesFor i + ((manyDir 3 16386).entriesFor i + (manyDir 4 16384).entriesFor i) := by
    have hsub : ({1, 3, 4} : Finset Nat) ⊆ range many.sb.ninodes := by decide
    have h3 : many.image.st.node many.sb 3 = some (manyDir 3 16386) := many_node 3
    have h4 : many.image.st.node many.sb 4 = some (manyDir 4 16384) := many_node 4
    rw [links, ← sum_subset hsub, sum_insert (by decide), sum_insert (by decide), sum_singleton, many_node,
      if_pos rfl, h3, h4]
    · rw [Option.elim_some, Option.elim_some, Option.elim_some]
    · intro d _ hd
      simp only [mem_insert, mem_singleton, not_or] at hd
      rw [many_node, if_neg hd.1]
      split
      · rfl
      · rw [if_neg hd.2.1, if_neg hd.2.2]
        rfl
  have hdir : ∀ d m, (manyDir d m).entriesFor i = if i = 2 then m - 2 else 0 := by
    intro d m
    refine (if_pos (c := (manyDir d m).type = T_DIR) rfl).trans ?_
    rw [manyDir_count fun x => decide (x = i)]
    simp only [decide_eq_true_eq, eq_comm (a := 2)]
  have htop : manyTop.entriesFor i = if i = 2 ∨ i = 3 ∨ i = 4 then 1 else 0 := by
    refine (if_pos (c := manyTop.type = T_DIR) rfl).trans ?_
    rw [manyTop_count fun x => decide (x = i)]
    simp only [decide_eq_true_eq]
    split <;> split <;> split <;> split <;> omega
  rw [hsum, hdir, hdir, htop]
  by_cases h2 : i = 2
  · simp [h2]
  · simp [h2]

theorem many_isDir (i : Nat) : isDir (many.image.st.node many.sb) i = decide (i = 1 ∨ i = 3 ∨ i = 4) := by
  rw [isDir, many_node]
  split
  · rename_i h
    simp [h, manyTop]
  split
  · rename_i h
    simp [h, T_FILE, T_DIR]
  split
  · rename_i h
    simp [h, manyDir]
  split
  · rename_i h
    simp [h, manyDir]
  · exact (decide_eq_false (by omega)).symm

/-- One fact about each of the four inodes in use. -/
theorem many_cases {P : Nat → Node → Prop} (h1 : P 1 manyTop) (h2 : P 2 ⟨T_FILE, 0, 0, 32767, []⟩)
    (h3 : P 3 (manyDir 3 16386)) (h4 : P 4 (manyDir 4 16384)) {i : Nat} {nd : Node}
    (h : many.image.st.node many.sb i = some nd) : P i nd := by
  rw [many_node] at h
  split at h
  · rename_i hi
    cases h
    exact hi ▸ h1
  split at h
  · rename_i hi
    cases h
    exact hi ▸ h2
  split at h
  · rename_i hi
    cases h
    exact hi ▸ h3
  split at h
  · rename_i hi
    cases h
    exact hi ▸ h4
  · cases h

theorem many_dirs : DirsOk many.sb (many.image.st.node many.sb) := by
  have hdir : ∀ d < 16, ∀ m, DirOk 16 (manyDir d m).data := fun d hd m => by
    refine dirOk_dirBytes (by decide) (fun j => ?_) m
    unfold manyLinks
    split
    · exact hd
    split
    · decide
    · exact (by decide : 2 < 16)
  intro i nd hnd ht
  refine many_cases (P := fun _ nd => nd.type = T_DIR → DirOk 16 nd.data) (fun _ => ?_) nofun
    (fun _ => hdir 3 (by decide) _) (fun _ => hdir 4 (by decide) _) hnd ht
  refine dirOk_dirBytes (by decide) (fun j => ?_) 5
  match j with
  | 0 | 1 | 2 | 3 | 4 => decide
  | _ + 5 => exact (by decide : 0 < 16)

theorem many_counted (I : List Nat) : Counted many.sb.ninodes I (many.image.st.node many.sb) := by
  have hdots : ∀ d m, 2 ≤ m → dirEntry (dirent d fun i => dot.getD i 0) = some (dot, d) →
      DotsOk (manyDir d m) := by
    refine fun d m hm hd _ => ⟨d, ROOTINO, ?_, ?_⟩
    · show (dirSlots (Bytes.slice (dirBytes (manyLinks d)) 0 (m * direntSize)))[0]? = _
      rw [dirSlots_dirBytes, List.getElem?_map, List.getElem?_range (by omega)]
      exact congrArg some hd
    · show (dirSlots (Bytes.slice (dirBytes (manyLinks d)) 0 (m * direntSize)))[1]? = _
      rw [dirSlots_dirBytes, List.getElem?_map, List.getElem?_range (by omega)]
      exact congrArg some (by decide : dirEntry (dirent ROOTINO fun i => dotdot.getD i 0) = some (dotdot, ROOTINO))
  have hsub : ∀ d m, (manyDir d m).subdirs (many.image.st.node many.sb) = 0 := fun d m => by
    refine (if_pos (c := (manyDir d m).type = T_DIR) rfl).trans ?_
    rw [manyDir_count (isDir (many.image.st.node many.sb)), many_isDir]
    rfl
  have htop : manyTop.subdirs (many.image.st.node many.sb) = 2 := by
    refine (if_pos (c := manyTop.type = T_DIR) rfl).trans ?_
    rw [manyTop_count (isDir (many.image.st.node many.sb)), many_isDir, many_isDir, many_isDir]
    rfl
  refine ⟨⟨?_, fun i nd hnd => ?_, ?_, fun {i} hi => ?_, ?_, ?_⟩, fun d hd => ?_⟩
  · refine many_cases (P := fun _ nd => DotsOk nd) (fun _ => ⟨1, 1, ?_, ?_⟩) nofun
      (hdots 3 _ (by decide) (by decide)) (hdots 4 _ (by decide) (by decide))
    · rw [manyTop_slots]
      rfl
    · rw [manyTop_slots]
      rfl
  · refine many_cases (P := fun i nd => nd.nlink = links many.sb.ninodes (many.image.st.node many.sb) i +
      nd.subdirs (many.image.st.node many.sb) + if i = ROOTINO then 1 else 0) ?_ ?_ ?_ ?_ hnd
    · rw [htop, many_links]
      rfl
    · rw [many_links]
      rfl
    · rw [hsub, many_links]
      rfl
    · rw [hsub, many_links]
      rfl
  · exact many_cases (P := fun _ nd => nd.nlink < 2 ^ 15) (by decide) (by decide) (by decide) (by decide)
  · rw [many_node] at hi
    rw [many_links]
    split at hi
    · cases hi
    split at hi
    · cases hi
    split at hi
    · cases hi
    split at hi
    · cases hi
    · rw [if_neg (by assumption), if_neg (by omega)]
  · rw [many_node]
    rfl
  · exact many_cases (P := fun i _ => i < many.sb.ninodes) (by decide) (by decide) (by decide) (by decide)
  · rw [many_isDir, decide_eq_true_eq] at hd
    rw [many_links]
    rcases hd with rfl | rfl | rfl
    · exact .inr (.inl rfl)
    · exact .inl (by decide)
    · exact .inl (by decide)

/-- `link("f", "g")` gives the file a negative link count, and `unlink("g")` stops the kernel. -/
theorem link_count_wraps : ∃ cwd s s' nd, iget ROOTINO many.image.st = .ok (cwd, s) ∧ LinksOk many.sb [cwd] s ∧
    sysLink many.sb cwd (some [102]) (some [103]) (fun _ => 0) s = .ok (0, s') ∧
    s'.node many.sb 2 = some nd ∧ nd.type = T_FILE ∧ short nd.nlink = -32768 ∧
    sysUnlink many.sb cwd (some [103]) (fun _ => 0) s' = .error .unlinkNlink := by
  have hroot : many.image.st.node many.sb ROOTINO ≠ none := by
    rw [many_node, if_pos (show ROOTINO = 1 from rfl)]
    simp
  obtain ⟨cwd, s, hget, o, hnode, -⟩ := many_ok.image_ok.sysOk many_dirs hroot
  have hnode : s.node many.sb = many.image.st.node many.sb := hnode
  have hok : LinksOk many.sb [cwd] s := by
    refine ⟨o, ?_, ?_⟩
    · rw [hnode, many_isDir]
      rfl
    · rw [hnode]
      exact many_counted _
  have hres : ((iget ROOTINO many.image.st).toOption.bind fun r =>
      (sysLink many.sb r.1 (some [102]) (some [103]) (fun _ => 0) r.2).toOption.bind fun x =>
        (x.2.node many.sb 2).map fun nd => (x.1, nd.type, short nd.nlink,
          panicOf (sysUnlink many.sb r.1 (some [103]) (fun _ => 0) x.2))) =
        some (0, T_FILE, -32768, some .unlinkNlink) := by decide +kernel
  obtain ⟨a, hget', hres⟩ := Option.bind_eq_some_iff.mp hres
  have ha := ok_of_toOption hget'
  rw [hget] at ha
  cases ha
  obtain ⟨⟨r, s'⟩, hlink, hres⟩ := Option.bind_eq_some_iff.mp hres
  obtain ⟨nd, hnd, hres⟩ := Option.map_eq_some_iff.mp hres
  simp only [Prod.mk.injEq] at hres
  obtain ⟨rfl, ht, hn, hu⟩ := hres
  exact ⟨cwd, s, s', nd, hget, hok, ok_of_toOption hlink, hnd, ht, hn, error_of_panicOf hu⟩

end Xv6.Fs
