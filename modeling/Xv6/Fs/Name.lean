import Mathlib.Data.List.TakeWhile
import Xv6.Fs.DirMap
import Xv6.Fs.Sysfile

/-!
# Path names

The reference for path resolution: the components of a path (`components`) are looked up in turn in
the directories (`lookupIn`). `skipelem_spec` says that `skipelem` takes the first component, and
`namexFrom_ok` that the loop of `namex` follows the reference with one pointer, which it moves from
inode to inode. The loop locks each inode that it looks into, and `ilock` stops the kernel at one that
is free (`meetsFree`): a process in a directory that is removed has a `..` that can be removed too.
-/

namespace Xv6.Fs

open Seq Seq.M

/-! ## Components -/

/-- A path split at runs of `/`, with each component cut to `DIRSIZ` bytes. -/
def components (path : List UInt8) : List (List UInt8) :=
  ((path.splitOn slash).filter (· ≠ [])).map (·.take DIRSIZ)

theorem components_nil : components [] = [] := rfl

theorem components_slash (path : List UInt8) : components (slash :: path) = components path := by
  unfold components List.splitOn
  rw [List.splitOnP_cons_eq_if_modifyHead]
  simp

theorem components_dropWhile (path : List UInt8) : components (path.dropWhile (· = slash)) = components path := by
  induction path with
  | nil => rfl
  | cons c path ih =>
    by_cases hc : c = slash
    · subst hc
      rw [components_slash, ← ih]
      simp
    · simp [hc]

variable {rest path p : List UInt8} {name : Nat → UInt8}

/-- The first component. -/
theorem components_append {c : List UInt8} (hne : c ≠ []) (hc : ∀ x ∈ c, x ≠ slash)
    (hrest : rest = [] ∨ ∃ l, rest = slash :: l) : components (c ++ rest) = c.take DIRSIZ :: components rest := by
  have hmem : ∀ x ∈ c, (x == slash) = false := fun x hx => by simpa using hc x hx
  rcases hrest with rfl | ⟨l, rfl⟩
  · rw [List.append_nil, components, List.splitOn_eq_splitOnP, List.splitOnP_eq_singleton hmem]
    simp [hne, components_nil]
  · rw [components_slash, components, List.splitOn_eq_splitOnP,
      List.splitOnP_append_cons_of_forall_mem hmem slash (by simp)]
    simp [hne, components, List.splitOn_eq_splitOnP]

theorem dropWhile_slash (p : List UInt8) : p.dropWhile (· ≠ slash) = [] ∨
    ∃ l, p.dropWhile (· ≠ slash) = slash :: l := by
  induction p with
  | nil => exact .inl rfl
  | cons c p ih =>
    by_cases hc : c = slash
    · exact .inr ⟨p, by simp [hc]⟩
    · simpa [hc] using ih

theorem ne_zero_of_all (h : path.all (· != 0) = true) : ∀ b ∈ path, b ≠ 0 := by
  simpa using h

/-- Without zeros, an element ends at the next `/`. -/
theorem skip_element (hz : ∀ b ∈ p, b ≠ 0) : p.takeWhile (fun c => c ≠ slash ∧ c ≠ 0) = p.takeWhile (· ≠ slash) ∧
    p.dropWhile (fun c => c ≠ slash ∧ c ≠ 0) = p.dropWhile (· ≠ slash) := by
  induction p with
  | nil => exact ⟨rfl, rfl⟩
  | cons c p ih =>
    obtain ⟨h1, h2⟩ := ih fun b hb => hz b (List.mem_cons_of_mem _ hb)
    have hc := hz c List.mem_cons_self
    by_cases hs : c = slash
    · simp [hs]
    · have hd : decide (c ≠ slash ∧ c ≠ 0) = true := decide_eq_true ⟨hs, hc⟩
      have hd' : decide (c ≠ slash) = true := decide_eq_true hs
      rw [List.takeWhile_cons, List.takeWhile_cons, List.dropWhile_cons, List.dropWhile_cons, hd, hd']
      exact ⟨congrArg _ h1, h2⟩

/-- A path that does not start with `/` has no component only if it is empty. -/
theorem headD_eq_zero (hz : ∀ b ∈ p, b ≠ 0) : (p.dropWhile (· = slash)).headD 0 = 0 ↔ components p = [] := by
  rw [← components_dropWhile p]
  cases hp : p.dropWhile (· = slash) with
  | nil => exact ⟨fun _ => rfl, fun _ => rfl⟩
  | cons c l =>
    have hmem : c ∈ p := (List.dropWhile_sublist _).subset (by rw [hp]; exact List.mem_cons_self)
    have hc : c ≠ slash := by
      have hlt : 0 < (p.dropWhile (· = slash)).length := by simp [hp]
      have := List.dropWhile_get_zero_not _ p hlt
      simpa [hp] using this
    have happ : components ((c :: l).takeWhile (· ≠ slash) ++ (c :: l).dropWhile (· ≠ slash)) ≠ [] := by
      rw [components_append (by simp [hc]) (fun x hx => by simpa using List.mem_takeWhile_imp hx)
        (dropWhile_slash _)]
      exact List.cons_ne_nil _ _
    rw [List.takeWhile_append_dropWhile] at happ
    exact ⟨fun h0 => absurd h0 (hz c hmem), fun hnil => absurd hnil happ⟩

theorem skipelem_none (hz : ∀ b ∈ path, b ≠ 0) (h : skipelem path name = none) : components path = [] := by
  dsimp only [skipelem] at h
  split at h
  · rename_i h0
    exact (headD_eq_zero hz).mp h0
  · cases h

/-- `skipelem` takes the first component. -/
theorem skipelem_some {name' : Nat → UInt8} (hz : ∀ b ∈ path, b ≠ 0) (h : skipelem path name = some (rest, name')) :
    components path = nameKey name' :: components rest ∧ (rest.headD 0 = 0 ↔ components rest = []) ∧
    rest.length < path.length ∧ ∀ b ∈ rest, b ≠ 0 := by
  dsimp only [skipelem] at h
  split at h
  · cases h
  rename_i h0
  have hcomp := components_dropWhile path
  have hlen : (path.dropWhile (· = slash)).length ≤ path.length := List.length_dropWhile_le _ path
  have hzp : ∀ b ∈ path.dropWhile (· = slash), b ≠ 0 := fun b hb =>
    hz b ((List.dropWhile_sublist _).subset hb)
  generalize hp : path.dropWhile (· = slash) = p at *
  cases p with
  | nil => exact absurd rfl h0
  | cons c l =>
    have hc : c ≠ slash := by
      have hlt : 0 < (path.dropWhile (· = slash)).length := by simp [hp]
      have := List.dropWhile_get_zero_not _ path hlt
      simpa [hp] using this
    obtain ⟨he1, he2⟩ := skip_element hzp
    simp only [he1, he2] at h
    generalize hel : (c :: l).takeWhile (· ≠ slash) = el at h
    generalize htl : (c :: l).dropWhile (· ≠ slash) = tl at h
    injection h with h
    injection h with hrest hname
    have hsplit : el ++ tl = c :: l := by
      rw [← hel, ← htl]
      exact List.takeWhile_append_dropWhile
    have hne : el ≠ [] := by
      rw [← hel]
      simp [hc]
    have helz : ∀ b ∈ el, b ≠ 0 := fun b hb => hzp b (by rw [← hsplit]; exact List.mem_append_left _ hb)
    have htlz : ∀ b ∈ tl, b ≠ 0 := fun b hb => hzp b (by rw [← hsplit]; exact List.mem_append_right _ hb)
    have hkey : nameKey name' = el.take DIRSIZ := by
      rw [← hname]
      refine strKey_list (fun b hb => helz b (List.mem_of_mem_take hb)) (List.length_take_le _ _)
        (fun j hj => ?_) fun hlt => ?_
      · rw [List.length_take] at hj
        rw [Nat.zero_add, List.getElem_take]
        split
        · rw [memmove, if_pos (by rw [List.length_take]; exact hj)]
          simp [List.getD_eq_getElem?_getD, show j < DIRSIZ by omega, show j < el.length by omega]
        · rw [Function.update_of_ne (by omega), memmove, if_pos (by omega)]
          simp [List.getD_eq_getElem?_getD, show j < el.length by omega]
      · rw [List.length_take] at hlt ⊢
        have hle : el.length < DIRSIZ := by omega
        rw [if_neg (by omega), Nat.min_eq_right (by omega), Nat.zero_add, Function.update_self]
    refine ⟨?_, ?_, ?_, ?_⟩
    · rw [← hcomp, ← hsplit, components_append hne ?_ ?_, hkey, ← hrest, components_dropWhile]
      · intro x hx
        rw [← hel] at hx
        simpa using List.mem_takeWhile_imp hx
      · rw [← htl]
        exact dropWhile_slash _
    · rw [← hrest, headD_eq_zero htlz, components_dropWhile]
    · have h1 : (tl.dropWhile (· = slash)).length ≤ tl.length := List.length_dropWhile_le _ tl
      have h2 := congrArg List.length hsplit
      rw [List.length_append] at h2
      have h3 := List.length_pos_iff.mpr hne
      rw [← hrest]
      omega
    · intro b hb
      rw [← hrest] at hb
      exact htlz b ((List.dropWhile_sublist _).subset hb)

/-! ## The reference -/

/-- Inode `i` is a directory. -/
def isDir (N : Nat → Option Node) (i : Nat) : Bool := (N i).any (·.type = T_DIR)

/-- The inode that directory `i` has under a name. -/
def lookupIn (N : Nat → Option Node) (i : Nat) (key : List UInt8) : Option Nat :=
  (N i).bind fun nd => if nd.type = T_DIR then (dirMap nd.data key).map Prod.fst else none

/-- The inode of a path, from inode `i`. -/
def walk (N : Nat → Option Node) (i : Nat) (cs : List (List UInt8)) : Option Nat :=
  cs.foldlM (lookupIn N) i

/-- The directory of all but the last component, and that component. -/
def parentOf (N : Nat → Option Node) (i : Nat) (cs : List (List UInt8)) : Option (Nat × List UInt8) :=
  cs.getLast?.bind fun c => (walk N i cs.dropLast).bind fun j => if isDir N j then some (j, c) else none

theorem walk_cons (N : Nat → Option Node) (i : Nat) (c : List UInt8) (cs : List (List UInt8)) :
    walk N i (c :: cs) = (lookupIn N i c).bind fun j => walk N j cs := rfl

theorem parentOf_singleton (N : Nat → Option Node) (i : Nat) (c : List UInt8) :
    parentOf N i [c] = if isDir N i then some (i, c) else none := rfl

theorem parentOf_cons (N : Nat → Option Node) (i : Nat) (c : List UInt8) {cs : List (List UInt8)}
    (hcs : cs ≠ []) : parentOf N i (c :: cs) = (lookupIn N i c).bind fun j => parentOf N j cs := by
  unfold parentOf
  rw [List.dropLast_cons_of_ne_nil hcs, List.getLast?_cons_of_ne_nil hcs, walk_cons]
  cases lookupIn N i c with
  | none => simp
  | some j => rfl

/-- A path through something that is not a directory. -/
theorem parentOf_of_not_dir {N : Nat → Option Node} {i : Nat} (h : isDir N i = false) (c : List UInt8)
    (cs : List (List UInt8)) : parentOf N i (c :: cs) = none := by
  by_cases hcs : cs = []
  · rw [hcs, parentOf_singleton, h]
    rfl
  · rw [parentOf_cons N i c hcs]
    have hnone : lookupIn N i c = none := by
      unfold lookupIn
      cases hn : N i with
      | none => rfl
      | some nd =>
        rw [isDir, hn] at h
        exact if_neg (by simpa using h)
    rw [hnone]
    rfl

/-- The directories of a file system are well formed. -/
def DirsOk (sb : Superblock) (N : Nat → Option Node) : Prop :=
  ∀ i nd, N i = some nd → nd.type = T_DIR → DirOk sb.ninodes nd.data

/-- The walk looks for a component in an inode that is not allocated. -/
def meetsFree (N : Nat → Option Node) : Nat → List (List UInt8) → Bool
  | _, [] => false
  | i, c :: cs => (N i).isNone || (lookupIn N i c).any fun j => meetsFree N j cs

theorem DirOk.lookup_lt {n v j : Nat} {data : List UInt8} {key : List UInt8} (h : DirOk n data)
    (hl : Slots.lookup (dirSlots data) key = some (v, j)) : v < n := by
  have hmem := Slots.lookup_mem hl
  rw [getElem?_dirSlots] at hmem
  split at hmem
  · rename_i hj
    injection hmem with hmem
    rw [dirEntry] at hmem
    split at hmem
    · cases hmem
    · injection hmem with hmem
      injection hmem with _ hv
      rw [← hv]
      exact h.num j hj
  · cases hmem

/-! ## `namex` -/

section Namex

variable {sb : Superblock} {E : Panic → Prop} {s : St} {L : List Nat}

/-- What a walk with the pointers `L` of others has done: nothing but to add a pointer to the result. -/
def Walked (sb : Superblock) (L : List Nat) (s : St) (r : Option Nat) (s' : St) : Prop :=
  FsOk sb (r.toList ++ L) s' ∧ Quiet sb L s s' ∧ s'.locks = s.locks

/-- What the walk has found. -/
def Found (N : Nat → Option Node) (parent : Bool) (i : Nat) (cs : List (List UInt8))
    (r : Option Nat × (Nat → UInt8)) (s' : St) : Prop :=
  (if parent then r.1.map (fun k => ((s'.itable k).inum, nameKey r.2)) = parentOf N i cs
    else r.1.map (fun k => (s'.itable k).inum) = walk N i cs) ∧ meetsFree N i cs = false

variable {s' : St} {cwd : Nat} {path : List UInt8} {N : Nat → Option Node} {parent : Bool} {i : Nat}
  {c : List UInt8} {cs : List (List UInt8)} {nd : Node}

theorem Found.none {name : Nat → UInt8} (hi : N i = some nd) (hl : lookupIn N i c = none)
    (hp : parent = true → cs = [] → isDir N i = false) : Found N parent i (c :: cs) (none, name) s' := by
  refine ⟨?_, by simp [meetsFree, hi, hl]⟩
  split
  · rename_i h
    by_cases hcs : cs = []
    · rw [parentOf_of_not_dir (hp h hcs)]
      rfl
    · rw [parentOf_cons N i c hcs, hl]
      rfl
  · rw [walk_cons, hl]
    rfl

theorem Found.next {v : Nat} {r : Option Nat × (Nat → UInt8)} (hi : N i = some nd) (hl : lookupIn N i c = some v)
    (hp : parent = true → cs ≠ []) (h : Found N parent v cs r s') : Found N parent i (c :: cs) r s' := by
  obtain ⟨h, hfree⟩ := h
  refine ⟨?_, by simp [meetsFree, hi, hl, hfree]⟩
  split
  · rename_i hpar
    rw [if_pos hpar] at h
    rw [parentOf_cons N i c (hp hpar), hl]
    exact h
  · rename_i hpar
    rw [if_neg hpar] at h
    rw [walk_cons, hl]
    exact h

theorem namexFrom_ok (w : sb.Wf) (dirs : DirsOk sb (s.node sb))
    (hE : NINODE ≤ L.toFinset.card + 1 → E .igetNoInodes) (parent : Bool) (fuel : Nat)
    (path : List UInt8) (name : Nat → UInt8) (ip : Nat) (hz : ∀ b ∈ path, b ≠ 0)
    (hf : path.length < fuel) {s₀ : St} (hN : s₀.node sb = s.node sb)
    (h : FsOk sb (ip :: L) s₀) (ho : Held sb L s₀) (hl : ∀ k, s₀.locks k = false)
    (hlt : (s₀.itable ip).inum < sb.ninodes)
    (hfree : meetsFree (s.node sb) (s₀.itable ip).inum (components path) = true → E .ilockNoType) :
    wp E (namexFrom sb parent fuel path name ip) s₀ fun r s' => Walked sb L s₀ r.1 s' ∧
      Found (s.node sb) parent (s₀.itable ip).inum (components path) r s' := by
  induction fuel generalizing path name ip s₀ with
  | zero => exact absurd hf (Nat.not_lt_zero _)
  | succ fuel ih =>
    unfold namexFrom
    cases hskip : skipelem path name with
    | none =>
      have hcs := skipelem_none hz hskip
      refine wp_ite.mpr ⟨fun hpar => ?_, fun hpar => ?_⟩
      · refine wp.bind (iput_quiet w h ho) ?_
        rintro _ s' ⟨h', q, hlk⟩
        refine ⟨⟨h', q, hlk⟩, ?_⟩
        rw [Found, if_pos hpar, hcs]
        exact ⟨rfl, rfl⟩
      · refine ⟨⟨h, Quiet.refl, rfl⟩, ?_⟩
        rw [Found, if_neg hpar, hcs]
        exact ⟨rfl, rfl⟩
    | some r =>
      obtain ⟨rest, name'⟩ := r
      obtain ⟨hcs, hlast, hshort, hz'⟩ := skipelem_some hz hskip
      rw [hcs] at hfree ⊢
      have hnolock : ∀ k, s₀.locks k = true → E .selfDeadlock := fun k hk => by
        rw [hl k] at hk
        cases hk
      refine wp.bind (ilock_ok h List.mem_cons_self hlt (hnolock ip) fun hn =>
        hfree (by rw [meetsFree, ← hN, hn]; rfl)) ?_
      rintro _ s₁ ⟨h₁, q₁, lo, hl₁⟩
      have ho₁ := ho.quiet q₁.tail
      have hnum₁ : (s₁.itable ip).inum = (s₀.itable ip).inum := q₁.inum ip List.mem_cons_self
      have hnd := lo.node h₁.good.inv.table
      generalize hndv : (Node.mk _ _ _ _ _ : Node) = nd at hnd
      have htype : (s₁.itable ip).type = nd.type := by rw [← hndv]
      have hN₁ : s.node sb (s₀.itable ip).inum = some nd := by
        rw [← hN, ← q₁.node, ← hnum₁]
        exact hnd
      have hlock₁ : s₁.locks ip = true := by rw [hl₁, Function.update_self]
      have hunlock : Function.update s₁.locks ip false = s₀.locks := by
        rw [hl₁, relock (hl ip)]
      have hlookup : lookupIn (s.node sb) (s₀.itable ip).inum (nameKey name') =
          if nd.type = T_DIR then (dirMap nd.data (nameKey name')).map Prod.fst else none := by
        rw [lookupIn, hN₁]
        rfl
      have hisDir : isDir (s.node sb) (s₀.itable ip).inum = decide (nd.type = T_DIR) := by
        rw [isDir, hN₁]
        rfl
      refine wp_bind.mpr (wp_getInode.mpr ?_)
      rw [htype]
      refine wp_ite.mpr ⟨fun hne => ?_, fun hdir => ?_⟩
      · -- not a directory
        refine wp.bind (iunlockput_quiet w h₁ ho₁ hlock₁) ?_
        rintro _ s' ⟨h', q', hl'⟩
        refine ⟨⟨h', q₁.tail.trans q', hl'.trans hunlock⟩, .none hN₁ ?_ fun _ _ => ?_⟩
        · rw [hlookup, if_neg hne]
        · rw [hisDir, decide_eq_false hne]
      have hdir : nd.type = T_DIR := not_not.mp hdir
      have hd := dirs _ nd hN₁ hdir
      refine wp_ite.mpr ⟨fun hstop => ?_, fun hgo => ?_⟩
      · -- one level early
        have hno : s₁.locks ip = false → E .iunlock := fun h0 => by
          rw [hlock₁] at h0
          cases h0
        refine wp.bind (iunlock_ok h₁ List.mem_cons_self hno) ?_
        rintro _ s' ⟨h', q', hl'⟩
        refine ⟨⟨h', (q₁.trans q').tail, hl'.trans hunlock⟩, ?_⟩
        rw [Found, if_pos hstop.1, hlast.mp hstop.2, parentOf_singleton, hisDir, decide_eq_true hdir,
          if_pos rfl]
        refine ⟨?_, by simp [meetsFree, hN₁]⟩
        rw [← hnum₁, ← q'.inum ip List.mem_cons_self]
        rfl
      have hmore : parent = true → components rest ≠ [] := fun hpar hnil => hgo ⟨hpar, hlast.mpr hnil⟩
      have hfull : NINODE ≤ (ip :: L).toFinset.card → E .igetNoInodes := fun hc => hE (by
        rw [List.toFinset_cons] at hc
        exact Nat.le_trans hc (Finset.card_insert_le _ _))
      refine wp.bind (dirlookup_ok h₁ lo hnd hdir hd.dvd hfull name') ?_
      rintro r s₂ (⟨hnone, rfl, rfl⟩ | ⟨v, i, next, hsome, rfl, h₂, q₂, hnum, hl₂⟩)
      · -- no such entry
        refine wp.bind (iunlockput_quiet w h₁ ho₁ hlock₁) ?_
        rintro _ s' ⟨h', q', hl'⟩
        refine ⟨⟨h', q₁.tail.trans q', hl'.trans hunlock⟩, .none hN₁ ?_ fun hpar hnil =>
          absurd hnil (hmore hpar)⟩
        rw [hlookup, if_pos hdir, dirMap, hnone]
        rfl
      · have hv : lookupIn (s.node sb) (s₀.itable ip).inum (nameKey name') = some v := by
          rw [hlookup, if_pos hdir, dirMap, hsome]
          rfl
        have ho₂ := ho₁.quiet q₂.tail
        have hswap : FsOk sb (ip :: next :: L) s₂ := h₂.perm (.swap _ _ _)
        have hlock₂ : s₂.locks ip = true := by rw [hl₂, hlock₁]
        refine wp.bind (iunlockput_quiet w hswap (ho₂.cons next) hlock₂) ?_
        rintro _ s₃ ⟨h₃, q₃, hl₃⟩
        have q₀₃ : Quiet sb L s₀ s₃ := ((q₁.trans q₂).tail).trans q₃.tail
        have hlocks : s₃.locks = s₀.locks := by rw [hl₃, hl₂, hunlock]
        have hnum₃ : (s₃.itable next).inum = v := (q₃.inum next List.mem_cons_self).trans hnum
        have hstep := ih rest name' next hz' (by omega) (q₀₃.node.trans hN) h₃ (ho.quiet q₀₃)
          (fun k => by rw [hlocks]; exact hl k) (by rw [hnum₃]; exact hd.lookup_lt hsome)
          fun hn => hfree (by rw [hnum₃] at hn; simp [meetsFree, hv, hn])
        refine hstep.mono ?_
        rintro r s' ⟨⟨h', q', hl'⟩, hfound⟩
        refine ⟨⟨h', q₀₃.trans q', hl'.trans hlocks⟩, .next hN₁ hv hmore ?_⟩
        rwa [hnum₃] at hfound

/-- The inode at which a path starts. -/
def St.startOf (s : St) (cwd : Nat) (path : List UInt8) : Nat :=
  if path.headD 0 = slash then ROOTINO else (s.itable cwd).inum

/-- What a process needs to resolve a path: its current directory and the root are inodes of the disk,
and it has no inode locked. -/
structure CanWalk (sb : Superblock) (E : Panic → Prop) (L : List Nat) (s : St) (cwd : Nat) : Prop where
  ok : FsOk sb L s
  dirs : DirsOk sb (s.node sb)
  room : NINODE ≤ L.toFinset.card + 1 → E .igetNoInodes
  unlocked : ∀ k, s.locks k = false
  root : s.node sb ROOTINO ≠ none
  cwd_mem : cwd ∈ L
  cwd_node : s.node sb (s.itable cwd).inum ≠ none

theorem CanWalk.start (c : CanWalk sb E L s cwd) (path : List UInt8) : s.node sb (s.startOf cwd path) ≠ none := by
  unfold St.startOf
  split
  · exact c.root
  · exact c.cwd_node

/-- `namex` follows the reference. -/
theorem namex_ok (w : sb.Wf) (c : CanWalk sb E L s cwd) (parent : Bool) (hz : ∀ b ∈ path, b ≠ 0) (name : Nat → UInt8)
    (hfree : meetsFree (s.node sb) (s.startOf cwd path) (components path) = true → E .ilockNoType) :
    wp E (namex sb cwd path parent name) s fun r s' => Walked sb L s r.1 s' ∧
      Found (s.node sb) parent (s.startOf cwd path) (components path) r s' := by
  have hfirst : wp E (if path.headD 0 = slash then iget ROOTINO else do idup cwd; pure cwd) s
      fun ip s₁ => FsOk sb (ip :: L) s₁ ∧ Quiet sb L s s₁ ∧ (s₁.itable ip).inum = s.startOf cwd path ∧
        s₁.locks = s.locks := by
    refine wp_ite.mpr ⟨fun hs => ?_, fun hs => ?_⟩
    · refine (iget_ok c.ok (fun hc => c.room (by omega)) ROOTINO).mono ?_
      rintro ip s₁ ⟨h₁, q, hnum, hlk⟩
      exact ⟨h₁, q, by rw [hnum, St.startOf, if_pos hs], hlk⟩
    · refine wp.bind (idup_ok c.ok c.cwd_mem) ?_
      rintro _ s₁ ⟨h₁, q, hlk⟩
      exact ⟨h₁, q, by rw [q.inum cwd c.cwd_mem, St.startOf, if_neg hs], hlk⟩
  refine wp.bind hfirst ?_
  rintro ip s₁ ⟨h₁, q₁, hnum, hlk⟩
  obtain ⟨nd, hnd⟩ := Option.ne_none_iff_exists'.mp (c.start path)
  refine (namexFrom_ok w c.dirs c.room parent _ path name ip hz (Nat.lt_succ_self _) q₁.node
    h₁ (c.ok.noOrphan.quiet q₁) (fun k => by rw [hlk]; exact c.unlocked k) ?_ (by rw [hnum]; exact hfree)).mono ?_
  · rw [hnum]
    exact lt_ninodes_of_node hnd
  · rintro r s' ⟨⟨h', q', hl'⟩, hfound⟩
    rw [hnum] at hfound
    exact ⟨⟨h', q₁.trans q', hl'.trans hlk⟩, hfound⟩

theorem namei_ok (w : sb.Wf) (c : CanWalk sb E L s cwd) (hE : E .ilockNoType) (hz : ∀ b ∈ path, b ≠ 0)
    (name : Nat → UInt8) : wp E (namei sb cwd path name) s fun r s' => Walked sb L s r s' ∧
      r.map (fun k => (s'.itable k).inum) = walk (s.node sb) (s.startOf cwd path) (components path) := by
  refine wp.bind (namex_ok w c false hz name fun _ => hE) ?_
  rintro r s' ⟨hw, hfound, -⟩
  exact ⟨hw, hfound⟩

theorem nameiparent_ok (w : sb.Wf) (c : CanWalk sb E L s cwd) (hE : E .ilockNoType)
    (hz : ∀ b ∈ path, b ≠ 0) (name : Nat → UInt8) :
    wp E (nameiparent sb cwd path name) s fun r s' => Walked sb L s r.1 s' ∧
      r.1.map (fun k => ((s'.itable k).inum, nameKey r.2)) =
        parentOf (s.node sb) (s.startOf cwd path) (components path) :=
  (namex_ok w c true hz name fun _ => hE).mono fun _ _ ⟨hw, hfound, _⟩ => ⟨hw, hfound⟩

/-- One reference for the result, and no other. -/
theorem Walked.ref {r : Option Nat} (hw : Walked sb L s r s') (h : FsOk sb L s) {k : Nat}
    (hk : k < NINODE) : (s'.itable k).ref = (s.itable k).ref + if r = some k then 1 else 0 := by
  rw [hw.1.refs.count k hk, h.refs.count k hk, List.count_append]
  cases r with
  | none => simp
  | some j =>
    by_cases hj : j = k
    · simp [hj, Nat.add_comm]
    · simp [hj]

/-- Path resolution follows the reference: `namei` returns the inode of the path, `nameiparent` the
directory and the last component. One reference is added on the result, and no inode stays locked. But
where the walk meets a free inode, neither returns. -/
theorem namei_nameiparent_resolve (w : sb.Wf) (h : FsOk sb L s) (hl : ∀ k, s.locks k = false)
    (dirs : DirsOk sb (s.node sb)) (hroot : s.node sb ROOTINO ≠ none) {cwd : Nat} (hcwd : cwd ∈ L)
    (hcwdn : s.node sb (s.itable cwd).inum ≠ none) {path : List UInt8} (hz : ∀ b ∈ path, b ≠ 0)
    (name : Nat → UInt8) :
    (meetsFree (s.node sb) (s.startOf cwd path) (components path) = false →
      wp (fun e => e = .igetNoInodes ∧ NINODE ≤ L.toFinset.card + 1) (namei sb cwd path name) s
        (fun r s' => r.map (fun k => (s'.itable k).inum) =
            walk (s.node sb) (s.startOf cwd path) (components path) ∧
          s'.node sb = s.node sb ∧ (∀ k, s'.locks k = false) ∧
          ∀ k < NINODE, (s'.itable k).ref = (s.itable k).ref + if r = some k then 1 else 0) ∧
      wp (fun e => e = .igetNoInodes ∧ NINODE ≤ L.toFinset.card + 1) (nameiparent sb cwd path name) s
        (fun r s' => r.1.map (fun k => ((s'.itable k).inum, nameKey r.2)) =
            parentOf (s.node sb) (s.startOf cwd path) (components path) ∧
          s'.node sb = s.node sb ∧ (∀ k, s'.locks k = false) ∧
          ∀ k < NINODE, (s'.itable k).ref = (s.itable k).ref + if r.1 = some k then 1 else 0)) ∧
    (meetsFree (s.node sb) (s.startOf cwd path) (components path) = true →
      wp (fun e => e = .ilockNoType ∨ e = .igetNoInodes ∧ NINODE ≤ L.toFinset.card + 1)
        (namei sb cwd path name) s (fun _ _ => False) ∧
      wp (fun e => e = .ilockNoType ∨ e = .igetNoInodes ∧ NINODE ≤ L.toFinset.card + 1)
        (nameiparent sb cwd path name) s (fun _ _ => False)) := by
  have c : ∀ {E : Panic → Prop}, (NINODE ≤ L.toFinset.card + 1 → E .igetNoInodes) → CanWalk sb E L s cwd :=
    fun hE => ⟨h, dirs, hE, hl, hroot, hcwd, hcwdn⟩
  refine ⟨fun hno => ⟨?_, ?_⟩, fun hfree => ⟨?_, ?_⟩⟩
  · refine wp.bind (namex_ok w (c fun hc => ⟨rfl, hc⟩) false hz name fun hf => ?_) ?_
    · rw [hno] at hf
      cases hf
    rintro r s' ⟨hw, hfound, -⟩
    exact ⟨hfound, hw.2.1.node, fun k => by rw [hw.2.2]; exact hl k, fun k hk => hw.ref h hk⟩
  · refine (namex_ok w (c fun hc => ⟨rfl, hc⟩) true hz name fun hf => ?_).mono ?_
    · rw [hno] at hf
      cases hf
    rintro r s' ⟨hw, hfound, -⟩
    exact ⟨hfound, hw.2.1.node, fun k => by rw [hw.2.2]; exact hl k, fun k hk => hw.ref h hk⟩
  · refine wp.bind (namex_ok w (c fun hc => .inr ⟨rfl, hc⟩) false hz name fun _ => .inl rfl) ?_
    rintro r s' ⟨-, -, hno⟩
    rw [hno] at hfree
    cases hfree
  · refine (namex_ok w (c fun hc => .inr ⟨rfl, hc⟩) true hz name fun _ => .inl rfl).mono ?_
    rintro r s' ⟨-, -, hno⟩
    rw [hno] at hfree
    cases hfree

/-! ## The small disk -/

theorem sampleRoot_slots : dirSlots sampleRoot.data =
    [some (dot, 1), some (dotdot, 1), some ([102], 2), some ([100], 3)] := by decide +kernel

theorem sampleDir_slots : dirSlots sampleDir.data = [some (dot, 3), some (dotdot, 1)] := by decide +kernel

theorem sample_dirs : DirsOk sample.sb (sample.st.node sample.sb) := by
  intro i nd hnd ht
  rw [sample_node] at hnd
  split at hnd
  · cases hnd
    exact ⟨by decide, by decide +kernel⟩
  split at hnd
  · cases hnd
    cases ht
  split at hnd
  · cases hnd
    exact ⟨by decide, by decide +kernel⟩
  · cases hnd

/-- On the small disk, `d/../f` is the file. -/
theorem namei_nameiparent_resolve_sample : ∃ cwd s r s', iget ROOTINO sample.st = .ok (cwd, s) ∧
    namei sample.sb cwd [100, 47, 46, 46, 47, 102] (fun _ => 0) s = .ok (some r, s') ∧
    (s'.itable r).inum = 2 := by
  have hget : wp (fun _ => False) (iget ROOTINO) sample.st _ :=
    iget_ok sample_ok.fsOk (fun hc => absurd hc (by decide)) ROOTINO
  obtain ⟨cwd, s, hrun, h, q, hnum, hlk⟩ := hget.returns
  have hnode : s.node sample.sb = sample.st.node sample.sb := q.node
  have hroot : s.node sample.sb ROOTINO ≠ none := by
    rw [hnode, sample_node]
    exact nofun
  have hstart : s.startOf cwd [100, 47, 46, 46, 47, 102] = 1 := hnum
  have hN : s.node sample.sb = _ := hnode.trans (funext sample_node)
  have hspec := ((namei_nameiparent_resolve sample_ok.wf h (fun k => by rw [hlk]; rfl)
    (by rw [hnode]; exact sample_dirs) hroot List.mem_cons_self (by rw [hnum]; exact hroot)
    (ne_zero_of_all (show List.all [100, 47, 46, 46, 47, 102] (· != 0) = true from rfl)) fun _ => 0).1
    (by rw [hstart, hN]; decide +kernel)).1
  have hwalk : walk (s.node sample.sb) (s.startOf cwd [100, 47, 46, 46, 47, 102])
      (components [100, 47, 46, 46, 47, 102]) = some 2 := by
    rw [hstart, hN]
    decide +kernel
  cases hm : namei sample.sb cwd [100, 47, 46, 46, 47, 102] (fun _ => 0) s with
  | error e =>
    have := (hspec.error hm).2
    simp [NINODE] at this
  | ok a =>
    obtain ⟨r, s'⟩ := a
    have hr := (hspec.ok hm).1
    rw [hwalk] at hr
    obtain ⟨k, rfl, hk⟩ := Option.map_eq_some_iff.mp hr
    exact ⟨cwd, s, k, s', hrun, hm, hk⟩

/-- A process makes `d/b`, goes there, and removes `/d/b` and `/d`: the results, and its current directory. -/
def removeCwd : FM (List Int × Nat) := do
  let cwd ← iget ROOTINO
  let r₁ ← sysMkdir sample.sb cwd (some [100, 47, 98]) fun _ => 0
  let (r₂, cwd) ← sysChdir sample.sb cwd (some [100, 47, 98]) fun _ => 0
  let r₃ ← sysUnlink sample.sb cwd (some [47, 100, 47, 98]) fun _ => 0
  let r₄ ← sysUnlink sample.sb cwd (some [47, 100]) fun _ => 0
  pure ([r₁, r₂, r₃, r₄], cwd)

/-- The panic of a run that stops. -/
def panicOf {α : Type} : Except Panic α → Option Panic
  | .error e => some e
  | .ok _ => none

theorem error_of_panicOf {α : Type} {r : Except Panic α} {e : Panic} (h : panicOf r = some e) : r = .error e := by
  cases r with
  | error e' => exact congrArg Except.error (Option.some.inj h)
  | ok a => cases h

/-- After that `../x` is no path, but `namei` stops the kernel. -/
theorem namei_stale_parent : ∃ cwd s, removeCwd sample.st = .ok (([0, 0, 0, 0], cwd), s) ∧
    walk (s.node sample.sb) (s.startOf cwd [46, 46, 47, 120]) (components [46, 46, 47, 120]) = none ∧
    namei sample.sb cwd [46, 46, 47, 120] (fun _ => 0) s = .error .ilockNoType := by
  have hres : (removeCwd sample.st).toOption.map (fun r => (r.1.1,
      walk (r.2.node sample.sb) (r.2.startOf r.1.2 [46, 46, 47, 120]) (components [46, 46, 47, 120]),
      panicOf (namei sample.sb r.1.2 [46, 46, 47, 120] (fun _ => 0) r.2))) =
        some ([0, 0, 0, 0], none, some .ilockNoType) := by decide +kernel
  obtain ⟨⟨⟨l, cwd⟩, s⟩, hrun, hres⟩ := Option.map_eq_some_iff.mp hres
  simp only [Prod.mk.injEq] at hres
  obtain ⟨rfl, hw, hp⟩ := hres
  exact ⟨cwd, s, ok_of_toOption hrun, hw, error_of_panicOf hp⟩

end Namex

end Xv6.Fs
