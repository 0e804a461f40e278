import Xv6.Fs.Dir
import Xv6.Fs.Image

/-!
# Directories as maps

While no two slots of a directory have one name, the directory is a finite map from names to inode
numbers and offsets (`dirMap`). `DirRun` is the life of a directory under `dirlink`, the removals of
`sys_unlink` and other code; `lastLinked` is the map that its history describes, and
`dirlink_dirlookup_map` says that `dirlookup` and `dirlink` see this map.
-/

namespace Xv6.Fs

open Seq Seq.M
open Function (update update_apply update_of_ne update_self)

/-! ## The map -/

/-- What a directory holds: the number and the offset for each name. -/
def dirMap (data : List UInt8) (key : List UInt8) : Option (Nat × Nat) :=
  (Slots.lookup (dirSlots data) key).map fun r => (r.1, r.2 * direntSize)

section Map

variable {data : List UInt8} {key : List UInt8} {name : Nat → UInt8} {inum : Nat}

theorem dirMap_eq_none : dirMap data key = none ↔ Slots.lookup (dirSlots data) key = none :=
  Option.map_eq_none_iff

theorem dirMap_addEntry (hd : direntSize ∣ data.length) (hu : Slots.Distinct (dirSlots data))
    (h0 : inum ≠ 0) (hlt : inum < 65536) (hnew : Slots.lookup (dirSlots data) (nameKey name) = none) :
    Slots.Distinct (dirSlots (addEntry data name inum)) ∧
    dirMap (addEntry data name inum) = update (dirMap data) (nameKey name)
      (some (inum, Slots.free (dirSlots data) * direntSize)) := by
  have hj := Slots.free_le (dirSlots data)
  have hslots : dirSlots (addEntry data name inum) =
      Slots.put (dirSlots data) (Slots.free (dirSlots data)) (some (nameKey name, inum)) := by
    rw [addEntry, dirSlots_splice hd (by simpa using hj) (length_dirent _ _), dirEntry_dirent name h0 hlt]
  refine ⟨?_, ?_⟩
  · rw [hslots]
    exact hu.put hj hnew
  · funext key
    rw [dirMap, hslots, Slots.lookup_put hu hj (Slots.getElem?_free _) hnew]
    by_cases hk : key = nameKey name
    · rw [if_pos hk, hk, update_self]
      rfl
    · rw [if_neg hk, update_of_ne hk]
      rfl

theorem dirMap_clear (hd : direntSize ∣ data.length) (hu : Slots.Distinct (dirSlots data)) {v j : Nat}
    (hl : Slots.lookup (dirSlots data) key = some (v, j)) :
    Slots.Distinct (dirSlots (Bytes.splice data (j * direntSize) (List.replicate direntSize 0))) ∧
    dirMap (Bytes.splice data (j * direntSize) (List.replicate direntSize 0)) =
      update (dirMap data) key none := by
  have hj : j < (dirSlots data).length := (List.getElem?_eq_some_iff.mp (Slots.lookup_mem hl)).1
  have hslots : dirSlots (Bytes.splice data (j * direntSize) (List.replicate direntSize 0)) =
      Slots.put (dirSlots data) j none := by
    rw [dirSlots_splice hd (by simpa using Nat.le_of_lt hj) List.length_replicate, dirEntry_zero]
  refine ⟨?_, ?_⟩
  · rw [hslots]
    exact hu.clear hj
  · funext key'
    rw [dirMap, hslots, Slots.lookup_clear hu hl]
    by_cases hk : key' = key
    · rw [if_pos hk, hk, update_self]
      rfl
    · rw [if_neg hk, update_of_ne hk]
      rfl

/-- A slot that is empty is used before the directory grows. -/
theorem length_addEntry (hd : direntSize ∣ data.length) {j : Nat}
    (hj : (dirSlots data)[j]? = some none) : (addEntry data name inum).length = data.length := by
  have hlt := Slots.free_lt hj
  rw [addEntry, length_splice_slot hd (by simpa using Slots.free_le (dirSlots data)) (length_dirent _ _)]
  rw [length_dirSlots, Nat.lt_iff_add_one_le, Nat.le_div_iff_mul_le direntSize_pos] at hlt
  exact Nat.max_eq_left hlt

end Map

/-! ## A directory over time -/

/-- A change of a directory. -/
inductive DirEvent where
  /-- `dirlink` has put the entry at offset `off`. -/
  | linked (name : Nat → UInt8) (inum off : Nat)
  /-- `sys_unlink` has removed the entry. -/
  | removed (name : Nat → UInt8)

/-- What was linked last under a name and not removed since, in a history with the latest event
first. -/
def lastLinked (m : List UInt8 → Option (Nat × Nat)) : List DirEvent → List UInt8 → Option (Nat × Nat)
  | [], key => m key
  | .linked name inum off :: h, key => if key = nameKey name then some (inum, off) else lastLinked m h key
  | .removed name :: h, key => if key = nameKey name then none else lastLinked m h key

/-- Other code runs: the directory in table entry `k` stays loaded and has the same contents. -/
structure Elsewhere (sb : Superblock) (k : Nat) (s : St) (L' : List Nat) (s' : St) : Prop where
  ok : FsOk sb L' s'
  mem : k ∈ L'
  loaded : Loaded s' k
  out : 1 ≤ s'.outstanding
  inum : (s'.itable k).inum = (s.itable k).inum
  node : s'.node sb (s.itable k).inum = s.node sb (s.itable k).inum

/-- The directory in table entry `k` from the state `s₀` on, with the pointers `L` to inodes. -/
inductive DirRun (sb : Superblock) (k : Nat) (L₀ : List Nat) (s₀ : St) :
    List DirEvent → List Nat → St → Prop
  | start : DirRun sb k L₀ s₀ [] L₀ s₀
  | link {h L s s' nd name inum} (run : DirRun sb k L₀ s₀ h L s) (h1 : 1 ≤ inum) (h2 : inum ≤ 65535)
      (hnd : s.node sb (s.itable k).inum = some nd) (hm : dirlink sb k name inum s = .ok (true, s')) :
      DirRun sb k L₀ s₀ (.linked name inum (Slots.free (dirSlots nd.data) * direntSize) :: h) L s'
  | linkFails {h L s s' name inum} (run : DirRun sb k L₀ s₀ h L s)
      (hm : dirlink sb k name inum s = .ok (false, s')) : DirRun sb k L₀ s₀ h L s'
  | remove {h L L' s s₁ s₂ s' name ip off} (run : DirRun sb k L₀ s₀ h L s)
      (hm : dirlookup sb k name s = .ok (some (ip, off), s₁)) (el : Elsewhere sb k s₁ L' s₂)
      (hm' : clearEntry sb k off s₂ = .ok ((), s')) : DirRun sb k L₀ s₀ (.removed name :: h) L' s'
  | other {h L L' s s'} (run : DirRun sb k L₀ s₀ h L s) (el : Elsewhere sb k s L' s') :
      DirRun sb k L₀ s₀ h L' s'

/-- The directory in table entry `k` holds the map `m`. -/
structure IsMap (sb : Superblock) (k : Nat) (L : List Nat) (s : St)
    (m : List UInt8 → Option (Nat × Nat)) : Prop where
  ok : FsOk sb L s
  mem : k ∈ L
  loaded : Loaded s k
  out : 1 ≤ s.outstanding
  dir : ∃ nd, s.node sb (s.itable k).inum = some nd ∧ nd.type = T_DIR ∧ direntSize ∣ nd.data.length ∧
    Slots.Distinct (dirSlots nd.data) ∧ dirMap nd.data = m

section Run

variable {sb : Superblock} {E : Panic → Prop} {s s' : St} {L L' : List Nat} {k : Nat}
  {m : List UInt8 → Option (Nat × Nat)}

theorem IsMap.elsewhere (i : IsMap sb k L s m) (el : Elsewhere sb k s L' s') : IsMap sb k L' s' m := by
  obtain ⟨nd, hnd, hrest⟩ := i.dir
  exact ⟨el.ok, el.mem, el.loaded, el.out, nd, by rw [el.inum, el.node]; exact hnd, hrest⟩

/-- `dirlookup` answers with the map. -/
theorem IsMap.dirlookup (i : IsMap sb k L s m) (hE : NINODE ≤ L.toFinset.card → E .igetNoInodes)
    (name : Nat → UInt8) : wp E (dirlookup sb k name) s fun r s' =>
      s'.node sb = s.node sb ∧ r.map (fun a => ((s'.itable a.1).inum, a.2)) = m (nameKey name) ∧
      (∀ ip off, r = some (ip, off) → Elsewhere sb k s (ip :: L) s') ∧ (r = none → s' = s) := by
  obtain ⟨nd, hnd, ht, hd, -, rfl⟩ := i.dir
  refine (dirlookup_ok i.ok i.loaded hnd ht hd hE name).mono ?_
  rintro r s' (⟨hl, rfl, rfl⟩ | ⟨v, j, ip, hl, rfl, h', q, hnum, -⟩)
  · exact ⟨rfl, by rw [dirMap, hl]; rfl, nofun, fun _ => rfl⟩
  · refine ⟨q.node, ?_, fun ip' off' he => ?_, nofun⟩
    · rw [dirMap, hl, Option.map_some, Option.map_some, hnum, Nat.zero_add]
    · cases he
      refine ⟨h', List.mem_cons_of_mem _ i.mem, h'.loaded (List.mem_cons_of_mem _ i.mem)
        (q.valid k i.mem i.loaded.valid), ?_, q.inum k i.mem, by rw [q.node]⟩
      rw [q.outstanding]
      exact i.out

section

variable (i : IsMap sb k L s m) (w : sb.Wf) (hE : LOGBLOCKS ≤ s.lh.length + 4 → E .tooBigTransaction)
include i w hE

/-- What `dirlink` does to the map. -/
theorem IsMap.dirlink (hE' : NINODE ≤ L.toFinset.card → E .igetNoInodes) (name : Nat → UInt8) (inum : Nat) :
    wp E (dirlink sb k name inum) s fun r s' =>
      (r = false ∧ s'.node sb = s.node sb ∧ IsMap sb k L s' m ∧
        (m (nameKey name) ≠ none ∨ NoFree sb s' ∨ ∃ nd, s.node sb (s.itable k).inum = some nd ∧
          MAXFILE * BSIZE < Slots.free (dirSlots nd.data) * direntSize + direntSize)) ∨
      (r = true ∧ m (nameKey name) = none ∧ ∃ nd, s.node sb (s.itable k).inum = some nd ∧
        s'.node sb = update (s.node sb) (s.itable k).inum
          (some { nd with data := addEntry nd.data name inum }) ∧
        ((∃ j : Nat, (dirSlots nd.data)[j]? = some none) →
          (addEntry nd.data name inum).length = nd.data.length) ∧
        (1 ≤ inum → inum ≤ 65535 → IsMap sb k L s' (update m (nameKey name)
          (some (inum, Slots.free (dirSlots nd.data) * direntSize))))) := by
  obtain ⟨nd, hnd, ht, hd, hu, rfl⟩ := i.dir
  refine (dirlink_ok w i.ok i.mem i.loaded i.out hE hE' hnd ht hd name inum).mono ?_
  rintro r s' ⟨h', hkeep, lo', -, hr⟩
  have hout' := hkeep.out i.out
  have hinum := hkeep.inum k i.mem
  have hsame : s'.node sb = s.node sb → IsMap sb k L s' (dirMap nd.data) := fun hn =>
    ⟨h', i.mem, lo', hout', nd, by rw [hinum, hn]; exact hnd, ht, hd, hu, rfl⟩
  rcases hr with ⟨rfl, hl, q⟩ | ⟨rfl, hl, hfull, hn⟩ | ⟨rfl, hl, hn⟩
  · exact .inl ⟨rfl, q.node, hsame q.node, .inl fun h => hl (dirMap_eq_none.mp h)⟩
  · refine .inl ⟨rfl, hn, hsame hn, .inr ?_⟩
    rcases hfull with hf | hf
    · exact .inl hf
    · exact .inr ⟨nd, hnd, hf⟩
  · refine .inr ⟨rfl, dirMap_eq_none.mpr hl, nd, hnd, hn, fun ⟨j, hj⟩ => length_addEntry hd hj,
      fun h1 h2 => ?_⟩
    obtain ⟨hu', hmap⟩ := dirMap_addEntry hd hu (Nat.one_le_iff_ne_zero.mp h1)
      (Nat.lt_succ_of_le h2) hl
    refine ⟨h', i.mem, lo', hout', { nd with data := addEntry nd.data name inum }, ?_, ht, ?_, hu', hmap⟩
    · rw [hinum, hn, update_self]
    · exact dvd_splice hd (by simpa using Slots.free_le (dirSlots nd.data)) (length_dirent _ _)

/-- `sys_unlink` removes the key. -/
theorem IsMap.remove {key : List UInt8} {v off : Nat}
    (hm : m key = some (v, off)) : wp E (clearEntry sb k off) s fun _ s' =>
      IsMap sb k L s' (update m key none) := by
  obtain ⟨nd, hnd, ht, hd, hu, rfl⟩ := i.dir
  obtain ⟨⟨v', j⟩, hl, he⟩ := Option.map_eq_some_iff.mp hm
  cases he
  have hj : j < nd.data.length / direntSize := by
    have := (List.getElem?_eq_some_iff.mp (Slots.lookup_mem hl)).1
    rwa [length_dirSlots] at this
  refine (clearEntry_ok w i.ok i.mem i.loaded i.out hE hnd hj).mono ?_
  rintro _ s' ⟨h', hkeep, lo', -, hn⟩
  obtain ⟨hu', hmap⟩ := dirMap_clear hd hu hl
  refine ⟨h', i.mem, lo', ?_,
    { nd with data := Bytes.splice nd.data (j * direntSize) (List.replicate direntSize 0) }, ?_, ht, ?_,
    hu', hmap⟩
  · rw [hkeep.outstanding]
    exact i.out
  · rw [hkeep.inum k i.mem, hn, update_self]
  · exact dvd_splice hd (Nat.le_of_lt hj) List.length_replicate

end

/-- The history gives the map. -/
theorem DirRun.isMap {L₀ : List Nat} {s₀ : St} {h : List DirEvent} (w : sb.Wf)
    (i₀ : IsMap sb k L₀ s₀ m) (run : DirRun sb k L₀ s₀ h L s) : IsMap sb k L s (lastLinked m h) := by
  induction run with
  | start => exact i₀
  | @link h L s s' nd name inum run h1 h2 hnd hm ih =>
    have hspec := ih.dirlink (E := fun _ => True) w (fun _ => trivial) (fun _ => trivial) name inum
    rcases hspec.ok hm with ⟨hr, -⟩ | ⟨-, -, nd', hnd', -, -, hi⟩
    · cases hr
    · rw [hnd] at hnd'
      cases hnd'
      have hmap : update (lastLinked m h) (nameKey name)
          (some (inum, Slots.free (dirSlots nd.data) * direntSize)) =
          lastLinked m (.linked name inum (Slots.free (dirSlots nd.data) * direntSize) :: h) := by
        funext key
        rw [update_apply]
        rfl
      rw [← hmap]
      exact hi h1 h2
  | @linkFails h L s s' name inum run hm ih =>
    have hspec := ih.dirlink (E := fun _ => True) w (fun _ => trivial) (fun _ => trivial) name inum
    rcases hspec.ok hm with ⟨-, -, hi, -⟩ | ⟨hr, -⟩
    · exact hi
    · cases hr
  | @remove h L L' s s₁ s₂ s' name ip off run hm el hm' ih =>
    have hspec := ih.dirlookup (E := fun _ => True) (fun _ => trivial) name
    obtain ⟨-, hres, hel, -⟩ := hspec.ok hm
    have i₂ := (ih.elsewhere (hel ip off rfl)).elsewhere el
    have hrem := i₂.remove (E := fun _ => True) w (fun _ => trivial) hres.symm
    have hmap : update (lastLinked m h) (nameKey name) none =
        lastLinked m (.removed name :: h) := by
      funext key
      rw [update_apply]
      rfl
    rw [← hmap]
    exact hrem.ok hm'
  | other run el ih => exact ih.elsewhere el

/-- A directory is a finite map from names to inode numbers and offsets. -/
theorem dirlink_dirlookup_map (w : sb.Wf) {L₀ : List Nat} {s₀ : St} {h : List DirEvent} {nd₀ : Node}
    (h₀ : FsOk sb L₀ s₀) (hk : k ∈ L₀) (lo : Loaded s₀ k) (hout : 1 ≤ s₀.outstanding)
    (hnd : s₀.node sb (s₀.itable k).inum = some nd₀) (ht : nd₀.type = T_DIR)
    (hd : direntSize ∣ nd₀.data.length) (hu : Slots.Distinct (dirSlots nd₀.data))
    (run : DirRun sb k L₀ s₀ h L s) (name : Nat → UInt8) :
    wp (fun e => e = .igetNoInodes ∧ NINODE ≤ L.toFinset.card) (dirlookup sb k name) s (fun r s' =>
      s'.node sb = s.node sb ∧ r.map (fun a => ((s'.itable a.1).inum, a.2)) =
        lastLinked (dirMap nd₀.data) h (nameKey name)) ∧
    ∀ inum, 1 ≤ inum → inum ≤ 65535 →
      wp (fun e => (e = .igetNoInodes ∧ NINODE ≤ L.toFinset.card) ∨
          (e = .tooBigTransaction ∧ LOGBLOCKS ≤ s.lh.length + 4)) (dirlink sb k name inum) s fun r s' =>
        (lastLinked (dirMap nd₀.data) h (nameKey name) ≠ none → r = false) ∧
        (r = false → s'.node sb = s.node sb ∧ (lastLinked (dirMap nd₀.data) h (nameKey name) = none →
          NoFree sb s' ∨ ∃ nd, s.node sb (s.itable k).inum = some nd ∧
            MAXFILE * BSIZE < Slots.free (dirSlots nd.data) * direntSize + direntSize)) ∧
        (r = true → ∃ nd nd', s.node sb (s.itable k).inum = some nd ∧
          s'.node sb = Function.update (s.node sb) (s.itable k).inum (some nd') ∧
          (∃ off, dirMap nd'.data = Function.update (dirMap nd.data) (nameKey name) (some (inum, off))) ∧
          ((∃ j : Nat, (dirSlots nd.data)[j]? = some none) → nd'.data.length = nd.data.length)) := by
  have i₀ : IsMap sb k L₀ s₀ (dirMap nd₀.data) := ⟨h₀, hk, lo, hout, nd₀, hnd, ht, hd, hu, rfl⟩
  have i := run.isMap w i₀
  refine ⟨(i.dirlookup (fun hf => ⟨rfl, hf⟩) name).mono ?_, fun inum h1 h2 =>
    (i.dirlink w (fun hf => .inr ⟨rfl, hf⟩) (fun hf => .inl ⟨rfl, hf⟩) name inum).mono ?_⟩
  · rintro r s' ⟨hn, hr, -⟩
    exact ⟨hn, hr⟩
  · rintro r s' (⟨rfl, hn, -, hwhy⟩ | ⟨rfl, hnone, nd, hnd, hn, hlen, hi⟩)
    · refine ⟨fun _ => rfl, fun _ => ⟨hn, fun hnone => ?_⟩, nofun⟩
      rcases hwhy with hsome | hwhy
      · exact absurd hnone hsome
      · exact hwhy
    · refine ⟨fun hsome => absurd hnone hsome, nofun, fun _ => ⟨nd, _, hnd, hn, ?_, hlen⟩⟩
      obtain ⟨nd₁, hnd₁, -, hd₁, hu₁, hm₁⟩ := i.dir
      rw [hnd] at hnd₁
      cases hnd₁
      refine ⟨_, (dirMap_addEntry hd₁ hu₁ (Nat.one_le_iff_ne_zero.mp h1) (Nat.lt_succ_of_le h2) ?_).2⟩
      rw [← dirMap_eq_none, hm₁]
      exact hnone

/-- A name is linked in the root directory of a small disk and found there. -/
theorem dirlink_dirlookup_map_sample : ∃ k s s' ip s'',
    DirRun sample.sb k [k] s [.linked (fun i => [103].getD i 0) 2 64] [k] s' ∧
    dirlookup sample.sb k (fun i => [103].getD i 0) s' = .ok (some (ip, 64), s'') ∧
    (s''.itable ip).inum = 2 := by
  generalize hg : (fun i => [103].getD i 0 : Nat → UInt8) = g
  have hok : (((do beginOp; let k ← iget 1; ilock sample.sb k; pure k : FM Nat) >>= fun k =>
      dirlink sample.sb k g 2) sample.st).toOption.map Prod.fst = some true := by
    rw [← hg]
    decide +kernel
  cases hrun : ((do beginOp; let k ← iget 1; ilock sample.sb k; pure k : FM Nat) >>= fun k =>
      dirlink sample.sb k g 2) sample.st with
  | error e =>
    rw [hrun] at hok
    cases hok
  | ok r =>
    rw [hrun] at hok
    obtain ⟨r, s'⟩ := r
    have hr : r = true := by simpa [Except.toOption] using hok
    subst hr
    obtain ⟨k, s, hopen, hlink⟩ := bind_ok hrun
    obtain ⟨h₀, lo, hout, -, hnum, hnode⟩ := sample_ok.opened (i := 1) (by decide) hopen
    have hnd : s.node sample.sb (s.itable k).inum = some sampleRoot := by
      rw [hnum, hnode, sample_node, if_pos rfl]
    have hslots : dirSlots sampleRoot.data =
        [some (dot, 1), some (dotdot, 1), some ([102], 2), some ([100], 3)] := by decide +kernel
    have hu : Slots.Distinct (dirSlots sampleRoot.data) := by
      rw [hslots]
      decide
    have run : DirRun sample.sb k [k] s [.linked g 2 64] [k] s' := by
      have hstart : DirRun sample.sb k [k] s [] [k] s := .start
      have := hstart.link (by decide) (by decide) hnd hlink
      rwa [hslots] at this
    have hlook := (dirlink_dirlookup_map sample_ok.wf h₀ List.mem_cons_self lo (by rw [hout]) hnd rfl
      (by decide) hu run g).1
    cases hfound : dirlookup sample.sb k g s' with
    | error e =>
      have := (hlook.error hfound).2
      simp [NINODE] at this
    | ok r =>
      obtain ⟨r, s''⟩ := r
      obtain ⟨-, hr⟩ := hlook.ok hfound
      simp only [lastLinked, if_true] at hr
      obtain ⟨⟨ip, off⟩, rfl, he⟩ := Option.map_eq_some_iff.mp hr
      injection he with h1 h2
      obtain rfl : off = 64 := h2
      exact ⟨k, s, s', ip, s'', run, hfound, h1⟩

end Run

end Xv6.Fs
