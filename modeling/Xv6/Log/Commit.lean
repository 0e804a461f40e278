import Xv6.Log.Sections

/-!
# The functions of `bio.c` and `log.c` are safe

The rules of the actions, put together along the code: `bread`, `bwrite`, `brelse`, then
`write_log`, `write_head`, `install_trans`, `commit`, `end_op` and `recover_from_log`. The loops'
invariant is the phase: turn `tail` starts in the phase with `tail` blocks done.
-/

namespace Xv6

open Conc LogHist Prog

variable {D : LogDev} {d₀ : Nat → Block} {r : Bool} {t : Tid} {g : LogGhost}

/-! ## `bio.c` -/

/-- `bread` returns with the buffer locked, valid and clean. -/
theorem safe_bread {b : Nat} {Q : Nat → LogGhost → Prop} (hb : b < 2 ^ 32)
    (hr : g.hold.ref = none)
    (hQ : ∀ i, g.hold.locks i = none → Q i { g with hold := g.hold.setLock i (some { b }) }) :
    (Code.bread D.dev b).Safe (logLogic D d₀ r) t Q g := by
  refine Safe.bind (Safe.bind (safe_bget hb hr fun i => ?_))
  refine Safe.bind (safe_acquiresleep (b := b) rfl fun v hn => ?_)
  rw [Hold.setRef_none hr]
  refine Safe.bind (safe_valid (l := { b, valid := v }) (Hold.setLock_same _ _ _) ?_)
  cases v with
  | true => exact hQ i hn
  | false =>
    refine Safe.bind (safe_diskRead (l := { b, valid := false }) (Hold.setLock_same _ _ _) rfl rfl ?_)
    rw [Hold.setLock_idem]
    exact hQ i hn

variable {Q : Unit → LogGhost → Prop} {k : Nat} {V : Nat → Block} {L : List Nat}

theorem safe_bwrite {i : Nat} {l : Lk} {d : Block} {p : Phase}
    (hl : g.hold.locks i = some l) (hd : l.dirty = some d) (hs : DiskStep D g.phase l.b d p)
    (hQ : Q () { g with
      hold := g.hold.setLock i (some { l with dirty := none })
      phase := p }) :
    (Code.bwrite i).Safe (logLogic D d₀ r) t Q g := by
  refine Safe.bind (safe_holdingsleep hl ?_)
  exact safe_diskWrite hl hd hs hQ

/-- `brelse` of a clean buffer. -/
theorem safe_brelse_code {i : Nat} {l : Lk}
    (hl : g.hold.locks i = some l) (hd : l.dirty = none) (hv : l.valid = true)
    (hr : g.hold.ref = none) (hw : l.wrote = true → r = false)
    (hQ : Q () { g with hold := g.hold.setLock i none }) :
    (Code.brelse i).Safe (logLogic D d₀ r) t Q g := by
  refine Safe.bind (safe_holdingsleep hl ?_)
  refine Safe.bind (safe_releasesleep hl hd hv hr hw ?_)
  refine safe_brelse (b := l.b) rfl ?_
  have hnone : (g.hold.setLock i none).ref = none := hr
  rw [Hold.setRef_none hnone]
  exact hQ

/-! ## `log.c` -/

theorem slot_lt (D : LogDev) (hk : k < LOGBLOCKS) : D.start + k + 1 < 2 ^ 32 := by
  have := D.start_lt
  omega

/-- One turn of `write_log`. -/
theorem safe_writeLogBlock
    (hr : g.hold.ref = none) (hp : g.phase = .writing V L k) (hL : LhOk D L) (hk : k < L.length)
    (hQ : Q () { g with phase := .writing V L (k + 1) }) :
    (Code.writeLogBlock D k).Safe (logLogic D d₀ r) t Q g := by
  have hkn : k < LOGBLOCKS := Nat.lt_of_lt_of_le hk hL.le
  have hmem : L[k] ∈ L := List.getElem_mem hk
  refine Safe.bind (safe_bread (slot_lt D hkn) hr fun i hi => ?_)
  refine Safe.bind (safe_getLh fun lh hlh _ => ?_)
  simp only [hp, LhIs] at hlh
  subst hlh
  have hget : lh.getD k 0 = lh[k] := by simp [List.getD, hk]
  rw [hget]
  refine Safe.bind (safe_bread (hL.lt _ hmem) hr fun j hj => ?_)
  have hij : j ≠ i := by
    rintro rfl
    simp at hj
  refine Safe.bind (safe_getData (l := { b := lh[k] }) (Hold.setLock_same _ _ _) rfl rfl
    fun d hd => ?_)
  simp only [hp, DataOk] at hd
  obtain rfl := hd (hL.home _ hmem)
  refine Safe.bind (safe_setData (l := { b := D.start + k + 1 }) ?_ ?_)
  · rw [Hold.setLock_ne _ _ (Ne.symm hij), Hold.setLock_same]
  rw [Hold.setLock_swap _ _ _ _ hij]
  refine Safe.bind (safe_bwrite (l := { b := D.start + k + 1, dirty := some (V lh[k]) })
    (p := .writing V lh (k + 1)) ?_ rfl ?_ ?_)
  · rw [Hold.setLock_ne _ _ (Ne.symm hij), Hold.setLock_same]
  · simp only [hp]; exact DiskStep.log hk
  rw [Hold.setLock_swap _ _ _ _ hij]
  refine Safe.bind (safe_brelse_code (l := { b := lh[k] }) (Hold.setLock_same _ _ _) rfl rfl hr
    (by simp) ?_)
  rw [Hold.setLock_idem, Hold.setLock_none hj]
  refine safe_brelse_code (l := { b := D.start + k + 1 }) (Hold.setLock_same _ _ _) rfl rfl hr
    (by simp) ?_
  rw [Hold.setLock_idem, Hold.setLock_none hi]
  exact hQ

/-- `write_log`. -/
theorem safe_writeLog (hr : g.hold.ref = none) (hp : g.phase = .writing V L 0)
    (hQ : Q () { g with phase := .writing V L L.length }) :
    (Code.writeLog D).Safe (logLogic D d₀ r) t Q g := by
  refine Safe.bind (safe_getLh fun lh hlh hL => ?_)
  simp only [hp, LhIs] at hlh
  subst hlh
  refine Safe.range (fun k g' => g' = { g with phase := .writing V lh k }) (by rw [← hp]) ?_ fun _ hg' => hg' ▸ hQ
  rintro k hk _ rfl
  exact safe_writeLogBlock hr rfl hL hk rfl

/-- `write_head`, with its one write to the disk. -/
theorem safe_writeHead {p : Phase} (hr : g.hold.ref = none) (hlh : ∀ l, LhIs g.phase l → l = L)
    (hs : ∀ d, Hdr.read d = L → DiskStep D g.phase D.start d p) (hQ : Q () { g with phase := p }) :
    (Code.writeHead D).Safe (logLogic D d₀ r) t Q g := by
  have hstart : D.start < 2 ^ 32 := by have := D.start_lt; omega
  refine Safe.bind (safe_bread hstart hr fun i hi => ?_)
  refine Safe.bind (safe_getLh fun l hl hL => ?_)
  obtain rfl := hlh l hl
  refine Safe.bind (safe_getData (l := { b := D.start }) (Hold.setLock_same _ _ _) rfl rfl
    fun d _ => ?_)
  refine Safe.bind (safe_setData (l := { b := D.start }) (Hold.setLock_same _ _ _) ?_)
  rw [Hold.setLock_idem]
  have hread : Hdr.read (Hdr.write d l) = l :=
    Hdr.read_write d l (Nat.lt_of_le_of_lt hL.le (by decide)) hL.lt
  refine Safe.bind (safe_bwrite (l := { b := D.start, dirty := some (Hdr.write d l) })
    (Hold.setLock_same _ _ _) rfl (hs _ hread) ?_)
  rw [Hold.setLock_idem]
  refine safe_brelse_code (l := { b := D.start }) (Hold.setLock_same _ _ _) rfl rfl hr (by simp) ?_
  rw [Hold.setLock_idem, Hold.setLock_none hi]
  exact hQ

section

variable (hr : g.hold.ref = none)
include hr

/-- One turn of `install_trans`. -/
theorem safe_installBlock (hp : g.phase = .inst V L k (if r then 0 else k)) (hL : LhOk D L)
    (hk : k < L.length) (hQ : Q () { g with phase := .inst V L (k + 1) (if r then 0 else k + 1) }) :
    (Code.installBlock D r k).Safe (logLogic D d₀ r) t Q g := by
  have hkn : k < LOGBLOCKS := Nat.lt_of_lt_of_le hk hL.le
  have hmem : L[k] ∈ L := List.getElem_mem hk
  refine Safe.bind (safe_bread (slot_lt D hkn) hr fun i hi => ?_)
  refine Safe.bind (safe_getLh fun lh hlh _ => ?_)
  simp only [hp, LhIs] at hlh
  subst hlh
  have hget : lh.getD k 0 = lh[k] := by simp [List.getD, hk]
  rw [hget]
  refine Safe.bind (safe_bread (hL.lt _ hmem) hr fun j hj => ?_)
  have hij : j ≠ i := by
    rintro rfl
    simp at hj
  have hj' : g.hold.locks j = none := by rwa [Hold.setLock_ne _ _ hij] at hj
  refine Safe.bind (safe_getData (l := { b := D.start + k + 1 }) ?_ rfl rfl fun d hd => ?_)
  · rw [Hold.setLock_ne _ _ (Ne.symm hij), Hold.setLock_same]
  simp only [hp, DataOk] at hd
  obtain rfl := hd k hk rfl
  refine Safe.bind (safe_setData (l := { b := lh[k] }) (Hold.setLock_same _ _ _) ?_)
  rw [Hold.setLock_idem]
  refine Safe.bind (safe_bwrite (l := { b := lh[k], dirty := some (V lh[k]) })
    (p := .inst V lh (k + 1) (if r then 0 else k)) (Hold.setLock_same _ _ _) rfl ?_ ?_)
  · simp only [hp]; exact DiskStep.install hk
  rw [Hold.setLock_idem]
  -- the two branches leave the same locks
  have hrest : ∀ ph, Q () { g with phase := ph } →
      (Code.brelse i >>= fun _ => Code.brelse j).Safe (logLogic D d₀ r) t Q
        { g with
          hold := (g.hold.setLock i (some { b := D.start + k + 1 })).setLock j (some { b := lh[k] })
          phase := ph } := by
    intro ph hQ
    refine Safe.bind (safe_brelse_code (l := { b := D.start + k + 1 }) ?_ rfl rfl hr (by simp) ?_)
    · rw [Hold.setLock_ne _ _ (Ne.symm hij), Hold.setLock_same]
    rw [Hold.setLock_swap _ _ _ _ hij, Hold.setLock_none hi]
    refine safe_brelse_code (l := { b := lh[k] }) (Hold.setLock_same _ _ _) rfl rfl hr (by simp) ?_
    rw [Hold.setLock_idem, Hold.setLock_none hj']
    exact hQ
  cases r with
  | true => exact hrest _ hQ
  | false =>
    refine Safe.bind (safe_bunpin (V := V) (L := lh) (k := k + 1) (u := k) (l := { b := lh[k] }) rfl
      (Nat.lt_succ_self k) hk (Hold.setLock_same _ _ _) rfl ?_)
    exact hrest _ hQ

/-- `install_trans`. -/
theorem safe_installTrans (hp : g.phase = .inst V L 0 0)
    (hQ : Q () { g with phase := .inst V L L.length (if r then 0 else L.length) }) :
    (Code.installTrans D r).Safe (logLogic D d₀ r) t Q g := by
  refine Safe.bind (safe_getLh fun lh hlh hL => ?_)
  simp only [hp, LhIs] at hlh
  subst hlh
  refine Safe.range (fun k g' => g' = { g with phase := .inst V lh k (if r then 0 else k) })
    (by rw [ite_self, ← hp]) ?_ fun _ hg' => hg' ▸ hQ
  rintro k hk _ rfl
  exact safe_installBlock hr rfl hL hk rfl

/-- The end of `commit` and of `recover_from_log`: the blocks are installed, the log is erased. -/
theorem safe_erase (hp : g.phase = .inst V L 0 0) (hQ : Q () { g with phase := .done V }) :
    (Code.installTrans D r >>= fun _ => call (.setLh []) >>= fun _ => Code.writeHead D).Safe
      (logLogic D d₀ r) t Q g := by
  refine Safe.bind (safe_installTrans hr hp ?_)
  refine Safe.bind (safe_clearLh rfl (fun hf => by simp [hf]) ?_)
  exact safe_writeHead (L := []) hr (fun l hl => hl) (fun d hd => DiskStep.clear hd) hQ

/-- `commit`. -/
theorem safe_commit (hp : g.phase = .writing V L 0)
    (hQ : Q () { g with phase := .done V }) (hQ' : L = [] → Q () g) :
    (Code.commit D).Safe (logLogic D d₀ false) t Q g := by
  refine Safe.bind (safe_getLh fun lh hlh hL => ?_)
  simp only [hp, LhIs] at hlh
  subst hlh
  by_cases h0 : lh.length > 0
  · rw [if_pos h0]
    refine Safe.bind (safe_writeLog hr hp ?_)
    refine Safe.bind (safe_writeHead (L := lh) (p := .inst V lh 0 0) hr (fun l hl => hl)
      (fun d hd => DiskStep.commit hd) ?_)
    exact safe_erase hr rfl hQ
  · rw [if_neg h0]
    exact hQ' (List.length_eq_zero_iff.mp (by omega))

/-- `end_op`. -/
theorem safe_endOp_code (ho : g.inOp = true)
    (hp : g.phase = .idle) (hQ : Q () { g with inOp := false }) :
    (Code.endOp D).Safe (logLogic D d₀ false) t Q g := by
  have hQ'' : Q () { g with inOp := false, phase := .idle } := by rw [← hp]; exact hQ
  refine Safe.bind (safe_endOp ho hQ fun V L => ?_)
  refine Safe.bind (safe_commit (V := V) (L := L) hr rfl ?_ fun hnil => ?_)
  · exact safe_endCommit (V := V) (.inl rfl) hQ''
  · exact safe_endCommit (V := V) (.inr (by rw [hnil])) hQ''

/-- `recover_from_log`. -/
theorem safe_recoverFromLog (hp : g.phase = .boot V L) (hQ : Q () { g with phase := .done V }) :
    (Code.recoverFromLog D).Safe (logLogic D d₀ true) t Q g := by
  have hstart : D.start < 2 ^ 32 := by have := D.start_lt; omega
  refine Safe.bind (Safe.bind (safe_bread hstart hr fun i hi => ?_))
  refine Safe.bind (safe_getData (l := { b := D.start }) (Hold.setLock_same _ _ _) rfl rfl
    fun d hd => ?_)
  simp only [hp, DataOk] at hd
  rw [hd trivial]
  refine Safe.bind (safe_loadLh hp ?_)
  refine safe_brelse_code (l := { b := D.start }) (Hold.setLock_same _ _ _) rfl rfl hr (by simp) ?_
  rw [Hold.setLock_idem, Hold.setLock_none hi]
  exact safe_erase hr rfl hQ

end

end Xv6
