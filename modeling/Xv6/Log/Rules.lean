import Xv6.Log.Inv

/-!
# The rules of the actions

One rule for each action of the machine: what the action does to the ghost value of its thread,
and why the invariant `LogAll` holds after it. The rules are used through `Prog.Safe.bind`, so a
proof about a function of the source follows its code.

* The actions on the buffer cache keep the log's invariant: they change neither the disk nor
  `struct log` nor what the log's invariant reads of a thread (`safe_cache`).
* A write to the disk moves the phase (`DiskStep`).
* The sections of `begin_op`, `log_write` and `end_op` are the steps that the history records.
-/

namespace Xv6

open Conc LogHist Prog
open Function (update update_eq_self update_of_ne)

variable {D : LogDev} {d₀ : Nat → Block} {r : Bool} {t : Tid} {g : LogGhost}

/-! ## Updates of a ghost value -/

theorem hold_update (γ : Tid → LogGhost) (t : Tid) (g : LogGhost) :
    (fun u => (update γ t g u).hold) = update (fun u => (γ u).hold) t g.hold := by
  funext u
  by_cases hu : u = t
  · subst hu; simp
  · simp [update_of_ne hu]

theorem ctl_update (γ : Tid → LogGhost) (t : Tid) (g : LogGhost) :
    (fun u => (update γ t g u).ctl) = update (fun u => (γ u).ctl) t g.ctl := by
  funext u
  by_cases hu : u = t
  · subst hu; simp
  · simp [update_of_ne hu]

variable {g : LogGhost} {disk : Nat → Block} {log : Log} {h : List LogEv} {κ : Tid → Ctl} {p ph' : Phase}

theorem ctl_update_same (γ : Tid → LogGhost) (t : Tid) (h : g.ctl = (γ t).ctl) :
    (fun u => (update γ t g u).ctl) = fun u => (γ u).ctl := by
  rw [ctl_update, h]
  exact update_eq_self t fun u => (γ u).ctl

variable {i b u : Nat} {Q : Unit → LogGhost → Prop} {l : Lk} {d : Block} {ph : Phase} {γ : Tid → LogGhost}
  {L : List Nat} {V : Nat → Block}

/-- A new lock value that tells the same of `log_write`. -/
theorem ctl_setLock {l : Option Lk} (h : l.bind Lk.wroteBlock = (g.hold.locks i).bind Lk.wroteBlock) :
    ({ g with hold := g.hold.setLock i l } : LogGhost).ctl = g.ctl := by
  have : (fun j => ((g.hold.setLock i l).locks j).bind Lk.wroteBlock) =
      fun j => (g.hold.locks j).bind Lk.wroteBlock := by
    funext j
    by_cases hj : j = i
    · subst hj; simp [Hold.setLock, h]
    · simp [Hold.setLock, update_of_ne hj]
  simp only [LogGhost.ctl, this]

theorem ctl_setRef (g : LogGhost) (x : Option (Nat × Nat)) :
    ({ g with hold := g.hold.setRef x } : LogGhost).ctl = g.ctl := rfl

/-- What a thread's update keeps of the thread, it keeps of all. -/
theorem update_proj {α β : Type} (f : α → β) {κ : Tid → α} {t : Tid} {k : α} (hk : f k = f (κ t))
    (u : Tid) : f (update κ t k u) = f (κ u) := by
  by_cases hu : u = t
  · subst hu; simpa using hk
  · rw [update_of_ne hu]

/-! ## Actions on the cache -/

/-- An action that only answers. -/
theorem safe_same {β : Type} {a : LogAct β} {Q : β → LogGhost → Prop} {f : LogSt → β}
    (he : ∀ s, logExec t a s = some (.ok (f s, s)))
    (hQ : ∀ s γ, LogAll D d₀ r s γ → γ t = g → Q (f s) g) : (call a).Safe (logLogic D d₀ r) t Q g := by
  refine Safe.call fun s γ hi hg => ⟨trivial, fun b s' h => ?_⟩
  have h' : logExec t a s = some (.ok (b, s')) := h
  rw [he] at h'
  cases h'
  refine ⟨g, ?_, hQ s γ hi hg⟩
  rw [← hg, update_eq_self]
  exact hi

/-- An action that changes the cache and what its thread holds of it, and nothing that the log's
invariant reads. -/
theorem safe_cache {β : Type} {a : LogAct β} {Q : β → LogGhost → Prop}
    (h : ∀ s b s', logExec t a s = some (.ok (b, s')) → ∀ (η : Tid → Hold) cur pinned,
      η t = g.hold → CacheInv D.dev cur pinned s.cache η → (∀ x ∉ pinned, s.disk x = cur x) →
      ∃ c' h', s' = { s with cache := c' } ∧
        CacheInv D.dev cur pinned c' (update η t h') ∧
        ({ g with hold := h' } : LogGhost).ctl = g.ctl ∧ Q b { g with hold := h' }) :
    (call a).Safe (logLogic D d₀ r) t Q g := by
  refine Safe.call fun s γ hi hg => ⟨trivial, fun b s' he => ?_⟩
  obtain ⟨ph, hl, hc⟩ := hi
  obtain ⟨c', h', rfl, hc', hctl, hQ⟩ :=
    h s b s' he (fun u => (γ u).hold) _ _ (by rw [hg]) hc fun x hx => hl.disk_cur hx
  refine ⟨{ g with hold := h' }, ⟨ph, ?_, ?_⟩, hQ⟩
  · rw [ctl_update_same γ t (by rw [hctl, hg])]; exact hl
  · rw [hold_update]; exact hc'

theorem safe_bget {Q : Nat → LogGhost → Prop} (hb : b < 2 ^ 32) (hr : g.hold.ref = none)
    (hQ : ∀ i, Q i { g with hold := g.hold.setRef (some (i, b)) }) :
    (call (.bget D.dev b)).Safe (logLogic D d₀ r) t Q g := by
  refine safe_cache fun s i s' he η cur pinned hη hc _ => ?_
  simp only [logExec] at he
  cases hg : s.cache.bget t D.dev b with
  | error p => rw [hg] at he; cases he
  | ok x =>
    rw [hg] at he
    cases he
    refine ⟨x.2, _, rfl, ?_, ctl_setRef g _, hQ _⟩
    rw [← hη]
    exact hc.bget hb (by rw [hη]; exact hr) hg

theorem safe_acquiresleep (hr : g.hold.ref = some (i, b)) (hQ : ∀ v, g.hold.locks i = none →
      Q () { g with hold := (g.hold.setRef none).setLock i (some { b, valid := v }) }) :
    (call (.acquiresleep i)).Safe (logLogic D d₀ r) t Q g := by
  refine safe_cache fun s u s' he η cur pinned hη hc _ => ?_
  simp only [logExec] at he
  cases ho : (s.buf i).owner with
  | some u => rw [ho] at he; cases he
  | none =>
    rw [ho] at he
    cases he
    have hr' : (η t).ref = some (i, b) := by rw [hη]; exact hr
    have hacq := hc.acquiresleep hr' ho
    -- nobody had the lock, so the thread's entry was empty
    have hn : g.hold.locks i = none := by
      cases hl : g.hold.locks i with
      | none => rfl
      | some l =>
        have hown := hc.owner (t := t) (i := i) (l := l) (by rw [hη]; exact hl)
        have hnone : (s.cache.buf i).owner = none := ho
        rw [hnone] at hown
        cases hown
    refine ⟨_, _, rfl, hη ▸ hacq, ?_, hQ _ hn⟩
    refine (ctl_setLock (g := { g with hold := g.hold.setRef none }) ?_).trans (ctl_setRef g none)
    simp [Hold.setRef, hn, Lk.wroteBlock]

theorem safe_valid {Q : Bool → LogGhost → Prop} (hl : g.hold.locks i = some l)
    (hQ : Q l.valid g) : (call (.valid i)).Safe (logLogic D d₀ r) t Q g := by
  refine safe_same (f := fun s => (s.buf i).valid) (fun s => rfl) fun s γ hi hg => ?_
  obtain ⟨ph, -, hc⟩ := hi
  have hk := hc.lkOk (t := t) (i := i) (l := l) (by rw [hg]; exact hl)
  have hv : (s.buf i).valid = l.valid := hk.valid
  rw [hv]; exact hQ

theorem safe_holdingsleep {Q : Bool → LogGhost → Prop} (hl : g.hold.locks i = some l) (hQ : Q true g) :
    (call (.holdingsleep i)).Safe (logLogic D d₀ r) t Q g := by
  refine safe_same (f := fun s => (s.buf i).owner == some t) (fun s => rfl) fun s γ hi hg => ?_
  obtain ⟨ph, -, hc⟩ := hi
  have ho : (s.buf i).owner = some t := hc.owner (t := t) (i := i) (l := l) (by rw [hg]; exact hl)
  rw [ho, beq_self_eq_true]; exact hQ

theorem safe_diskRead (hl : g.hold.locks i = some l) (hd : l.dirty = none) (hv : l.valid = false)
    (hQ : Q () { g with hold := g.hold.setLock i (some { l with valid := true }) }) :
    (call (.diskRead i)).Safe (logLogic D d₀ r) t Q g := by
  refine safe_cache fun s u s' he η cur pinned hη hc hdisk => ?_
  simp only [logExec] at he
  cases he
  have hl' : (η t).locks i = some l := by rw [hη]; exact hl
  have hk := hc.lkOk hl'
  have hnp : l.b ∉ pinned := hk.blockno ▸ hc.not_pinned hk.dev (hk.valid.trans hv)
  refine ⟨_, _, rfl, hη ▸ hc.diskRead hl' hd (hdisk _ hnp), ctl_setLock ?_, hQ⟩
  rw [hl]; rfl

theorem safe_setData (hl : g.hold.locks i = some l)
    (hQ : Q () { g with hold := g.hold.setLock i (some { l with dirty := some d }) }) :
    (call (.setData i d)).Safe (logLogic D d₀ r) t Q g := by
  refine safe_cache fun s u s' he η cur pinned hη hc hdisk => ?_
  simp only [logExec] at he
  cases he
  have hl' : (η t).locks i = some l := by rw [hη]; exact hl
  refine ⟨_, _, rfl, hη ▸ hc.setData hl' d, ctl_setLock ?_, hQ⟩
  rw [hl]; rfl

theorem safe_brelse (hr : g.hold.ref = some (i, b)) (hQ : Q () { g with hold := g.hold.setRef none }) :
    (call (.brelse i)).Safe (logLogic D d₀ r) t Q g := by
  refine safe_cache fun s u s' he η cur pinned hη hc _ => ?_
  simp only [logExec] at he
  cases he
  have hr' : (η t).ref = some (i, b) := by rw [hη]; exact hr
  exact ⟨_, _, rfl, hη ▸ hc.brelse hr', ctl_setRef g none, hQ⟩

/-- The phase that the machine is in, for the thread in it. -/
theorem LogInv.phase_of {s : LogSt} (hL : LogInv D d₀ r s.disk s.log s.hist (fun u => (γ u).ctl) ph)
    (hg : γ t = g) (hp : g.phase = p) (hne : p ≠ .idle) : ph = p := by
  have hph : (γ t).phase = p := by rw [hg]; exact hp
  rw [← hph]
  exact hL.phase_eq (t := t) (by show (γ t).phase ≠ .idle; rw [hph]; exact hne)

/-- What a thread in a phase learns from the data of a clean buffer. -/
def DataOk (D : LogDev) : Phase → Nat → Block → Prop
  | .writing V _ _, b, d => D.home b → d = V b
  | .inst V L _ _, b, d => ∀ j (hj : j < L.length), b = D.start + j + 1 → d = V L[j]
  | .boot _ L, b, d => b = D.start → Hdr.read d = L
  | _, _, _ => True

theorem LogInv.dataOk (hi : LogInv D d₀ r disk log h κ ph) (hd : d = cur D d₀ r disk h b) : DataOk D ph b d := by
  subst hd
  have hp := hi.phase
  cases ph with
  | writing V L k =>
    obtain ⟨rfl, -, hV, -⟩ := hp
    intro hb
    rw [cur_home hb, hV b hb]
  | inst V L k u =>
    obtain ⟨rfl, -, hI, -⟩ := hp
    rintro j hj rfl
    rw [cur_isLog (D.isLog_slot (Nat.lt_of_lt_of_le hj hI.lh.le)), hI.slot j hj]
  | boot V L =>
    obtain ⟨-, -, -, hI⟩ := hp
    rintro rfl
    rw [cur_isLog D.isLog_start, hI.head]
  | idle => trivial
  | cleared V L => trivial
  | done V => trivial

theorem safe_getData {Q : Block → LogGhost → Prop}
    (hl : g.hold.locks i = some l) (hd : l.dirty = none) (hv : l.valid = true)
    (hQ : ∀ d, DataOk D g.phase l.b d → Q d g) : (call (.getData i)).Safe (logLogic D d₀ r) t Q g := by
  refine safe_same (f := fun s => (s.buf i).data) (fun s => rfl) fun s γ hi hg => hQ _ ?_
  obtain ⟨ph, hL, hc⟩ := hi
  have hk := hc.lkOk (t := t) (i := i) (l := l) (by rw [hg]; exact hl)
  by_cases hp : g.phase = .idle
  · rw [hp]; trivial
  · rw [← hL.phase_of hg rfl hp]; exact hL.dataOk (hk.clean hd hv)

/-- What a thread in a phase knows of `log.lh`. -/
def LhIs : Phase → List Nat → Prop
  | .idle, _ => True
  | .writing _ L _, lh => lh = L
  | .inst _ L _ _, lh => lh = L
  | _, lh => lh = []

theorem LogInv.lhIs (hi : LogInv D d₀ r disk log h κ ph) : LhIs ph log.lh := by
  have hp := hi.phase
  cases ph with
  | idle => trivial
  | writing V L k => exact hp.2.1
  | inst V L k u => exact hp.1
  | cleared V L => exact hp.1
  | done V => exact hp.1
  | boot V L => exact hp.2.1

theorem safe_getLh {Q : List Nat → LogGhost → Prop} (hQ : ∀ lh, LhIs g.phase lh → LhOk D lh → Q lh g) :
    (call .getLh).Safe (logLogic D d₀ r) t Q g := by
  refine safe_same (f := fun s => s.log.lh) (fun s => rfl) fun s γ hi hg => ?_
  obtain ⟨ph, hL, -⟩ := hi
  refine hQ _ ?_ hL.lh
  by_cases hp : g.phase = .idle
  · rw [hp]; trivial
  · rw [← hL.phase_of hg rfl hp]; exact hL.lhIs

/-! ## Actions of the thread in a phase -/

section

variable {disk disk' : Nat → Block} {log log' : Log} {h : List LogEv} {κ : Tid → Ctl}
  {ph ph' : Phase}

/-- The thread in a phase moves to another one: what is left to show is the new phase's own part. -/
theorem LogInv.move (hi : LogInv D d₀ r disk log h κ ph) (ht : (κ t).phase = ph) (hne : ph ≠ .idle)
    (hne' : ph' ≠ .idle) (hc : log'.committing = log.committing)
    (ho : log'.outstanding = log.outstanding) (hlh : LhOk D log'.lh)
    (hlg : r = false → ∀ b ∈ log'.lh, lastLogged b h ≠ none) (hp : PhaseOk D d₀ r disk' log'.lh h ph') :
    LogInv D d₀ r disk' log' h (update κ t { κ t with phase := ph' }) ph' := by
  have hin : ∀ u, (update κ t { κ t with phase := ph' } u).inOp = (κ u).inOp :=
    update_proj Ctl.inOp rfl
  have hwr : ∀ u, (update κ t { κ t with phase := ph' } u).wrote = (κ u).wrote :=
    update_proj Ctl.wrote rfl
  refine ⟨⟨t, by simp, fun u hu => ?_⟩, ?_, fun _ u => ?_, ?_, hlh, hp, fun e => absurd e hne',
    fun _ => hi.busy hne, hi.logged, hlg, ?_, ?_, ?_, hi.opened, hi.noSplit, hi.fresh⟩
  · rw [update_of_ne hu]
    obtain ⟨v, hv, hothers⟩ := hi.coord
    have : t = v := by
      by_contra e
      exact hne (ht.symm.trans (hothers t e))
    exact hothers u (this ▸ hu)
  · rw [hc, hi.committing]; simp [hne, hne']
  · rw [hin]; exact hi.quiet hne u
  · simp only [hin, ho]; exact hi.ops
  · simp only [hwr]; exact hi.rel
  · simp only [hwr]; exact hi.wrote
  · simp only [hin]; exact hi.old

/-- The write of `d` to block `b` by the thread in a phase, and the phase after it. -/
inductive DiskStep (D : LogDev) : Phase → Nat → Block → Phase → Prop where
  /-- `write_log` writes its next block. -/
  | log {V : Nat → Block} {L : List Nat} {k : Nat} (hk : k < L.length) :
      DiskStep D (.writing V L k) (D.start + k + 1) (V L[k]) (.writing V L (k + 1))
  /-- `write_head` commits. -/
  | commit {V : Nat → Block} {L : List Nat} {d : Block} (hd : Hdr.read d = L) :
      DiskStep D (.writing V L L.length) D.start d (.inst V L 0 0)
  /-- `install_trans` writes its next block. -/
  | install {V : Nat → Block} {L : List Nat} {k u : Nat} (hk : k < L.length) :
      DiskStep D (.inst V L k u) L[k] (V L[k]) (.inst V L (k + 1) u)
  /-- `write_head` erases the transaction. -/
  | clear {V : Nat → Block} {L : List Nat} {d : Block} (hd : Hdr.read d = []) :
      DiskStep D (.cleared V L) D.start d (.done V)

variable {b : Nat} {d : Block}

theorem DiskStep.ne_idle (hs : DiskStep D ph b d ph') : ph ≠ .idle ∧ ph' ≠ .idle := by
  cases hs <;> simp

theorem DiskStep.phaseOk (hs : DiskStep D ph b d ph') (hlh : LhOk D log.lh)
    (hp : PhaseOk D d₀ r disk log.lh h ph) : PhaseOk D d₀ r (update disk b d) log.lh h ph' := by
  cases hs with
  | @log V L k hk =>
    obtain ⟨hr, rfl, hV, hU, hB, hle, hslot⟩ := hp
    have hkn : k < LOGBLOCKS := Nat.lt_of_lt_of_le hk hlh.le
    refine ⟨hr, rfl, hV, ⟨?_, fun b hb => ?_⟩, hB, hk, fun j hj => ?_⟩
    · rw [update_of_ne (by omega)]; exact hU.head
    · rw [update_of_ne (LogDev.home_ne_slot hb hkn)]; exact hU.home b hb
    · by_cases e : j = k
      · subst e; simp
      · rw [update_of_ne (by omega)]; exact hslot j (by omega)
  | @commit V L d hd =>
    obtain ⟨-, rfl, hV, hU, hB, hle, hslot⟩ := hp
    refine ⟨rfl, hV, ⟨hlh, by simpa using hd, fun j hj => ?_, fun b hb hn => ?_, Nat.zero_le _⟩,
      Nat.le_refl _⟩
    · rw [update_of_ne (by omega)]; exact hslot j hj
    · rw [update_of_ne (LogDev.home_ne_start hb), hU.home b hb, hB b hb (by simpa using hn)]
  | @install V L k u hk =>
    obtain ⟨rfl, hV, hI, hu⟩ := hp
    have hhome : D.home log.lh[k] := hlh.home _ (List.getElem_mem hk)
    refine ⟨rfl, hV, ⟨hlh, ?_, fun j hj => ?_, fun b hb hn => ?_, hk⟩, by omega⟩
    · rw [update_of_ne (LogDev.home_ne_start hhome).symm]; exact hI.head
    · have hjn : j < LOGBLOCKS := Nat.lt_of_lt_of_le hj hlh.le
      rw [update_of_ne (LogDev.home_ne_slot hhome hjn).symm]; exact hI.slot j hj
    · by_cases e : b = log.lh[k]
      · subst e; simp
      · rw [update_of_ne e]
        refine hI.home b hb fun hm => ?_
        rw [List.drop_eq_getElem_cons hk] at hm
        rcases List.mem_cons.mp hm with hm | hm
        · exact e hm
        · exact hn hm
  | @clear V L d hd =>
    obtain ⟨hnil, hV, hI⟩ := hp
    refine ⟨hnil, hV, by simpa using hd, fun b hb => ?_⟩
    rw [update_of_ne (LogDev.home_ne_start hb)]
    exact hI.home b hb (by simp)

theorem DiskStep.pinned {lh : List Nat} (hs : DiskStep D ph b d ph')
    (hp : PhaseOk D d₀ r disk lh h ph) : pinned r lh ph' = pinned r lh ph := by
  cases hs with
  | commit hd => simp [Xv6.pinned, hp.1]
  | log hk => rfl
  | install hk => rfl
  | clear hd => rfl

/-- The written block has its contents on the disk. -/
theorem DiskStep.cur_same (hs : DiskStep D ph b d ph') (hlh : LhOk D log.lh)
    (hp : PhaseOk D d₀ r disk log.lh h ph) : cur D d₀ r (update disk b d) h b = d := by
  cases hs with
  | @log V L k hk =>
    have hkn : k < LOGBLOCKS := Nat.lt_of_lt_of_le hk (hp.2.1 ▸ hlh.le)
    rw [cur_isLog (D.isLog_slot hkn)]; simp
  | commit hd => rw [cur_isLog D.isLog_start]; simp
  | clear hd => rw [cur_isLog D.isLog_start]; simp
  | @install V L k u hk =>
    obtain ⟨rfl, hV, -⟩ := hp
    have hhome : D.home log.lh[k] := hlh.home _ (List.getElem_mem hk)
    cases r with
    | true => rw [cur_recovering]; simp
    | false => rw [cur_home hhome, hV _ hhome]

theorem cur_update_ne {x : Nat} (hx : x ≠ b) : cur D d₀ r (update disk b d) h x = cur D d₀ r disk h x := by
  simp [cur, update_of_ne hx]

end

/-- The ghost value of a thread that moves to another phase, as the log's invariant reads it. -/
theorem ctl_phase {g' : LogGhost} (hg : γ t = g) (hctl : g'.ctl = { g.ctl with phase := p }) :
    (fun u => (update γ t g' u).ctl) =
      update (fun u => (γ u).ctl) t { (γ t).ctl with phase := p } := by
  rw [ctl_update, hctl, hg]

theorem ctl_setPhase (ph : Phase) (hg : γ t = g) :
    (fun u => (update γ t { g with phase := ph } u).ctl) =
      update (fun u => (γ u).ctl) t { (γ t).ctl with phase := ph } :=
  ctl_phase hg rfl

theorem safe_diskWrite
    (hl : g.hold.locks i = some l) (hd : l.dirty = some d) (hs : DiskStep D g.phase l.b d ph')
    (hQ : Q () { g with
      hold := g.hold.setLock i (some { l with dirty := none })
      phase := ph' }) :
    (call (.diskWrite i)).Safe (logLogic D d₀ r) t Q g := by
  refine Safe.call fun s γ hi hg => ⟨trivial, fun b s' he => ?_⟩
  obtain ⟨ph, hL, hc⟩ := hi
  cases he
  have hl' : (γ t).hold.locks i = some l := by rw [hg]; exact hl
  have hk := hc.lkOk (t := t) hl'
  have hph : (γ t).phase = g.phase := by rw [hg]
  have hpe := hL.phase_of hg rfl hs.ne_idle.1
  rw [← hpe] at hs
  have hbn : (s.buf i).blockno = l.b := hk.blockno
  have hdata : (s.buf i).data = d := hk.dirty d hd
  have hdata' : (s.cache.buf i).data = d := hk.dirty d hd
  refine ⟨_, ⟨ph', ?_, ?_⟩, hQ⟩
  · rw [ctl_phase (p := ph') hg (by
      have := ctl_setLock (g := { g with phase := ph' }) (i := i)
        (l := some { l with dirty := none }) (by rw [hl]; rfl)
      exact this)]
    simp only [hbn, hdata]
    exact hL.move (t := t) (hph.trans hpe.symm) hs.ne_idle.1 hs.ne_idle.2 rfl rfl hL.lh
      hL.lhLogged (hs.phaseOk hL.lh hL.phase)
  · rw [hold_update]
    simp only [hbn, hdata]
    rw [hs.pinned hL.phase, ← hg]
    exact hc.clean (t := t) hl' (fun x hx => cur_update_ne hx) fun _ => by
      rw [hs.cur_same hL.lh hL.phase, hdata']

theorem mem_drop_succ (hn : L.Nodup) (hu : u < L.length) (x : Nat) :
    x ∈ L.drop (u + 1) ↔ x ≠ L[u] ∧ x ∈ L.drop u := by
  have hd : (L[u] :: L.drop (u + 1)).Nodup := by
    rw [← List.drop_eq_getElem_cons hu]; exact hn.sublist (List.drop_sublist u L)
  rw [List.drop_eq_getElem_cons hu, List.mem_cons]
  constructor
  · intro hx
    exact ⟨fun e => (List.nodup_cons.mp hd).1 (e ▸ hx), .inr hx⟩
  · rintro ⟨hne, hx | hx⟩
    · exact absurd hx hne
    · exact hx

theorem safe_bunpin {k : Nat} (hp : g.phase = .inst V L k u) (hu : u < k)
    (hk : k ≤ L.length) (hl : g.hold.locks i = some l) (hb : l.b = L[u])
    (hQ : Q () { g with phase := .inst V L k (u + 1) }) :
    (call (.bunpin i)).Safe (logLogic D d₀ false) t Q g := by
  refine Safe.call fun s γ hi hg => ⟨trivial, fun b s' he => ?_⟩
  obtain ⟨ph, hL, hc⟩ := hi
  cases he
  obtain rfl := hL.phase_of hg hp (by simp)
  have hl' : (γ t).hold.locks i = some l := by rw [hg]; exact hl
  obtain ⟨hlh, hV, hI, hle⟩ := hL.phase
  refine ⟨_, ⟨.inst V L k (u + 1), ?_, ?_⟩, hQ⟩
  · rw [ctl_setPhase _ hg]
    exact hL.move (t := t) (by show (γ t).phase = _; rw [hg]; exact hp) (by simp) (by simp) rfl rfl
      hL.lh hL.lhLogged ⟨hlh, hV, hI, hu⟩
  · rw [hold_update]
    have : (fun u => (γ u).hold) t = g.hold := by rw [← hg]
    rw [← this, update_eq_self]
    have hmem := mem_drop_succ hI.lh.nodup (Nat.lt_of_lt_of_le hu hk)
    refine hc.bunpin (t := t) hl' ?_ fun x => ?_
    · simp only [pinned, Bool.false_eq_true, if_false]
      rw [hb, List.drop_eq_getElem_cons (Nat.lt_of_lt_of_le hu hk)]
      exact List.mem_cons_self
    · simp only [pinned, Bool.false_eq_true, if_false]
      rw [hb]; exact hmem x

/-- A store to `log.lh` by the thread in a phase. -/
theorem safe_setLh {lh : List Nat} (hne : g.phase ≠ .idle) (hne' : ph' ≠ .idle)
    (h : ∀ disk lh' hist, LhOk D lh' → PhaseOk D d₀ r disk lh' hist g.phase →
      LhOk D lh ∧ (r = false → lh = []) ∧ PhaseOk D d₀ r disk lh hist ph' ∧ pinned r lh ph' = pinned r lh' g.phase)
    (hQ : Q () { g with phase := ph' }) :
    (call (.setLh lh)).Safe (logLogic D d₀ r) t Q g := by
  refine Safe.call fun s γ hi hg => ⟨trivial, fun b s' he => ?_⟩
  obtain ⟨ph, hL, hc⟩ := hi
  cases he
  have hpe := hL.phase_of hg rfl hne
  subst hpe
  obtain ⟨hlh, hnil, hp, hpin⟩ := h _ _ _ hL.lh hL.phase
  refine ⟨_, ⟨ph', ?_, ?_⟩, hQ⟩
  · rw [ctl_setPhase _ hg]
    exact hL.move (t := t) (by show (γ t).phase = _; rw [hg]) hne hne' rfl rfl hlh
      (fun hr b hb => by rw [show ({ s.log with lh } : Log).lh = lh from rfl, hnil hr] at hb; cases hb)
      hp
  · rw [hold_update]
    have : (fun u => (γ u).hold) t = g.hold := by rw [← hg]
    rw [← this, update_eq_self]
    simp only [hpin]
    exact hc

/-- `log.lh.n = 0`, after `install_trans`. -/
theorem safe_clearLh (hp : g.phase = .inst V L L.length u) (hu : r = false → u = L.length)
    (hQ : Q () { g with phase := .cleared V L }) :
    (call (.setLh [])).Safe (logLogic D d₀ r) t Q g := by
  refine safe_setLh (by rw [hp]; simp) (by simp) (fun disk lh' hist _ hok => ?_) hQ
  rw [hp] at hok ⊢
  obtain ⟨-, hV, hI, -⟩ := hok
  refine ⟨LhOk.nil D, fun _ => rfl, ⟨rfl, hV, hI⟩, ?_⟩
  cases r with
  | true => rfl
  | false => simp [pinned, hu rfl]

/-- The stores of `read_head` to `log.lh`. -/
theorem safe_loadLh (hp : g.phase = .boot V L) (hQ : Q () { g with phase := .inst V L 0 0 }) :
    (call (.setLh L)).Safe (logLogic D d₀ r) t Q g := by
  refine safe_setLh (by rw [hp]; simp) (by simp) (fun disk lh' hist _ hok => ?_) hQ
  rw [hp] at hok ⊢
  obtain ⟨rfl, -, hV, hI⟩ := hok
  exact ⟨hI.lh, fun e => (by cases e), ⟨rfl, hV, hI, Nat.le_refl _⟩, rfl⟩

/-! ## Actions that the history records -/

section

variable {disk : Nat → Block} {log : Log} {h : List LogEv} {κ : Tid → Ctl} {ph : Phase}

/-- A step of thread `t` that keeps its phase. -/
theorem coord_update (hc : ∃ v, (κ v).phase = ph ∧ ∀ u, u ≠ v → (κ u).phase = .idle) {k : Ctl}
    (hk : k.phase = (κ t).phase) :
    ∃ v, (update κ t k v).phase = ph ∧
      ∀ u, u ≠ v → (update κ t k u).phase = .idle := by
  simpa only [update_proj Ctl.phase hk] using hc

/-- The lock of a logged block is released. -/
theorem LogInv.released (hi : LogInv D d₀ false disk log h κ ph) {i b : Nat} {d : Block}
    (hw : (κ t).wrote i = some b) (hd : lastLogged b h = some d) :
    LogInv D d₀ false disk log (.released t b d :: h)
      (update κ t { κ t with wrote := update (κ t).wrote i none }) ph := by
  have hin : ∀ u, (update κ t
      { κ t with wrote := update (κ t).wrote i none } u).inOp = (κ u).inOp :=
    update_proj Ctl.inOp rfl
  refine ⟨coord_update hi.coord rfl, hi.committing, fun hne u => by rw [hin]; exact hi.quiet hne u,
    by simp only [hin]; exact hi.ops, hi.lh, ?_, hi.idle, hi.busy, hi.logged,
    hi.lhLogged, fun x => ?_,
    fun u j x hx => ?_, by simp only [hin]; exact hi.old, hi.opened, hi.noSplit,
    fun e => by cases e⟩
  · -- the history's other functions do not read the event
    have hp := hi.phase
    cases ph <;> exact hp
  · by_cases hx : b = x
    · subst hx
      exact .inr (by simp only [lastReleased, if_true]; exact hd.symm)
    · rcases hi.rel x with ⟨u, j, hj⟩ | hrel
      · refine .inl ⟨u, j, ?_⟩
        by_cases hu : u = t
        · subst hu
          have hji : j ≠ i := fun e => hx (Option.some.inj (hw.symm.trans (e ▸ hj)))
          simp [update_of_ne hji, hj]
        · rw [update_of_ne hu]; exact hj
      · exact .inr (by simp only [lastReleased, if_neg hx, lastLogged]; exact hrel)
  · refine hi.wrote u j x ?_
    by_cases hu : u = t
    · subst hu
      by_cases hji : j = i
      · subst hji; simp at hx
      · simpa [update_of_ne hji] using hx
    · rwa [update_of_ne hu] at hx

end

/-- A clean buffer is released; if the thread logged it, the running system's history gets it. -/
theorem safe_releasesleep (hl : g.hold.locks i = some l) (hd : l.dirty = none) (hv : l.valid = true)
    (hr : g.hold.ref = none) (hw : l.wrote = true → r = false)
    (hQ : Q () { g with hold := (g.hold.setLock i none).setRef (some (i, l.b)) }) :
    (call (.releasesleep i)).Safe (logLogic D d₀ r) t Q g := by
  refine Safe.call fun s γ hi hg => ⟨trivial, fun b s' he => ?_⟩
  obtain ⟨ph, hL, hc⟩ := hi
  have hl' : (γ t).hold.locks i = some l := by rw [hg]; exact hl
  have hk := hc.lkOk (t := t) hl'
  have hwr : (s.buf i).wrote = l.wrote := hk.wrote
  have hrel := hc.releasesleep (t := t) hl' hd (by rw [hg]; exact hr)
  refine ⟨_, ⟨ph, ?_⟩, hQ⟩
  have he' : logExec t (.releasesleep i) s = some (.ok (b, s')) := he
  simp only [logExec, hwr] at he'
  rw [hold_update]
  cases hlw : l.wrote with
  | false =>
    rw [hlw] at he'
    cases he'
    refine ⟨?_, by rw [← hg]; exact hrel⟩
    rw [ctl_update_same γ t]
    · exact hL
    · rw [hg]
      refine (ctl_setRef _ _).trans (ctl_setLock ?_)
      rw [hl]; simp [Lk.wroteBlock, hlw]
  | true =>
    rw [hlw] at he'
    cases he'
    obtain rfl := hw hlw
    have hbn : (s.buf i).blockno = l.b := hk.blockno
    have hwb : ((γ t).ctl.wrote) i = some l.b := by
      simp [LogGhost.ctl, hl', Lk.wroteBlock, hlw]
    -- the data is what was logged last
    have hlog : lastLogged l.b s.hist = some (s.buf i).data := by
      have hne := hL.wrote t i l.b hwb
      have hdata : (s.buf i).data = view d₀ s.hist l.b := by
        have := hk.clean hd hv
        rwa [cur_home (hL.logged _ hne)] at this
      rw [hdata, view_eq]
      cases hx : lastLogged l.b s.hist with
      | none => exact absurd hx hne
      | some d => rfl
    refine ⟨?_, by rw [← hg]; exact hrel⟩
    have hctl : (fun u => (update γ t
        { g with hold := (g.hold.setLock i none).setRef (some (i, l.b)) } u).ctl) =
        update (fun u => (γ u).ctl) t
          { (γ t).ctl with wrote := update (γ t).ctl.wrote i none } := by
      rw [ctl_update, hg]
      congr 1
      simp only [LogGhost.ctl, Hold.setRef, Hold.setLock, Ctl.mk.injEq, true_and]
      funext j
      by_cases hj : j = i
      · subst hj; simp
      · simp [update_of_ne hj]
    rw [hctl]
    simp only [hbn]
    exact hL.released (t := t) hwb hlog

end Xv6
