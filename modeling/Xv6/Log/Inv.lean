import Xv6.Bio.Inv
import Xv6.Log.Hist

/-!
# The invariant of the log

`LogInv` is what holds of the disk, of `struct log` and of the history between any two actions;
together with `CacheInv` it is the invariant of the logic `logLogic`. One logic serves the running
system and the recovery (`r`: recovering).

* **The phase** (`Phase`) is where the one thread in `commit()` or in `recover_from_log` is. It
  names the contents `V` that the blocks will have, and the block numbers `L` of the group.
  `PhaseOk` is what the disk holds then.
* **The contents** of a block for a reader (`cur`): what was logged last, and for the blocks of the
  log area the disk. During the recovery it is the disk for all blocks.
* **The pins** (`pinned`): the blocks of `log.lh` that `install_trans` has not passed yet.
-/

namespace Xv6

open Conc LogHist

/-- Where the thread in `commit()` or `recover_from_log` is. -/
inductive Phase where
  /-- No thread is there. -/
  | idle
  /-- `write_log` has written `k` blocks to the log area. -/
  | writing (V : Nat → Block) (L : List Nat) (k : Nat)
  /-- The header is on the disk; `install_trans` has written `k` blocks and unpinned `u`. -/
  | inst (V : Nat → Block) (L : List Nat) (k u : Nat)
  /-- `log.lh.n = 0` in memory only. -/
  | cleared (V : Nat → Block) (L : List Nat)
  /-- The empty header is on the disk. -/
  | done (V : Nat → Block)
  /-- Before `read_head` has stored to `log.lh`. -/
  | boot (V : Nat → Block) (L : List Nat)

/-- The block a lock's holder passed to `log_write`. -/
def Lk.wroteBlock (l : Lk) : Option Nat := if l.wrote then some l.b else none

/-- What the log's invariant reads of a thread. -/
structure Ctl where
  inOp : Bool
  phase : Phase
  /-- The blocks of the thread's locks that it passed to `log_write`. -/
  wrote : Nat → Option Nat

/-- A thread's ghost value. -/
structure LogGhost where
  hold : Hold := {}
  inOp : Bool := false
  phase : Phase := .idle

/-- What the log's invariant reads of a ghost value. -/
def LogGhost.ctl (g : LogGhost) : Ctl :=
  ⟨g.inOp, g.phase, fun i => (g.hold.locks i).bind Lk.wroteBlock⟩

/-! ## The disk -/

/-- The block numbers of a group: distinct, at most `LOGBLOCKS`, outside the log area. -/
structure LhOk (D : LogDev) (L : List Nat) : Prop where
  nodup : L.Nodup
  le : L.length ≤ LOGBLOCKS
  home : ∀ b ∈ L, D.home b
  lt : ∀ b ∈ L, b < 2 ^ 32

/-- The disk of a committed group `L` of which `k` blocks are installed: when all are, the home
blocks hold `V`. -/
structure Installing (D : LogDev) (d V : Nat → Block) (L : List Nat) (k : Nat) : Prop where
  lh : LhOk D L
  head : Hdr.read (d D.start) = L
  slot : ∀ j (hj : j < L.length), d (D.start + j + 1) = V L[j]
  home : ∀ b, D.home b → b ∉ L.drop k → d b = V b
  le : k ≤ L.length

/-- The disk before a group commits: an empty header, and the home blocks hold `B`. -/
structure Unchanged (D : LogDev) (d B : Nat → Block) : Prop where
  head : Hdr.read (d D.start) = []
  home : ∀ b, D.home b → d b = B b

/-- What the disk and `log.lh` hold in a phase. -/
def PhaseOk (D : LogDev) (d₀ : Nat → Block) (r : Bool) (disk : Nat → Block) (lh : List Nat)
    (h : List LogEv) : Phase → Prop
  | .idle => r = false ∧ Unchanged D disk (base d₀ h) ∧
      ∀ b, D.home b → b ∉ lh → view d₀ h b = base d₀ h b
  | .writing V L k => r = false ∧ lh = L ∧ (∀ b, D.home b → view d₀ h b = V b) ∧
      Unchanged D disk (base d₀ h) ∧ (∀ b, D.home b → b ∉ L → V b = base d₀ h b) ∧
      ∃ _ : k ≤ L.length, ∀ j (hj : j < k), disk (D.start + j + 1) = V L[j]
  | .inst V L k u => lh = L ∧ (∀ b, D.home b → view d₀ h b = V b) ∧ Installing D disk V L k ∧ u ≤ k
  | .cleared V L => lh = [] ∧ (∀ b, D.home b → view d₀ h b = V b) ∧ Installing D disk V L L.length
  | .done V => lh = [] ∧ (∀ b, D.home b → view d₀ h b = V b) ∧ Unchanged D disk V
  | .boot V L => r = true ∧ lh = [] ∧ (∀ b, D.home b → view d₀ h b = V b) ∧ Installing D disk V L 0

/-- The blocks that the log has pinned. -/
def pinned (r : Bool) (lh : List Nat) : Phase → List Nat
  | .idle => lh
  | .writing _ L _ => L
  | .inst _ L _ u => if r then [] else L.drop u
  | _ => []

/-- The contents of the blocks for a reader. -/
def cur (D : LogDev) (d₀ : Nat → Block) (r : Bool) (disk : Nat → Block) (h : List LogEv) :
    Nat → Block := fun b => if r || D.isLog b then disk b else view d₀ h b

/-! ## The invariant -/

/-- The invariant of the log (module doc). -/
structure LogInv (D : LogDev) (d₀ : Nat → Block) (r : Bool) (disk : Nat → Block) (log : Log)
    (h : List LogEv) (κ : Tid → Ctl) (ph : Phase) : Prop where
  /-- One thread is in the phase, the others are in none. -/
  coord : ∃ t, (κ t).phase = ph ∧ ∀ u, u ≠ t → (κ u).phase = .idle
  committing : log.committing = true ↔ r = false ∧ ph ≠ .idle
  quiet : ph ≠ .idle → ∀ t, (κ t).inOp = false
  ops : ∃ ops : List Tid, ops.Nodup ∧ (∀ t, t ∈ ops ↔ (κ t).inOp = true) ∧
    log.outstanding = ops.length
  lh : LhOk D log.lh
  phase : PhaseOk D d₀ r disk log.lh h ph
  idle : ph = .idle → (closed h).length = commits h
  busy : ph ≠ .idle → openUpds h = [] ∧ (r = false → (closed h).length = commits h + 1)
  logged : ∀ b, lastLogged b h ≠ none → D.home b
  lhLogged : r = false → ∀ b ∈ log.lh, lastLogged b h ≠ none
  /-- What was logged last has been released, or its lock is still held. -/
  rel : ∀ b, (∃ t i, (κ t).wrote i = some b) ∨ lastReleased b h = lastLogged b h
  wrote : ∀ t i b, (κ t).wrote i = some b → lastLogged b h ≠ none
  /-- The operations of the closed groups are over. -/
  old : ∀ g ∈ closed h, ∀ u ∈ g, u.op.2 ≤ opNo u.op.1 h ∧
    ((κ u.op.1).inOp = true → u.op.2 < opNo u.op.1 h)
  opened : ∀ u ∈ openUpds h, u.op.2 ≤ opNo u.op.1 h
  noSplit : Redo.NoSplit (closed h ++ [openUpds h])
  /-- The recovery logs nothing. -/
  fresh : r = true → h = []

/-- The invariant of the machine. -/
def LogAll (D : LogDev) (d₀ : Nat → Block) (r : Bool) (s : LogSt) (γ : Tid → LogGhost) : Prop :=
  ∃ ph, LogInv D d₀ r s.disk s.log s.hist (fun t => (γ t).ctl) ph ∧
    CacheInv D.dev (cur D d₀ r s.disk s.hist) (pinned r s.log.lh ph) s.cache fun t => (γ t).hold

/-- The logic of the machine. -/
def logLogic (D : LogDev) (d₀ : Nat → Block) (r : Bool) : Logic LogAct LogSt Panic LogGhost where
  exec := logExec
  inv := LogAll D d₀ r

/-! ## Basic facts -/

section

variable {D : LogDev} {d₀ : Nat → Block} {r : Bool} {disk : Nat → Block} {log : Log}
  {h : List LogEv} {κ : Tid → Ctl} {ph : Phase} {t : Tid} {b j : Nat}

theorem LogDev.home_ne_start (hb : D.home b) : b ≠ D.start := by
  rintro rfl
  simp [home, isLog] at hb

theorem LogDev.home_ne_slot (hb : D.home b) (hj : j < LOGBLOCKS) : b ≠ D.start + j + 1 := by
  rintro rfl
  simp only [home, isLog, Bool.and_eq_false_iff, decide_eq_false_iff_not] at hb
  omega

theorem LogDev.isLog_start (D : LogDev) : D.isLog D.start = true := by simp [isLog]

theorem LogDev.isLog_slot (D : LogDev) (hj : j < LOGBLOCKS) : D.isLog (D.start + j + 1) = true := by
  simp only [isLog, Bool.and_eq_true, decide_eq_true_eq]
  omega

theorem LhOk.nil (D : LogDev) : LhOk D [] := ⟨List.nodup_nil, by simp, by simp, by simp⟩

theorem cur_isLog (hb : D.isLog b = true) : cur D d₀ r disk h b = disk b := by
  simp [cur, hb]

theorem cur_recovering : cur D d₀ true disk h b = disk b := by simp [cur]

theorem cur_home (hb : D.home b) : cur D d₀ false disk h b = view d₀ h b := by
  simp only [LogDev.home] at hb
  simp [cur, hb]

/-- A thread in a phase is the one. -/
theorem LogInv.phase_eq (hi : LogInv D d₀ r disk log h κ ph) (ht : (κ t).phase ≠ .idle) : ph = (κ t).phase := by
  obtain ⟨u, hu, ho⟩ := hi.coord
  by_cases e : t = u
  · rw [e, hu]
  · exact absurd (ho t e) ht

/-- The running system pins logged blocks only. -/
theorem LogInv.mem_lh_of_pinned (hi : LogInv D d₀ false disk log h κ ph)
    (hb : b ∈ pinned false log.lh ph) : b ∈ log.lh := by
  have hp := hi.phase
  cases ph with
  | idle => exact hb
  | writing V L k => rw [hp.2.1]; exact hb
  | inst V L k u => rw [hp.1]; exact List.mem_of_mem_drop hb
  | cleared V L => cases hb
  | done V => cases hb
  | boot V L => cases hb

/-- A block that is not pinned has its contents on the disk. -/
theorem LogInv.disk_cur (hi : LogInv D d₀ r disk log h κ ph)
    (hb : b ∉ pinned r log.lh ph) : disk b = cur D d₀ r disk h b := by
  cases r with
  | true => exact cur_recovering.symm
  | false =>
    cases hl : D.isLog b with
    | true => exact (cur_isLog hl).symm
    | false =>
      have hp := hi.phase
      rw [cur_home hl]
      cases ph with
      | idle => exact (hp.2.1.home b hl).trans (hp.2.2 b hl hb).symm
      | writing V L k =>
        obtain ⟨-, -, hV, hU, hB, -⟩ := hp
        rw [hU.home b hl, hV b hl, hB b hl hb]
      | inst V L k u =>
        obtain ⟨-, hV, hI, hu⟩ := hp
        rw [hV b hl]
        refine hI.home b hl fun hm => hb ?_
        simp only [pinned, Bool.false_eq_true, if_false]
        exact (List.drop_sublist_drop_left L hu).mem hm
      | cleared V L =>
        obtain ⟨-, hV, hI⟩ := hp
        rw [hV b hl]
        exact hI.home b hl (by simp)
      | done V =>
        obtain ⟨-, hV, hU⟩ := hp
        rw [hV b hl]; exact hU.home b hl
      | boot V L => cases hp.1

end

end Xv6
