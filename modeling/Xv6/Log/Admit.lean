import Xv6.Conc.Count
import Xv6.Log.Struct

/-!
# Log admission

`begin_op` lets an operation start only if the log has room for `MAXOPBLOCKS` blocks of every
operation that is executing. This file runs the sections of `Xv6/Log/Struct.lean` for any number
of clients in any order, and settles when `log_write` finds the log full.

* **The machine** (`Adm N`): `struct log` and `N` clients. A client between its `begin_op` and its
  `end_op` carries the set of the blocks that it passed to `log_write`. The client that ends the
  last operation runs `commit()`, which empties the log.
* **The reservation** (`Adm.Inv`): the log's length plus what the executing operations may still
  add is at most `LOGBLOCKS`. A block that is new in the log is new in the operation's set too, so
  the sum does not grow.
* **The boundary**: a `log_write` of a block that is new to its operation never finds the log
  full. One that repeats a block can: it needs no room, but the test for a full log comes before
  the search for the block (`log_full_iff`).
-/

namespace Xv6

open Conc

/-- What a client of the log is doing. -/
inductive Client where
  | idle
  /-- Between `begin_op` and `end_op`; `wrote` are the blocks passed to `log_write`. -/
  | op (wrote : Finset Nat)
  /-- In `commit()`, called by `end_op`. -/
  | commit
  /-- Back from `commit()`, before the last section of `end_op`. -/
  | committed
  deriving DecidableEq

namespace Client

/-- The operation is executing: between `begin_op` and the first section of `end_op`. -/
def active : Client → Nat
  | op _ => 1
  | idle | commit | committed => 0

/-- What the operation may still add to the log. -/
def spare : Client → Nat
  | op W => MAXOPBLOCKS - W.card
  | idle | commit | committed => 0

/-- In `end_op`, after the section that set `log.committing`. -/
def commits : Client → Prop
  | commit | committed => True
  | idle | op _ => False

/-- The blocks that the executing operation passed to `log_write`. -/
def wrote : Client → Finset Nat
  | op W => W
  | idle | commit | committed => ∅

end Client

/-- `struct log` with `N` clients. -/
structure Adm (N : Nat) where
  log : Log
  client : Fin N → Client

/-- A step of a client. -/
inductive AdmEv (N : Nat) where
  | beginOp (t : Fin N)
  | logWrite (t : Fin N) (b : Nat)
  | endOp (t : Fin N)
  /-- `commit()` clears `log.lh.n`. -/
  | commit (t : Fin N)
  | endCommit (t : Fin N)

namespace Adm

variable {N : Nat}

/-- The log after boot, with no client in an operation. -/
def init (N : Nat) : Adm N := { log := {}, client := fun _ => .idle }

/-- Client `t` goes to `c` and the log to `l`. -/
def set (s : Adm N) (t : Fin N) (c : Client) (l : Log) : Adm N :=
  { log := l, client := Function.update s.client t c }

@[simp] theorem set_log (s : Adm N) (t : Fin N) (c : Client) (l : Log) : (s.set t c l).log = l := rfl

/-- Every client but `t` keeps its state. -/
theorem set_client (s : Adm N) (t u : Fin N) (c : Client) (l : Log) :
    (s.set t c l).client u = if u = t then c else s.client u := by
  simp [set, Function.update_apply]

/-- The number of executing operations. -/
def active (s : Adm N) : Nat := total Client.active s.client

/-- What the executing operations may still add to the log. -/
def spare (s : Adm N) : Nat := total Client.spare s.client

theorem active_set (s : Adm N) (t : Fin N) (c : Client) (l : Log) :
    (s.set t c l).active + (s.client t).active = s.active + c.active :=
  total_update Client.active s.client t c

theorem spare_set (s : Adm N) (t : Fin N) (c : Client) (l : Log) :
    (s.set t c l).spare + (s.client t).spare = s.spare + c.spare :=
  total_update Client.spare s.client t c

/-- The spare room of all operations is at most `MAXOPBLOCKS` for each. -/
theorem spare_le (s : Adm N) : s.spare ≤ s.active * MAXOPBLOCKS := by
  refine total_le_mul _ fun c => ?_
  cases c <;> simp [Client.spare, Client.active]

/-- One step: `none` if the client is not at that step, sleeps in `begin_op`, or would pass more
than `MAXOPBLOCKS` distinct blocks to `log_write`. -/
def step (s : Adm N) : AdmEv N → Option (Except Panic (Adm N))
  | .beginOp t =>
    match s.client t with
    | .idle => s.log.beginOp.map fun l => .ok (s.set t (.op ∅) l)
    | _ => none
  | .logWrite t b =>
    match s.client t with
    | .op W =>
      if (insert b W).card ≤ MAXOPBLOCKS then
        some ((s.log.logWrite b).map fun r => s.set t (.op (insert b W)) r.1)
      else none
    | _ => none
  | .endOp t =>
    match s.client t with
    | .op _ => some (s.log.endOp.map fun r => s.set t (if r.2 then .commit else .idle) r.1)
    | _ => none
  | .commit t =>
    match s.client t with
    | .commit => some (.ok (s.set t .committed { s.log with lh := [] }))
    | _ => none
  | .endCommit t =>
    match s.client t with
    | .committed => some (.ok (s.set t .idle s.log.endCommit))
    | _ => none

/-- The steps `evs` from `s`: `none` if one of them cannot be taken, an error if one panics (the
machine stops there). -/
def run (s : Adm N) : List (AdmEv N) → Option (Except Panic (Adm N))
  | [] => some (.ok s)
  | e :: evs =>
    match s.step e with
    | none => none
    | some (.error p) => some (.error p)
    | some (.ok s') => s'.run evs

/-- The reservation and what it rests on. -/
structure Inv (s : Adm N) : Prop where
  /-- `log.outstanding` counts the executing operations. -/
  count : s.log.outstanding = s.active
  /-- The log and what the executing operations may still add fit. -/
  room : s.log.n + s.spare ≤ LOGBLOCKS
  /-- The log has every block that an executing operation passed to `log_write`. -/
  logged : ∀ t, ∀ b ∈ (s.client t).wrote, b ∈ s.log.lh
  small : ∀ t, (s.client t).wrote.card ≤ MAXOPBLOCKS
  busy : ∀ t, (s.client t).commits → s.log.committing = true
  one : ∀ t u, (s.client t).commits → (s.client u).commits → t = u
  quiet : s.log.committing = true → s.log.outstanding = 0

theorem init_inv : Inv (init N) where
  count := by simp [init, active, total, Client.active]
  room := by simp [init, spare, total, Client.spare, Log.n]
  logged := by simp [init, Client.wrote]
  small := by simp [init, Client.wrote]
  busy := by simp [init, Client.commits]
  one := by simp [init, Client.commits]
  quiet := by simp [init]

variable {s s' : Adm N} {t : Fin N} {l : Log} {b : Nat} {W : Finset Nat} {e : AdmEv N}

/-- A property of the other clients, and of client `t` in its new state. -/
theorem forall_set {P : Client → Prop} {c : Client} (hc : P c)
    (h : ∀ u, P (s.client u)) (u : Fin N) : P ((s.set t c l).client u) := by
  rw [set_client]
  split
  · exact hc
  · exact h u

/-- A client that does not commit leaves at most the client that did. -/
theorem one_set {c : Client} (hi : Inv s) (hc : c.commits → (s.client t).commits) (u v : Fin N)
    (hu : ((s.set t c l).client u).commits) (hv : ((s.set t c l).client v).commits) : u = v := by
  have key : ∀ w, ((s.set t c l).client w).commits → (s.client w).commits := by
    intro w hw
    rw [set_client] at hw
    split at hw
    · rename_i h
      rw [h]; exact hc hw
    · exact hw
  exact hi.one u v (key u hu) (key v hv)

theorem inv_beginOp (hi : Inv s) (ht : s.client t = .idle)
    (hl : s.log.beginOp = some l) : Inv (s.set t (.op ∅) l) := by
  obtain ⟨hc, hroom, rfl⟩ := Log.beginOp_some hl
  have ha := active_set s t (.op ∅) { s.log with outstanding := s.log.outstanding + 1 }
  have hs := spare_set s t (.op ∅) { s.log with outstanding := s.log.outstanding + 1 }
  have hle := spare_le s
  have hcount := hi.count
  simp only [ht, Client.active, Client.spare, Finset.card_empty] at ha hs
  refine ⟨?_, ?_, ?_, ?_, ?_, ?_, ?_⟩
  · simp only [set_log]; omega
  · -- The test of `begin_op` reserves `MAXOPBLOCKS` for each operation, this one included.
    rw [hcount] at hroom
    have hroom' : s.log.n + s.active * MAXOPBLOCKS + MAXOPBLOCKS ≤ LOGBLOCKS := by
      zify; linarith
    simp only [set_log, Log.n] at hroom' ⊢
    omega
  · exact forall_set (P := fun c => ∀ b ∈ c.wrote, b ∈ s.log.lh) (by simp [Client.wrote]) hi.logged
  · exact forall_set (P := fun c => c.wrote.card ≤ MAXOPBLOCKS) (by simp [Client.wrote]) hi.small
  · exact forall_set (P := fun c => c.commits → s.log.committing = true) (by simp [Client.commits]) hi.busy
  · exact one_set hi (by simp [Client.commits])
  · intro h
    simp [hc] at h

/-- A block that is new in the log is new to the operation that logs it. -/
theorem card_insert_of_new (hi : Inv s) (hb : b ∉ s.log.lh) :
    (insert b (s.client t).wrote).card = (s.client t).wrote.card + 1 :=
  Finset.card_insert_of_notMem fun h => hb (hi.logged t b h)

theorem inv_logWrite {new : Bool} (hi : Inv s) (ht : s.client t = .op W) (hW : (insert b W).card ≤ MAXOPBLOCKS)
    (hl : s.log.logWrite b = .ok (l, new)) : Inv (s.set t (.op (insert b W)) l) := by
  obtain ⟨-, ho, -, hl⟩ := Log.logWrite_ok hl
  have ha := active_set s t (.op (insert b W)) l
  have hs := spare_set s t (.op (insert b W)) l
  simp only [ht, Client.active, Client.spare] at ha hs
  have hmono : W.card ≤ (insert b W).card := Finset.card_le_card (Finset.subset_insert b W)
  have hmem : ∀ x, x = b ∨ x ∈ s.log.lh → x ∈ l.lh := by
    intro x hx
    subst hl
    by_cases hb : b ∈ s.log.lh <;> rcases hx with rfl | hx <;> simp [*]
  have hout : l.outstanding = s.log.outstanding := by rw [hl]
  have hcom : l.committing = s.log.committing := by rw [hl]
  refine ⟨?_, ?_, ?_, ?_, ?_, ?_, ?_⟩
  · have := hi.count
    simp only [set_log]; omega
  · -- A new block takes one of the blocks that were spare for this operation.
    have hroom := hi.room
    have hlen : l.n + W.card ≤ s.log.n + (insert b W).card := by
      subst hl
      by_cases hb : b ∈ s.log.lh
      · simp [Log.n, hb]; omega
      · have := card_insert_of_new hi (t := t) hb
        simp only [ht, Client.wrote] at this
        simp [Log.n, hb]; omega
    simp only [set_log]; omega
  · refine forall_set (P := fun c => ∀ x ∈ c.wrote, x ∈ l.lh) (fun x hx => ?_) fun u x hx =>
      hmem x (.inr (hi.logged u x hx))
    rcases Finset.mem_insert.mp hx with rfl | hx
    · exact hmem _ (.inl rfl)
    · exact hmem _ (.inr (hi.logged t x (by rw [ht]; exact hx)))
  · exact forall_set (P := fun c => c.wrote.card ≤ MAXOPBLOCKS) hW hi.small
  · refine forall_set (P := fun c => c.commits → l.committing = true) (by simp [Client.commits]) fun u hu => ?_
    rw [hcom]; exact hi.busy u hu
  · exact one_set hi (by simp [Client.commits])
  · intro h
    simp only [set_log] at h ⊢
    have := hi.quiet (hcom ▸ h)
    omega

theorem inv_endOp {c : Bool} (hi : Inv s) (ht : s.client t = .op W) (hl : s.log.endOp = .ok (l, c)) :
    Inv (s.set t (if c then .commit else .idle) l) := by
  obtain ⟨hc, hone, hl⟩ := Log.endOp_ok hl
  have ha := active_set s t (if c then .commit else .idle) l
  have hs := spare_set s t (if c then .commit else .idle) l
  have hout : l.outstanding = s.log.outstanding - 1 := by rw [hl]
  have hlh : l.lh = s.log.lh := by rw [hl]
  have hcom : l.committing = c := by rw [hl]
  have ha' : Client.active (if c then .commit else .idle) = 0 := by cases c <;> rfl
  have hs' : Client.spare (if c then .commit else .idle) = 0 := by cases c <;> rfl
  have hw : Client.wrote (if c then .commit else .idle) = ∅ := by cases c <;> rfl
  have hno : ∀ u, ¬ (s.client u).commits := by
    intro u hu
    rw [hi.busy u hu] at hc; cases hc
  rw [ha', ht, Client.active] at ha
  rw [hs', ht, Client.spare] at hs
  refine ⟨?_, ?_, ?_, ?_, ?_, ?_, ?_⟩
  · have := hi.count
    simp only [set_log]; omega
  · have := hi.room
    simp only [set_log, Log.n, hlh] at *; omega
  · refine forall_set (P := fun c => ∀ x ∈ c.wrote, x ∈ l.lh) (by simp [hw]) ?_
    rw [hlh]; exact hi.logged
  · exact forall_set (P := fun c => c.wrote.card ≤ MAXOPBLOCKS) (by simp [hw]) hi.small
  · refine forall_set (P := fun c => c.commits → l.committing = true) ?_ fun u hu => ?_
    · cases c
      · simp [Client.commits]
      · intro _; exact hcom
    · exact absurd hu (hno u)
  · intro u v hu hv
    rw [set_client] at hu hv
    split at hu
    · split at hv
      · simp [*]
      · exact absurd hv (hno v)
    · exact absurd hu (hno u)
  · intro h
    simp only [set_log] at h ⊢
    have := hone.mp (hcom ▸ h)
    omega

/-- While a client is in `commit()`, no operation is executing. -/
theorem wrote_empty (hi : Inv s) (hc : s.log.committing = true) (u : Fin N) : (s.client u).wrote = ∅ := by
  have h1 := hi.quiet hc
  have h2 := hi.count
  have h3 : (s.client u).active ≤ s.active := le_total Client.active s.client u
  cases hu : s.client u with
  | op W => rw [hu, Client.active] at h3; omega
  | idle | commit | committed => rfl

theorem inv_commit (hi : Inv s) (ht : s.client t = .commit) : Inv (s.set t .committed { s.log with lh := [] }) := by
  have hc : s.log.committing = true := hi.busy t (by rw [ht]; trivial)
  have ha := active_set s t .committed { s.log with lh := [] }
  have hs := spare_set s t .committed { s.log with lh := [] }
  simp only [ht, Client.active, Client.spare] at ha hs
  refine ⟨?_, ?_, ?_, ?_, ?_, ?_, ?_⟩
  · have := hi.count
    simp only [set_log]; omega
  · have := hi.room
    simp only [set_log, Log.n, List.length_nil] at *; omega
  · refine forall_set (P := fun c => ∀ x ∈ c.wrote, x ∈ ([] : List Nat)) (by simp [Client.wrote]) fun u => ?_
    simp [wrote_empty hi hc u]
  · exact forall_set (P := fun c => c.wrote.card ≤ MAXOPBLOCKS) (by simp [Client.wrote]) hi.small
  · intro _ _; exact hc
  · exact one_set hi (by simp [ht, Client.commits])
  · exact hi.quiet

theorem inv_endCommit (hi : Inv s) (ht : s.client t = .committed) : Inv (s.set t .idle s.log.endCommit) := by
  have ha := active_set s t .idle s.log.endCommit
  have hs := spare_set s t .idle s.log.endCommit
  simp only [ht, Client.active, Client.spare] at ha hs
  have hout : s.log.endCommit.outstanding = s.log.outstanding := rfl
  have hn : s.log.endCommit.n = s.log.n := rfl
  refine ⟨?_, ?_, ?_, ?_, ?_, ?_, ?_⟩
  · have := hi.count
    simp only [set_log]; omega
  · have := hi.room
    simp only [set_log]; omega
  · exact forall_set (P := fun c => ∀ b ∈ c.wrote, b ∈ s.log.lh) (by simp [Client.wrote]) hi.logged
  · exact forall_set (P := fun c => c.wrote.card ≤ MAXOPBLOCKS) (by simp [Client.wrote]) hi.small
  · intro u hu
    rw [set_client] at hu
    split at hu
    · simp [Client.commits] at hu
    · rename_i hne
      exact absurd (hi.one u t hu (by rw [ht]; trivial)) hne
  · exact one_set hi (by simp [Client.commits])
  · intro h
    simp [Log.endCommit] at h

/-- What a step that does not panic does. -/
theorem step_ok (h : s.step e = some (.ok s')) :
    (∃ t l, e = .beginOp t ∧ s.client t = .idle ∧ s.log.beginOp = some l ∧
      s' = s.set t (.op ∅) l) ∨
    (∃ t b W l new, e = .logWrite t b ∧ s.client t = .op W ∧ (insert b W).card ≤ MAXOPBLOCKS ∧
      s.log.logWrite b = .ok (l, new) ∧ s' = s.set t (.op (insert b W)) l) ∨
    (∃ t W l c, e = .endOp t ∧ s.client t = .op W ∧ s.log.endOp = .ok (l, c) ∧
      s' = s.set t (if c then .commit else .idle) l) ∨
    (∃ t, e = .commit t ∧ s.client t = .commit ∧
      s' = s.set t .committed { s.log with lh := [] }) ∨
    (∃ t, e = .endCommit t ∧ s.client t = .committed ∧ s' = s.set t .idle s.log.endCommit) := by
  cases e with
  | beginOp t =>
    simp only [step] at h
    split at h
    · rename_i ht
      obtain ⟨l, hl, h⟩ := Option.map_eq_some_iff.mp h
      injection h with h
      exact .inl ⟨t, l, rfl, ht, hl, h.symm⟩
    · cases h
  | logWrite t b =>
    simp only [step] at h
    split at h
    · rename_i W ht
      split at h
      · rename_i hW
        cases hl : s.log.logWrite b with
        | error p => rw [hl] at h; cases h
        | ok r =>
          rw [hl] at h
          injection h with h; injection h with h
          exact .inr (.inl ⟨t, b, W, r.1, r.2, rfl, ht, hW, hl, h.symm⟩)
      · cases h
    · cases h
  | endOp t =>
    simp only [step] at h
    split at h
    · rename_i W ht
      cases hl : s.log.endOp with
      | error p => rw [hl] at h; cases h
      | ok r =>
        rw [hl] at h
        injection h with h; injection h with h
        exact .inr (.inr (.inl ⟨t, W, r.1, r.2, rfl, ht, rfl, h.symm⟩))
    · cases h
  | commit t =>
    simp only [step] at h
    split at h
    · rename_i ht
      injection h with h; injection h with h
      exact .inr (.inr (.inr (.inl ⟨t, rfl, ht, h.symm⟩)))
    · cases h
  | endCommit t =>
    simp only [step] at h
    split at h
    · rename_i ht
      injection h with h; injection h with h
      exact .inr (.inr (.inr (.inr ⟨t, rfl, ht, h.symm⟩)))
    · cases h

theorem step_inv (hi : Inv s) (h : s.step e = some (.ok s')) : Inv s' := by
  obtain ⟨t, l, -, ht, hl, rfl⟩ | ⟨t, b, W, l, new, -, ht, hW, hl, rfl⟩ |
    ⟨t, W, l, c, -, ht, hl, rfl⟩ | ⟨t, -, ht, rfl⟩ | ⟨t, -, ht, rfl⟩ := step_ok h
  · exact inv_beginOp hi ht hl
  · exact inv_logWrite hi ht hW hl
  · exact inv_endOp hi ht hl
  · exact inv_commit hi ht
  · exact inv_endCommit hi ht

theorem run_inv {evs : List (AdmEv N)} (hi : Inv s) (h : s.run evs = some (.ok s')) : Inv s' := by
  induction evs generalizing s with
  | nil =>
    injection h with h; injection h with h
    exact h ▸ hi
  | cons e evs ih =>
    simp only [run] at h
    split at h
    · cases h
    · cases h
    · rename_i s₁ hs
      exact ih (step_inv hi hs) h

/-- A `log_write` that an operation may make finds the log full exactly when it repeats one of
the operation's blocks on a log of `LOGBLOCKS` blocks: a block that is new to the operation has
room reserved. -/
theorem full_iff (hi : Inv s) (ht : s.client t = .op W) (hW : (insert b W).card ≤ MAXOPBLOCKS) :
    LOGBLOCKS ≤ s.log.n ↔ b ∈ W ∧ s.log.n = LOGBLOCKS := by
  have hroom := hi.room
  constructor
  · intro h
    refine ⟨?_, by omega⟩
    by_contra hb
    -- Then the operation has spare room, on top of a full log.
    rw [Finset.card_insert_of_notMem hb] at hW
    have hle : (s.client t).spare ≤ s.spare := le_total Client.spare s.client t
    rw [ht, Client.spare] at hle
    omega
  · rintro ⟨-, h⟩
    omega

/-- A step panics with `too big a transaction` exactly when it is a `log_write` of a block that
its operation has logged before, on a full log. -/
theorem step_tooBig_iff (hi : Inv s) (he : s.step e ≠ none) :
    s.step e = some (.error .tooBigTransaction) ↔
      ∃ t b, e = .logWrite t b ∧ b ∈ (s.client t).wrote ∧ s.log.n = LOGBLOCKS := by
  cases e with
  | beginOp t =>
    simp only [step]
    split
    · simp
    · simp
  | logWrite t b =>
    cases ht : s.client t with
    | idle | commit | committed => simp [step, ht] at he
    | op W =>
      by_cases hW : (insert b W).card ≤ MAXOPBLOCKS
      · have hfull := full_iff hi ht hW
        have hbig := Log.logWrite_tooBig (l := s.log) (b := b)
        simp only [step, ht, if_pos hW]
        constructor
        · intro h
          have hl : s.log.logWrite b = .error .tooBigTransaction := by
            cases hl : s.log.logWrite b with
            | ok r => rw [hl] at h; cases h
            | error p => rw [hl] at h; simpa [Except.map] using h
          have := hfull.mp (hbig.mp hl)
          exact ⟨t, b, rfl, by rw [ht]; exact this.1, this.2⟩
        · rintro ⟨t', b', heq, hb, hn⟩
          injection heq with h₁ h₂
          subst h₁ h₂
          rw [ht] at hb
          rw [hbig.mpr (hfull.mpr ⟨hb, hn⟩)]
          rfl
      · simp [step, ht, hW] at he
  | endOp t =>
    simp only [step]
    split
    · cases hl : s.log.endOp with
      | ok r => simp [Except.map]
      | error p =>
        have : p ≠ .tooBigTransaction := by
          unfold Log.endOp at hl
          simp only at hl
          split at hl
          · injection hl with hl; rw [← hl]; decide
          · split at hl <;> cases hl
        simp [Except.map, this]
    · simp
  | commit t =>
    simp only [step]
    split
    · simp
    · simp
  | endCommit t =>
    simp only [step]
    split
    · simp
    · simp

theorem run_tooBig_iff (hi : Inv s) (evs : List (AdmEv N)) (hr : s.run evs ≠ none) :
    s.run evs = some (.error .tooBigTransaction) ↔
      ∃ pre t b post s', evs = pre ++ .logWrite t b :: post ∧ s.run pre = some (.ok s') ∧
        b ∈ (s'.client t).wrote ∧ s'.log.n = LOGBLOCKS := by
  induction evs generalizing s with
  | nil =>
    simp [run]
  | cons e evs ih =>
    have he : s.step e ≠ none := by
      intro h; simp [run, h] at hr
    have hstep := step_tooBig_iff hi he
    simp only [run] at hr ⊢
    split
    · rename_i h; exact absurd h he
    · rename_i p hp
      rw [hp] at hstep
      rw [hstep]
      constructor
      · rintro ⟨t, b, rfl, hb, hn⟩
        exact ⟨[], t, b, evs, s, rfl, rfl, hb, hn⟩
      · rintro ⟨pre, t, b, post, s', heq, hpre, hb, hn⟩
        cases pre with
        | nil =>
          injection heq with h₁ h₂
          injection hpre with hpre; injection hpre with hpre
          subst hpre
          exact ⟨t, b, h₁, hb, hn⟩
        | cons e' pre =>
          injection heq with h₁ h₂
          subst h₁
          simp [run, hp] at hpre
    · rename_i s₁ hs
      rw [hs] at hr hstep
      rw [ih (step_inv hi hs) hr]
      constructor
      · rintro ⟨pre, t, b, post, s', rfl, hpre, hb, hn⟩
        exact ⟨e :: pre, t, b, post, s', rfl, by simp [run, hs, hpre], hb, hn⟩
      · rintro ⟨pre, t, b, post, s', heq, hpre, hb, hn⟩
        cases pre with
        | nil =>
          injection heq with h₁ h₂
          injection hpre with hpre; injection hpre with hpre
          subst hpre
          exact absurd (hstep.mpr ⟨t, b, h₁, hb, hn⟩) (by simp)
        | cons e' pre =>
          injection heq with h₁ h₂
          subst h₁
          simp only [run, hs] at hpre
          exact ⟨pre, t, b, post, s', h₂, hpre, hb, hn⟩

/-- **When the log admits what it promised.** A run of any number of operations, each of which
passes at most `MAXOPBLOCKS` distinct blocks to `log_write`, ends in `too big a transaction`
exactly when one of its `log_write` calls repeats a block of its own operation while the log has
`LOGBLOCKS` blocks. -/
theorem log_full_iff (N : Nat) (evs : List (AdmEv N)) (hr : (init N).run evs ≠ none) :
    (init N).run evs = some (.error .tooBigTransaction) ↔
      ∃ pre t b post s, evs = pre ++ .logWrite t b :: post ∧ (init N).run pre = some (.ok s) ∧
        b ∈ (s.client t).wrote ∧ s.log.n = LOGBLOCKS :=
  run_tooBig_iff init_inv evs hr

/-- Three operations log ten blocks each, and the first logs its block 0 again. -/
def fullLogRun : List (AdmEv 3) :=
  [.beginOp 0, .beginOp 1, .beginOp 2] ++ (List.range 10).map (.logWrite 0 ·) ++
    (List.range 10).map (fun b => .logWrite 1 (10 + b)) ++
    (List.range 10).map (fun b => .logWrite 2 (20 + b)) ++ [.logWrite 0 0]

theorem fullLogRun_panics : (init 3).run fullLogRun = some (.error .tooBigTransaction) := by
  rfl

/-- `log_full_iff` on that run. -/
theorem fullLogRun_repeats :
    ∃ pre t b post s, fullLogRun = pre ++ .logWrite t b :: post ∧
      (init 3).run pre = some (.ok s) ∧ b ∈ (s.client t).wrote ∧ s.log.n = LOGBLOCKS :=
  (log_full_iff 3 fullLogRun (by intro h; cases h)).mp rfl

/-- **The reservation**: in every state of every run, `log.outstanding` counts the executing operations, the log has
their blocks and room for what they may still add, and an operation that commits runs alone. -/
theorem run_reserved (evs : List (AdmEv N)) (h : (init N).run evs = some (.ok s)) :
    s.log.outstanding = s.active ∧ s.log.n + s.spare ≤ LOGBLOCKS ∧ (∀ t, ∀ b ∈ (s.client t).wrote, b ∈ s.log.lh) ∧
      ∀ t, (s.client t).commits → s.active = 0 ∧ ∀ u, (s.client u).commits → t = u := by
  have hi := run_inv init_inv h
  refine ⟨hi.count, hi.room, hi.logged, fun t ht => ⟨?_, fun u => hi.one t u ht⟩⟩
  have hq := hi.quiet (hi.busy t ht)
  rw [hi.count] at hq
  exact_mod_cast hq

theorem run_reserved_full :
    ∃ s, (init 3).run fullLogRun.dropLast = some (.ok s) ∧ s.log.n + s.spare ≤ LOGBLOCKS :=
  ⟨_, rfl, (run_reserved fullLogRun.dropLast rfl).2.1⟩

end Adm

end Xv6
