import Xv6.Log.Rules

/-!
# The rules of the sections under `log.lock`

`begin_op`, `log_write` and the two sections of `end_op`, in the running system. Each has a lemma
about `LogInv` and a rule for the action.
-/

namespace Xv6

open Conc LogHist Prog
open Function (update update_eq_self update_of_ne update_self)

variable {D : LogDev} {d₀ : Nat → Block} {t : Tid} {g : LogGhost}

section

variable {r : Bool} {disk : Nat → Block} {log log' : Log} {h : List LogEv} {κ : Tid → Ctl}
  {ph : Phase}

/-- While an operation runs, no thread is in `commit()`. -/
theorem LogInv.idle_of_inOp (hi : LogInv D d₀ r disk log h κ ph) (ho : (κ t).inOp = true) : ph = .idle := by
  by_contra hne
  rw [hi.quiet hne t] at ho
  cases ho

theorem LogInv.idle_of_committing (hi : LogInv D d₀ false disk log h κ ph)
    (hc : log.committing = false) : ph = .idle := by
  by_contra hne
  rw [hi.committing.mpr ⟨rfl, hne⟩] at hc
  cases hc

/-- In the idle phase every thread is in the idle phase. -/
theorem LogInv.all_idle (hi : LogInv D d₀ r disk log h κ .idle) (u : Tid) : (κ u).phase = .idle := by
  obtain ⟨v, hv, ho⟩ := hi.coord
  by_cases e : u = v
  · rw [e]; exact hv
  · exact ho u e

/-! ## `begin_op` -/

theorem opNo_begun (u : Tid) : opNo u (.begun t :: h) = opNo u h + if t = u then 1 else 0 := rfl

theorem LogInv.begun (hi : LogInv D d₀ false disk log h κ ph) (ho : (κ t).inOp = false)
    (hb : log.beginOp = some log') :
    LogInv D d₀ false disk log' (.begun t :: h) (update κ t { κ t with inOp := true })
      ph := by
  obtain ⟨hc, -, rfl⟩ := Log.beginOp_some hb
  obtain rfl := hi.idle_of_committing hc
  obtain ⟨ops, hn, hm, hlen⟩ := hi.ops
  have hwr : ∀ u, (update κ t { κ t with inOp := true } u).wrote = (κ u).wrote :=
    update_proj Ctl.wrote rfl
  refine ⟨coord_update hi.coord rfl, hi.committing, fun hne => absurd rfl hne, ?_, hi.lh, hi.phase,
    hi.idle, fun hne => absurd rfl hne, hi.logged, hi.lhLogged, by simp only [hwr]; exact hi.rel,
    by simp only [hwr]; exact hi.wrote, fun g' hg' u hu => ?_, fun u hu => ?_, hi.noSplit,
    fun e => by cases e⟩
  · refine ⟨t :: ops, List.nodup_cons.mpr ⟨fun ht => ?_, hn⟩, fun u => ?_, ?_⟩
    · rw [(hm t).mp ht] at ho; cases ho
    · by_cases hu : u = t
      · subst hu; simp
      · rw [update_of_ne hu, List.mem_cons, hm]; simp [hu]
    · rw [List.length_cons, hlen]; rfl
  · -- the thread's older operations have smaller numbers than the one that begins
    have hold := hi.old g' hg' u hu
    rw [opNo_begun]
    refine ⟨by omega, fun hin => ?_⟩
    by_cases e : t = u.op.1
    · rw [if_pos e]; omega
    · rw [update_of_ne (Ne.symm e)] at hin
      rw [if_neg e]; exact hold.2 hin
  · have := hi.opened u hu
    rw [opNo_begun]; omega

/-! ## `log_write` -/

theorem LhOk.logWrite {L : List Nat} {b : Nat} (hL : LhOk D L) (hn : L.length < LOGBLOCKS)
    (hb : D.home b) (hlt : b < 2 ^ 32) : LhOk D (if b ∈ L then L else L ++ [b]) := by
  split
  · exact hL
  · rename_i hnot
    refine ⟨?_, by simp; omega, fun x hx => ?_, fun x hx => ?_⟩
    · rw [List.nodup_append]
      refine ⟨hL.nodup, by simp, fun x hx y hy => ?_⟩
      rw [List.mem_singleton.mp hy]
      rintro rfl
      exact hnot hx
    · rcases List.mem_append.mp hx with hx | hx
      · exact hL.home x hx
      · rw [List.mem_singleton.mp hx]; exact hb
    · rcases List.mem_append.mp hx with hx | hx
      · exact hL.lt x hx
      · rw [List.mem_singleton.mp hx]; exact hlt

theorem mem_logWrite {L : List Nat} {b x : Nat} : x ∈ (if b ∈ L then L else L ++ [b]) ↔ x = b ∨ x ∈ L := by
  split
  · rename_i hb
    constructor
    · exact .inr
    · rintro (rfl | hx)
      · exact hb
      · exact hx
  · rw [List.mem_append, List.mem_singleton, or_comm]

theorem LogInv.logged_step (hi : LogInv D d₀ false disk log h κ .idle) (ho : (κ t).inOp = true)
    {i b : Nat} {d : Block} (hb : D.home b) (hlt : b < 2 ^ 32)
    (hw : ∀ x, (κ t).wrote i = some x → x = b) {new : Bool}
    (hl : log.logWrite b = .ok (log', new)) :
    LogInv D d₀ false disk log' (.logged t b d :: h)
      (update κ t { κ t with wrote := update (κ t).wrote i (some b) }) .idle := by
  obtain ⟨hn, -, -, rfl⟩ := Log.logWrite_ok hl
  have hin : ∀ u, (update κ t
      { κ t with wrote := update (κ t).wrote i (some b) } u).inOp = (κ u).inOp :=
    update_proj Ctl.inOp rfl
  refine ⟨coord_update hi.coord rfl, hi.committing, fun hne => absurd rfl hne,
    by simp only [hin]; exact hi.ops, hi.lh.logWrite hn hb hlt, ?_, hi.idle,
    fun hne => absurd rfl hne, fun x hx => ?_, fun _ x hx => ?_, fun x => ?_, fun u j x hx => ?_,
    by simp only [hin]; exact hi.old, fun u hu => ?_, ?_, fun e => by cases e⟩
  · obtain ⟨-, hU, hB⟩ := hi.phase
    refine ⟨rfl, hU, fun x hx hnx => ?_⟩
    rw [mem_logWrite, not_or] at hnx
    rw [view_logged, update_of_ne hnx.1, base_logged]
    exact hB x hx hnx.2
  · by_cases e : b = x
    · exact e ▸ hb
    · simp only [lastLogged, if_neg e] at hx
      exact hi.logged x hx
  · by_cases e : b = x
    · simp [lastLogged, e]
    · simp only [lastLogged, if_neg e]
      exact hi.lhLogged rfl x ((mem_logWrite.mp hx).resolve_left (Ne.symm e))
  · by_cases e : b = x
    · exact .inl ⟨t, i, by simp [e]⟩
    · rcases hi.rel x with ⟨u, j, hj⟩ | hrel
      · refine .inl ⟨u, j, ?_⟩
        by_cases hu : u = t
        · subst hu
          have hji : j ≠ i := fun e' => e (hw x (e' ▸ hj)).symm
          simp [update_of_ne hji, hj]
        · rw [update_of_ne hu]; exact hj
      · refine .inr ?_
        simp only [lastReleased, lastLogged, if_neg e]
        exact hrel
  · by_cases e : b = x
    · simp [lastLogged, e]
    · simp only [lastLogged, if_neg e]
      refine hi.wrote u j x ?_
      by_cases hu : u = t
      · subst hu
        by_cases hji : j = i
        · subst hji
          simp only [update_self, Option.some.injEq] at hx
          exact absurd hx e
        · simpa [update_of_ne hji] using hx
      · rwa [update_of_ne hu] at hx
  · rcases List.mem_append.mp hu with hu | hu
    · exact hi.opened u hu
    · rw [List.mem_singleton.mp hu]; exact Nat.le_refl _
  · -- the operation runs, so none of its updates is in a closed group
    have hs := Redo.noSplit_concat.mp hi.noSplit
    refine Redo.noSplit_concat.mpr ⟨hs.1, fun g' hg' u hu v hv => ?_⟩
    rcases List.mem_append.mp hv with hv | hv
    · exact hs.2 g' hg' u hu v hv
    · rw [List.mem_singleton.mp hv]
      intro e
      have hold := hi.old g' hg' u hu
      rw [e] at hold
      exact absurd (hold.2 ho) (Nat.lt_irrefl _)

/-! ## `end_op` -/

/-- An operation that is not the last one ends. -/
theorem LogInv.ended (hi : LogInv D d₀ false disk log h κ ph) (ho : (κ t).inOp = true)
    (he : log.endOp = .ok (log', false)) :
    LogInv D d₀ false disk log' (.ended t false :: h)
      (update κ t { κ t with inOp := false }) ph := by
  obtain ⟨hc, -, rfl⟩ := Log.endOp_ok he
  obtain rfl := hi.idle_of_inOp ho
  obtain ⟨ops, hn, hm, hlen⟩ := hi.ops
  have hwr : ∀ u, (update κ t { κ t with inOp := false } u).wrote = (κ u).wrote :=
    update_proj Ctl.wrote rfl
  refine ⟨coord_update hi.coord rfl, ?_, fun hne => absurd rfl hne, ?_, hi.lh, hi.phase,
    hi.idle, fun hne => absurd rfl hne, hi.logged, hi.lhLogged, by simp only [hwr]; exact hi.rel,
    by simp only [hwr]; exact hi.wrote, fun g' hg' u hu => ?_, hi.opened, hi.noSplit,
    fun e => by cases e⟩
  · simp
  · have ht : t ∈ ops := (hm t).mpr ho
    refine ⟨ops.erase t, hn.erase t, fun u => ?_, ?_⟩
    · rw [hn.mem_erase_iff]
      by_cases hu : u = t
      · subst hu; simp
      · rw [update_of_ne hu, hm]; simp [hu]
    · have := List.length_erase_of_mem ht
      have := List.length_pos_of_mem ht
      simp only [hlen]; omega
  · refine ⟨(hi.old g' hg' u hu).1, fun hin => ?_⟩
    by_cases e : u.op.1 = t
    · rw [e] at hin; simp at hin
    · rw [update_of_ne e] at hin
      exact (hi.old g' hg' u hu).2 hin

/-- The last operation ends: its group is closed, and the thread goes to `commit()`. -/
theorem LogInv.closing (hi : LogInv D d₀ false disk log h κ ph) (ho : (κ t).inOp = true)
    (he : log.endOp = .ok (log', true)) :
    LogInv D d₀ false disk log' (.ended t true :: h)
      (update κ t { κ t with inOp := false, phase := .writing (view d₀ h) log.lh 0 })
      (.writing (view d₀ h) log.lh 0) := by
  obtain ⟨hc, hone, rfl⟩ := Log.endOp_ok he
  obtain rfl := hi.idle_of_inOp ho
  obtain ⟨ops, hn, hm, hlen⟩ := hi.ops
  -- the thread was the only one in an operation
  have hops : ops = [t] := by
    have h1 : ops.length = 1 := by have := hone.mp rfl; omega
    obtain ⟨x, rfl⟩ := List.length_eq_one_iff.mp h1
    rw [List.mem_singleton.mp ((hm t).mpr ho)]
  have hquiet : ∀ u, u ≠ t → (κ u).inOp = false := fun u hu => by
    have : u ∉ ops := by rw [hops]; simpa using hu
    rw [hm] at this
    simpa using this
  have hin : ∀ u, (update κ t
      { κ t with inOp := false, phase := .writing (view d₀ h) log.lh 0 } u).inOp = false := fun u => by
    by_cases hu : u = t
    · subst hu; simp
    · rw [update_of_ne hu]; exact hquiet u hu
  have hwr : ∀ u, (update κ t
      { κ t with inOp := false, phase := .writing (view d₀ h) log.lh 0 } u).wrote = (κ u).wrote :=
    update_proj Ctl.wrote rfl
  have hidle := hi.idle rfl
  obtain ⟨-, hU, hB⟩ := hi.phase
  have hbase : base d₀ (.ended t true :: h) = base d₀ h := base_ended (by omega)
  refine ⟨⟨t, by simp, fun u hu => ?_⟩, ?_, fun _ => hin, ?_, hi.lh, ?_, fun e => (by cases e),
    fun _ => ⟨rfl, fun _ => ?_⟩, hi.logged, hi.lhLogged, by simp only [hwr]; exact hi.rel,
    by simp only [hwr]; exact hi.wrote, fun g' hg' u hu => ⟨?_, fun h' => ?_⟩, fun u hu => (by cases hu),
    ?_, fun e => by cases e⟩
  · rw [update_of_ne hu]; exact hi.all_idle u
  · simp
  · refine ⟨[], List.nodup_nil, fun u => by simp [hin], ?_⟩
    have := hone.mp rfl
    simp only [List.length_nil]; omega
  · refine ⟨rfl, rfl, fun b _ => by rw [view_ended], by rw [hbase]; exact hU,
      by rw [hbase]; exact hB, Nat.zero_le _, fun j hj => absurd hj (Nat.not_lt_zero j)⟩
  · simp only [closed, commits, List.length_append, List.length_singleton]; omega
  · rcases List.mem_append.mp hg' with hg' | hg'
    · exact (hi.old g' hg' u hu).1
    · rw [List.mem_singleton.mp hg'] at hu; exact hi.opened u hu
  · rw [hin] at h'; cases h'
  · exact Redo.noSplit_concat.mpr ⟨hi.noSplit, fun _ _ _ _ v hv => by cases hv⟩

/-- `commit()` has returned. -/
theorem LogInv.committed_step (hi : LogInv D d₀ false disk log h κ ph) (ht : (κ t).phase = ph)
    (hne : ph ≠ .idle) (hU : Unchanged D disk (view d₀ h)) :
    LogInv D d₀ false disk log.endCommit (.committed t :: h)
      (update κ t { κ t with phase := .idle }) .idle := by
  obtain ⟨hopen, hclosed⟩ := hi.busy hne
  have hclosed := hclosed rfl
  have hin : ∀ u, (update κ t { κ t with phase := .idle } u).inOp = (κ u).inOp :=
    update_proj Ctl.inOp rfl
  have hwr : ∀ u, (update κ t { κ t with phase := .idle } u).wrote = (κ u).wrote :=
    update_proj Ctl.wrote rfl
  have hbase : base d₀ (.committed t :: h) = view d₀ h := base_committed hclosed hopen
  refine ⟨⟨t, by simp, fun u hu => ?_⟩, ?_, fun hne => absurd rfl hne,
    by simp only [hin]; exact hi.ops, hi.lh, ⟨rfl, ?_, fun b _ _ => ?_⟩, fun _ => ?_,
    fun hne => absurd rfl hne, hi.logged, hi.lhLogged, by simp only [hwr]; exact hi.rel,
    by simp only [hwr]; exact hi.wrote, by simp only [hin]; exact hi.old, hi.opened, hi.noSplit,
    fun e => by cases e⟩
  · rw [update_of_ne hu]
    obtain ⟨v, hv, ho⟩ := hi.coord
    have : t = v := by
      by_contra e
      exact hne (ht.symm.trans (ho t e))
    exact ho u (this ▸ hu)
  · simp [Log.endCommit]
  · rw [hbase]; exact hU
  · rw [hbase, view_committed]
  · simp only [closed, commits]; omega

end

/-! ## The actions -/

theorem safe_beginOp {Q : Unit → LogGhost → Prop} (ho : g.inOp = false)
    (hQ : Q () { g with inOp := true }) :
    (call .beginOp).Safe (logLogic D d₀ false) t Q g := by
  refine Safe.call fun s γ hi hg => ⟨trivial, fun b s' he => ?_⟩
  obtain ⟨ph, hL, hc⟩ := hi
  have he' : logExec t .beginOp s = some (.ok (b, s')) := he
  simp only [logExec] at he'
  cases hb : s.log.beginOp with
  | none => rw [hb] at he'; cases he'
  | some l =>
    rw [hb] at he'
    cases he'
    have hlh : l.lh = s.log.lh := by rw [(Log.beginOp_some hb).2.2]
    refine ⟨_, ⟨ph, ?_, ?_⟩, hQ⟩
    · rw [ctl_update, ← hg]
      exact hL.begun (t := t) (by show (γ t).inOp = false; rw [hg]; exact ho) hb
    · rw [hold_update, ← hg, show (γ t).hold = (fun u => (γ u).hold) t from rfl,
        update_eq_self]
      simp only [hlh]
      exact hc

theorem safe_logWrite {i : Nat} {l : Lk} {Q : Unit → LogGhost → Prop} (ho : g.inOp = true)
    (hl : g.hold.locks i = some l) (hv : l.valid = true) (hb : D.home l.b)
    (hQ : Q () { g with
      hold := g.hold.setLock i (some { l with dirty := none, wrote := true }) }) :
    (call (.logWrite i)).Safe (logLogic D d₀ false) t Q g := by
  refine Safe.call fun s γ hi hg => ⟨trivial, fun x s' he => ?_⟩
  obtain ⟨ph, hL, hc⟩ := hi
  have he' : logExec t (.logWrite i) s = some (.ok (x, s')) := he
  have hl' : (γ t).hold.locks i = some l := by rw [hg]; exact hl
  have hk := hc.lkOk (t := t) hl'
  have hbn : (s.buf i).blockno = l.b := hk.blockno
  have ho' : ((γ t).ctl).inOp = true := by show (γ t).inOp = true; rw [hg]; exact ho
  obtain rfl := hL.idle_of_inOp (t := t) ho'
  simp only [logExec, hbn] at he'
  cases hw : s.log.logWrite l.b with
  | error p => rw [hw] at he'; cases he'
  | ok y =>
    obtain ⟨log', new⟩ := y
    rw [hw] at he'
    cases he'
    obtain ⟨-, -, hnew, hlog⟩ := Log.logWrite_ok hw
    refine ⟨_, ⟨.idle, ?_, ?_⟩, hQ⟩
    · have hctl : (fun u => (update γ t { g with
          hold := g.hold.setLock i (some { l with dirty := none, wrote := true }) } u).ctl) =
          update (fun u => (γ u).ctl) t
            { (γ t).ctl with wrote := update (γ t).ctl.wrote i (some l.b) } := by
        rw [ctl_update, hg]
        congr 1
        simp only [LogGhost.ctl, Hold.setLock, Ctl.mk.injEq, true_and]
        funext j
        by_cases hj : j = i
        · subst hj; simp [Lk.wroteBlock]
        · simp [update_of_ne hj]
      rw [hctl]
      refine hL.logged_step (t := t) (i := i) ho' hb hk.lt (fun x hx => ?_) hw
      simp only [LogGhost.ctl, hl', Option.bind_some, Lk.wroteBlock] at hx
      split at hx
      · exact (Option.some.inj hx).symm
      · cases hx
    · rw [hold_update, ← hg]
      refine hc.logWrite (t := t) hl' hv hnew (fun x hx => ?_) ?_ fun x => ?_
      · simp only [cur, view_logged, update_of_ne hx]
      · rw [cur_home hb, view_logged, update_self]; rfl
      · simp only [pinned, hlog]; exact mem_logWrite

theorem safe_endOp {Q : Bool → LogGhost → Prop} (ho : g.inOp = true)
    (hQ : Q false { g with inOp := false })
    (hQ' : ∀ V L, Q true { g with inOp := false, phase := .writing V L 0 }) :
    (call .endOp).Safe (logLogic D d₀ false) t Q g := by
  refine Safe.call fun s γ hi hg => ⟨trivial, fun x s' he => ?_⟩
  obtain ⟨ph, hL, hc⟩ := hi
  have he' : logExec t .endOp s = some (.ok (x, s')) := he
  have ho' : ((γ t).ctl).inOp = true := by show (γ t).inOp = true; rw [hg]; exact ho
  have hhold : update (fun u => (γ u).hold) t g.hold = fun u => (γ u).hold := by
    rw [← hg, show (γ t).hold = (fun u => (γ u).hold) t from rfl, update_eq_self]
  simp only [logExec] at he'
  cases hw : s.log.endOp with
  | error p => rw [hw] at he'; cases he'
  | ok y =>
    obtain ⟨log', last⟩ := y
    rw [hw] at he'
    cases he'
    have hlh : log'.lh = s.log.lh := by rw [(Log.endOp_ok hw).2.2]
    obtain rfl := hL.idle_of_inOp (t := t) ho'
    cases x with
    | false =>
      refine ⟨_, ⟨.idle, ?_, ?_⟩, hQ⟩
      · rw [ctl_update, ← hg]; exact hL.ended (t := t) ho' hw
      · rw [hold_update, hhold]
        simp only [hlh]
        exact hc
    | true =>
      refine ⟨_, ⟨.writing (view d₀ s.hist) s.log.lh 0, ?_, ?_⟩, hQ' (view d₀ s.hist) s.log.lh⟩
      · rw [ctl_update, ← hg]; exact hL.closing (t := t) ho' hw
      · have hcur : cur D d₀ false s.disk (.ended t true :: s.hist) = cur D d₀ false s.disk s.hist := by
          funext b
          simp only [cur, view_ended]
        rw [hold_update, hhold]
        simp only [hcur]
        exact hc

theorem safe_endCommit {Q : Unit → LogGhost → Prop} {V : Nat → Block}
    (hp : g.phase = .done V ∨ g.phase = .writing V [] 0) (hQ : Q () { g with phase := .idle }) :
    (call .endCommit).Safe (logLogic D d₀ false) t Q g := by
  refine Safe.call fun s γ hi hg => ⟨trivial, fun x s' he => ?_⟩
  obtain ⟨ph, hL, hc⟩ := hi
  cases he
  have hne : g.phase ≠ .idle := by rcases hp with hp | hp <;> rw [hp] <;> simp
  have hpe := hL.phase_of hg rfl hne
  subst hpe
  -- in both cases the log is empty and the home blocks hold the view
  have hdone : s.log.lh = [] ∧ Unchanged D s.disk (view d₀ s.hist) := by
    have hok := hL.phase
    rcases hp with hp | hp <;> rw [hp] at hok
    · obtain ⟨hlh, hV, hU⟩ := hok
      exact ⟨hlh, hU.head, fun b hb => by rw [hU.home b hb, hV b hb]⟩
    · obtain ⟨-, hlh, hV, hU, hB, -⟩ := hok
      exact ⟨hlh, hU.head, fun b hb => by rw [hU.home b hb, hV b hb, hB b hb (by simp)]⟩
  refine ⟨_, ⟨.idle, ?_, ?_⟩, hQ⟩
  · rw [ctl_setPhase _ hg]
    exact hL.committed_step (t := t) (by show (γ t).phase = _; rw [hg]) hne hdone.2
  · have hpin : pinned false s.log.lh g.phase = [] := by
      rcases hp with hp | hp <;> rw [hp] <;> rfl
    rw [hold_update, ← hg, show (γ t).hold = (fun u => (γ u).hold) t from rfl,
      update_eq_self]
    simp only [pinned, Log.endCommit, hdone.1]
    rw [hpin] at hc
    exact hc

end Xv6
