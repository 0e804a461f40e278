import Xv6.Conc.Only
import Xv6.Kern.Code

/-!
# The actions of `sleep`, `wakeup` and `killed`

Most functions call these three. `WakeAct`, `SleepAct` and `KilledAct` are the actions that they
take in process `t`; an invariant that these actions keep is kept by the functions.
-/

namespace Xv6.Kern

open Conc Prog

/-- `myproc` answers the thread's own process. -/
def answers (t : Nat) : ∀ ⦃β : Type⦄, Act β → β → Prop
  | _, .myproc, b => b = t
  | _, _, _ => True

/-- The actions of `wakeup(chan)` in process `t`. -/
inductive WakeAct (t : Nat) (chan : Chan) : ∀ ⦃β : Type⦄, Act β → Prop where
  | myproc : WakeAct t chan .myproc
  | waking : WakeAct t chan (.waking t chan)
  | acquire (q : Nat) (h : q ≠ t) : WakeAct t chan (.acquire (.proc q))
  | wake (q : Nat) (h : q ≠ t) : WakeAct t chan (.wake q chan)
  | release (q : Nat) (h : q ≠ t) : WakeAct t chan (.release (.proc q))
  | woke : WakeAct t chan (.woke chan)

/-- The actions of `sleep(chan, lk)` in process `t`. -/
inductive SleepAct (t : Nat) (chan : Chan) (lk : Lk) : ∀ ⦃β : Type⦄, Act β → Prop where
  | myproc : SleepAct t chan lk .myproc
  | acquireProc : SleepAct t chan lk (.acquire (.proc t))
  | release : SleepAct t chan lk (.release lk)
  | setSleeping : SleepAct t chan lk (.setSleeping t chan)
  | schedOut : SleepAct t chan lk (.schedOut t)
  | schedIn : SleepAct t chan lk (.schedIn t)
  | clearChan : SleepAct t chan lk (.clearChan t)
  | releaseProc : SleepAct t chan lk (.release (.proc t))
  | acquire : SleepAct t chan lk (.acquire lk)
  | slept : SleepAct t chan lk (.slept t lk)

/-- The actions of `killed(p)` in process `t`. -/
inductive KilledAct (t : Nat) : ∀ ⦃β : Type⦄, Act β → Prop where
  | acquire : KilledAct t (.acquire (.proc t))
  | getKilled : KilledAct t (.getKilled t)
  | release : KilledAct t (.release (.proc t))

variable {t : Nat} {φ : ∀ ⦃β : Type⦄, Act β → Prop}

theorem wakeOne_only {chan : Chan} (h : ∀ ⦃β : Type⦄ (a : Act β), WakeAct t chan a → φ a) (q : Nat) :
    (Code.wakeOne t chan q).Only φ (answers t) := by
  unfold Code.wakeOne
  split
  · rename_i hq
    refine Only.step (h _ (.acquire q hq)) fun _ _ => Only.step (h _ (.wake q hq)) fun _ _ => ?_
    exact only_call.mpr (h _ (.release q hq))
  · trivial

theorem wakeup_only {chan : Chan} (h : ∀ ⦃β : Type⦄ (a : Act β), WakeAct t chan a → φ a) :
    (Code.wakeup chan).Only φ (answers t) := by
  refine Only.step (h _ .myproc) ?_
  rintro p rfl
  refine Only.step (h _ .waking) fun _ _ => ?_
  exact Only.bind (Only.each fun q _ => wakeOne_only h q) fun _ => only_call.mpr (h _ .woke)

theorem sleep_only {chan : Chan} {lk : Lk} (h : ∀ ⦃β : Type⦄ (a : Act β), SleepAct t chan lk a → φ a) :
    (Code.sleep chan lk).Only φ (answers t) := by
  refine Only.step (h _ .myproc) ?_
  rintro p rfl
  refine Only.step (h _ .acquireProc) fun _ _ => Only.step (h _ .release) fun _ _ => ?_
  refine Only.step (h _ .setSleeping) fun _ _ => Only.bind ?_ fun _ => ?_
  · exact Only.step (h _ .schedOut) fun _ _ => only_call.mpr (h _ .schedIn)
  · refine Only.step (h _ .clearChan) fun _ _ => Only.step (h _ .releaseProc) fun _ _ => ?_
    exact Only.step (h _ .acquire) fun _ _ => only_call.mpr (h _ .slept)

theorem killed_only (h : ∀ ⦃β : Type⦄ (a : Act β), KilledAct t a → φ a) : (Code.killed t).Only φ (answers t) := by
  refine Only.step (h _ .acquire) fun _ _ => Only.step (h _ .getKilled) fun _ _ => ?_
  exact Only.step (h _ .release) fun _ _ => trivial

/-- Where no condition is on the actions, and where one is. -/
theorem execIf_exec {ok : Cond} ⦃β : Type⦄ (t : Tid) (a : Act β) (s : St)
    (r : Except Panic (β × St)) (h : execIf ok t a s = some r) : exec t a s = some r := by
  unfold execIf at h
  split at h
  · exact h
  · cases h

theorem execIf_ok {ok : Cond} ⦃β : Type⦄ {t : Tid} {a : Act β} {s : St}
    {r : Except Panic (β × St)} (h : execIf ok t a s = some r) : ok t a s = true := by
  unfold execIf at h
  split at h
  · assumption
  · cases h

/-- A thread that runs alone takes an action. -/
theorem run_call {α β : Type} {a : Act β} {f : β → Prog Act α} {s : St} (hc : a.check t s = some (.ok ())) :
    (call a >>= f).run exec t s = (f (a.answer t s)).run exec t (a.effect t s) := by
  have he : exec t a s = some (.ok (a.answer t s, a.effect t s)) := by
    unfold exec
    rw [hc]
  rw [call_bind, run_act, he]
  rfl

/-- The rule for an action, where a condition is on the actions. -/
theorem actIf_safe {G α β : Type} {L : Logic Act St Panic G} {ok : Cond} (hL : L.exec = execIf ok)
    {Q : α → G → Prop} {g : G} {a : Act β} {f : β → Prog Act α}
    (h : ∀ s γ, L.inv s γ → γ t = g → L.pre t a s ∧ (ok t a s = true → a.check t s = some (.ok ()) →
      ∃ g', L.inv (a.effect t s) (Function.update γ t g') ∧ (f (a.answer t s)).Safe L t Q g')) :
    (call a >>= f).Safe L t Q g := by
  intro s γ hi hg
  refine ⟨(h s γ hi hg).1, fun b s' he => ?_⟩
  rw [hL] at he
  have hok := execIf_ok he
  obtain ⟨hc, rfl, rfl⟩ := exec_ok (execIf_exec _ _ _ _ he)
  exact (h s γ hi hg).2 hok hc

/-- The rule for an action of the machine. -/
theorem act_safe {G α β : Type} {L : Logic Act St Panic G} (hL : L.exec = exec) {Q : α → G → Prop} {g : G}
    {a : Act β} {f : β → Prog Act α}
    (h : ∀ s γ, L.inv s γ → γ t = g → L.pre t a s ∧ (a.check t s = some (.ok ()) →
      ∃ g', L.inv (a.effect t s) (Function.update γ t g') ∧ (f (a.answer t s)).Safe L t Q g')) :
    (call a >>= f).Safe L t Q g :=
  actIf_safe (show L.exec = execIf fun _ _ _ _ => true from hL) fun s γ hi hg =>
    ⟨(h s γ hi hg).1, fun _ => (h s γ hi hg).2⟩

end Xv6.Kern
