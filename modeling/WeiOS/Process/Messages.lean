import Mathlib
import WeiOS.Process.SchedRuns

/-!
# Messages

A process that calls `ipc_recv` raises its flag `ipc_recving` and sleeps on `sleep_alone`; a sender that
finds the flag raised leaves a message in the descriptor, lowers the flag and wakes the receiver up.
`ipc_recv` does not look at the flag when it wakes up. The list `sleep_alone` serves `wait` as well, and
`kill` wakes any sleeper, so there are other ways to wake up.

An inbox is added to the machine: what has been sent to a process that its `ipc_recv` has not returned
for. Each message is delivered exactly once in the runs in which `ipc_recv` wakes up by a message, and in
which no receiver ends between its lookup by the sender and the delivery.

## Main results
- `mail_of_run`: exactly-once delivery.
- `recv_without_send`: a run in which `ipc_recv` returns and nobody has sent anything.
-/

namespace WeiOS.Sched

open WeiOS.Lib

/-! ## §1 The inbox -/

structure Message where
  value : Nat
  sender : Nat
  perm : Nat
  deriving DecidableEq, Repr

/-- The message that a process finds in its descriptor. -/
def Proc.message (P : Proc) : Message := ⟨P.ipcValue, P.ipcFrom, P.ipcPerm⟩

/-- A call of `ipc_try_send` that has returned 0: the pid that was asked for, the process that was found,
    and the message. -/
structure Posted where
  pid : Nat
  receiver : Nat
  message : Message
  deriving DecidableEq, Repr

/-- What a step posts. -/
def posted (s : Sys) (o : Op) : Option Posted :=
  match s.mode, o with
  | .process p, .ipcTrySend value srcva perm pg =>
    match s.conts p with
    | .ipcSend pid receiver =>
      match ipcTrySend s p receiver value srcva perm pg with
      | .ok (_, 0) =>
        let page := (s.procs receiver).ipcDstva < Paging.UTOP ∧ srcva < Paging.UTOP
        some ⟨pid, receiver, ⟨value, (s.procs p).pid, if page then perm else 0⟩⟩
      | _ => none
    | _ => none
  | _, _ => none

/-- The descriptor belongs to the process with this pid. -/
def Named (procs : Nat → Proc) (pid y : Nat) : Prop :=
  (procs y).pid = pid ∧ (procs y).status ≠ .free

instance (procs : Nat → Proc) (pid y : Nat) : Decidable (Named procs pid y) :=
  inferInstanceAs (Decidable (_ ∧ _))

/-- The machine with inboxes. -/
structure Mail where
  sys : Sys
  inbox : Nat → Option Message

/-- An inbox is empty when `ipc_recv` begins and when it returns; in between it takes what was sent to
    the process. -/
def newInbox (s : Sys) (o : Op) (inbox : Nat → Option Message) : Nat → Option Message :=
  match s.mode, o with
  | .process p, .ipcRecv _ => Function.update inbox p none
  | .process p, .ipcRecvReturn => Function.update inbox p none
  | .process _, .ipcTrySend .. =>
    match posted s o with
    | some m => Function.update inbox m.receiver
        (if Named s.procs m.pid m.receiver then some m.message else none)
    | none => inbox
  | _, _ => inbox

def mailStep (m : Mail) (o : Op) : Except Fault Mail := do
  let s ← step m.sys o
  return ⟨s, newInbox m.sys o m.inbox⟩

/-- `ipc_recv` returns after a message only, and a message is delivered to the process that it was
    meant for. -/
def Direct (m : Mail) (o : Op) : Prop :=
  match m.sys.mode, o with
  | .process p, .ipcRecvReturn => (m.sys.procs p).ipcRecving = false
  | .process p, .ipcTrySend .. =>
    match m.sys.conts p with
    | .ipcSend pid receiver =>
      (m.sys.procs receiver).ipcRecving = true → Named m.sys.procs pid receiver
    | _ => True
  | _, _ => True

instance (m : Mail) (o : Op) : Decidable (Direct m o) := by
  unfold Direct
  split
  · infer_instance
  · split
    · infer_instance
    · infer_instance
  · infer_instance

/-! ## §2 The invariant -/

/-- Outside of `ipc_recv` the flag is down and the inbox is empty; inside, the flag is up until a message
    is there. -/
structure MailInv (a : Abs) (inbox : Nat → Option Message) : Prop where
  alive : ∀ y, a.cont y = .ipcRecv → (a.procs y).status ≠ .free ∧ (a.procs y).status ≠ .zomble
  outside : ∀ y, a.cont y ≠ .ipcRecv → (a.procs y).ipcRecving = false ∧ inbox y = none
  inside : ∀ y, a.cont y = .ipcRecv →
    inbox y = if (a.procs y).ipcRecving then none else some (a.procs y).message

section
variable {s s' : Sys} {xs xs' : Head → List Nat} {a b : Abs} {p y : Nat} {o : Op}
  {inbox : Nat → Option Message}

/-- A process whose flag is up has no message. -/
theorem MailInv.empty (hi : MailInv a inbox) (hy : (a.procs y).ipcRecving = true) :
    inbox y = none := by
  by_cases hc : a.cont y = .ipcRecv
  · rw [hi.inside y hc, if_pos hy]
  · exact (hi.outside y hc).2

/-- The calls that the inboxes do not follow. -/
theorem MailInv.other (hi : MailInv a inbox) (hstep : AStep a o b) (hrecv : ∀ d, o ≠ .ipcRecv d)
    (hret : o ≠ .ipcRecvReturn) (hsend : ∀ v sv pm pg, o ≠ .ipcTrySend v sv pm pg) :
    MailInv b inbox := by
  obtain ⟨halive, hout, hin⟩ := hi
  cases hstep with
  | @wakeup c W _ hW h =>
    rw [h.rest]
    have hsame : ∀ y, (b.procs y).ipcRecving = (a.procs y).ipcRecving ∧
        (b.procs y).message = (a.procs y).message ∧
        ((b.procs y).status = .runnable ∨ (b.procs y).status = (a.procs y).status) := by
      intro y
      by_cases hw : W y
      · simp [(h.woken y hw).2, Proc.message]
      · simp [h.other y hw]
    constructor
    all_goals
      intro y hy
      have := hsame y
      grind
  | @exit p hp hc hr =>
    constructor
    all_goals
      intro y hy
      obtain ⟨_, _, hfam, _⟩ := a.handOver_procs p y
      grind [Proc.message]
  | @reap p c hp hc hz =>
    constructor
    all_goals grind [Proc.message, Abs.zombies]
  | recv | recvBad => exact absurd rfl (hrecv _)
  | send | sendFail => exact absurd rfl (hsend _ _ _ _)
  | recvReturn => exact absurd rfl hret
  | _ =>
    constructor
    all_goals grind [Proc.message, Proc.zero]

/-- `ipc_recv` begins. -/
theorem MailInv.recv (hi : MailInv a inbox) {dstva : Nat} (hp : a.mode = .process p)
    (hstep : AStep a (.ipcRecv dstva) b) : MailInv b (Function.update inbox p none) := by
  obtain ⟨halive, hout, hin⟩ := hi
  cases hstep with
  | recvBad hp' hc hbad =>
    constructor
    all_goals grind [Function.update_apply]
  | recv hp' hc hgood =>
    constructor
    all_goals grind [Function.update_apply]

/-- `ipc_recv` returns, with the message that is in the inbox. -/
theorem MailInv.ret (hi : MailInv a inbox) (hp : a.mode = .process p)
    (hflag : (a.procs p).ipcRecving = false) (hstep : AStep a .ipcRecvReturn b) :
    MailInv b (Function.update inbox p none) ∧ inbox p = some (b.procs p).message := by
  obtain ⟨halive, hout, hin⟩ := hi
  cases hstep with
  | recvReturn hp' hc =>
    obtain rfl := Mode.process.inj (hp.symm.trans hp')
    refine ⟨⟨?_, ?_, ?_⟩, ?_⟩
    · grind
    · grind [Function.update_apply]
    · grind [Function.update_apply]
    · simpa [hflag] using hin p hc

/-- A message is delivered. -/
theorem MailInv.send (hi : MailInv a inbox) {t value ipcPerm : Nat} (hc : a.cont p ≠ .ipcRecv) (hrecv : (a.procs t).ipcRecving = true) :
    MailInv (((a.setProc t fun P => { P with
        ipcPerm := ipcPerm
        ipcRecving := false
        ipcFrom := (a.procs p).pid
        ipcValue := value }).wakeAlone t).goto p .run)
      (Function.update inbox t (some ⟨value, (a.procs p).pid, ipcPerm⟩)) := by
  obtain ⟨halive, hout, hin⟩ := hi
  constructor
  all_goals grind [Function.update_apply, Proc.message]

/-- A call that fails leaves all as it is. -/
theorem MailInv.sendFail (hi : MailInv a inbox) (hc : a.cont p ≠ .ipcRecv) :
    MailInv (a.goto p .run) inbox := by
  obtain ⟨halive, hout, hin⟩ := hi
  constructor
  all_goals grind

/-! ## §3 Sending -/

theorem sendPage_ok {dstva srcva perm ipcPerm : Nat} {pg : PageResults}
    (h : sendPage dstva srcva perm pg = .ok ipcPerm) :
    ipcPerm = if dstva < Paging.UTOP ∧ srcva < Paging.UTOP then perm else 0 := by
  unfold sendPage at h
  split_ifs at h with hpage
  · rw [if_pos hpage]
    exact (Except.ok.inj h).symm
  · rw [if_neg hpage]
    exact (Except.ok.inj h).symm

theorem sendPage_error {dstva srcva perm : Nat} {pg : PageResults} {e : Int}
    (h : sendPage dstva srcva perm pg = .error e) : e ≠ 0 := by
  unfold sendPage at h
  split_ifs at h
  all_goals
    obtain rfl := Except.error.inj h
    decide

/-- What the locked section of `ipc_try_send` returns, and what it posts. -/
theorem ipcTrySend_cases (hp : s.mode = .process p) {pid t value srcva perm : Nat} {pg : PageResults}
    (hc : s.conts p = .ipcSend pid t)
    (hstep : step s (.ipcTrySend value srcva perm pg) = .ok s') :
    (posted s (.ipcTrySend value srcva perm pg) = none ∧ s'.procs = s.procs ∧
      ((s.procs t).ipcRecving = true → ∃ e, sendPage (s.procs t).ipcDstva srcva perm pg = .error e)) ∨
    (s.procs t).ipcRecving = true ∧ ∃ ipcPerm,
      sendPage (s.procs t).ipcDstva srcva perm pg = .ok ipcPerm ∧
      posted s (.ipcTrySend value srcva perm pg) =
        some ⟨pid, t, ⟨value, (s.procs p).pid, ipcPerm⟩⟩ := by
  have hsend : ∃ r, ipcTrySend s p t value srcva perm pg = .ok (s', r) := by
    unfold step at hstep
    rw [hp] at hstep
    dsimp only at hstep
    rw [hc] at hstep
    obtain ⟨⟨u, r⟩, hcall, hret⟩ := bind_eq_ok.1 hstep
    obtain rfl := Except.ok.inj hret
    exact ⟨r, hcall⟩
  obtain ⟨r, hcall⟩ := hsend
  have hpost : posted s (.ipcTrySend value srcva perm pg) = if r = 0 then
      some ⟨pid, t, ⟨value, (s.procs p).pid,
        if (s.procs t).ipcDstva < Paging.UTOP ∧ srcva < Paging.UTOP then perm else 0⟩⟩
      else none := by
    simp only [posted, hp, hc, hcall]
    split
    · next h =>
      obtain ⟨_, rfl⟩ := Prod.mk.inj (Except.ok.inj h)
      simp
    · next h =>
      have hr : r ≠ 0 := by
        rintro rfl
        exact h _ rfl
      rw [if_neg hr]
  unfold ipcTrySend at hcall
  split at hcall
  · next hnot =>
    left
    obtain ⟨rfl, rfl⟩ := Prod.mk.inj (Except.ok.inj hcall)
    have hnot' : (s.procs t).ipcRecving = false := by simpa using hnot
    refine ⟨?_, rfl, fun hr => absurd (hnot'.symm.trans hr) (by simp)⟩
    rw [hpost]
    rfl
  next hrecv =>
  split at hcall
  · next e hbad =>
    left
    obtain ⟨rfl, rfl⟩ := Prod.mk.inj (Except.ok.inj hcall)
    refine ⟨?_, rfl, fun _ => ⟨e, hbad⟩⟩
    rw [hpost, if_neg (sendPage_error hbad)]
  · next ipcPerm hperm =>
    right
    obtain ⟨u, _, hret⟩ := bind_eq_ok.1 hcall
    obtain ⟨_, rfl⟩ := Prod.mk.inj (Except.ok.inj hret)
    refine ⟨by simpa using hrecv, ipcPerm, hperm, ?_⟩
    rw [hpost, if_pos rfl, sendPage_ok hperm]

/-! ## §4 Runs -/

/-- What a step must leave of the promises about messages. -/
structure MailOk (m : Mail) (o : Op) (m' : Mail) : Prop where
  /-- `ipc_recv` returns for a message, and leaves that message. -/
  returns : ∀ p, m.sys.mode = .process p → o = .ipcRecvReturn →
    m.inbox p = some (m'.sys.procs p).message
  /-- Nothing is overwritten that `ipc_recv` has not returned for. -/
  once : ∀ msg, posted m.sys o = some msg → m.inbox msg.receiver = none
  /-- A call that fails changes no process. -/
  failed : ∀ value srcva perm pg, o = .ipcTrySend value srcva perm pg → posted m.sys o = none →
    m'.sys.procs = m.sys.procs
  lookup : ∀ pid, o = .ipcLookup pid → m'.sys.procs = m.sys.procs

theorem AStep.recv_mode {dstva : Nat} (hstep : AStep a (.ipcRecv dstva) b) :
    ∃ p, a.mode = .process p := by
  cases hstep with
  | recvBad hp => exact ⟨_, hp⟩
  | recv hp => exact ⟨_, hp⟩

theorem AStep.ret_mode (hstep : AStep a .ipcRecvReturn b) : ∃ p, a.mode = .process p := by
  cases hstep with
  | recvReturn hp => exact ⟨_, hp⟩

theorem AStep.trySend {value srcva perm : Nat} {pg : PageResults}
    (hstep : AStep a (.ipcTrySend value srcva perm pg) b) :
    ∃ p pid t, a.mode = .process p ∧ a.cont p = .ipcSend pid t ∧
      (((a.procs t).ipcRecving = true → ∃ e, sendPage (a.procs t).ipcDstva srcva perm pg = .error e) ∧
          b = a.goto p .run ∨
        ∃ ipcPerm, (a.procs t).ipcRecving = true ∧
          sendPage (a.procs t).ipcDstva srcva perm pg = .ok ipcPerm ∧
          b = ((a.setProc t fun P => { P with
            ipcPerm := ipcPerm
            ipcRecving := false
            ipcFrom := (a.procs p).pid
            ipcValue := value }).wakeAlone t).goto p .run) := by
  cases hstep with
  | sendFail hp hc hfail => exact ⟨_, _, _, hp, hc, Or.inl ⟨hfail, rfl⟩⟩
  | send hp hc hrecv hperm => exact ⟨_, _, _, hp, hc, Or.inr ⟨_, hrecv, hperm, rfl⟩⟩

/-- **A message is posted** at most when the inbox is empty, and the invariant is kept. -/
theorem mailSend_step {m : Mail} {value srcva perm : Nat} {pg : PageResults} (hi : Inv m.sys xs)
    (hm : MailInv m.sys.abs m.inbox) (hC : Direct m (.ipcTrySend value srcva perm pg))
    (hstep : step m.sys (.ipcTrySend value srcva perm pg) = .ok s') :
    (∀ msg, posted m.sys (.ipcTrySend value srcva perm pg) = some msg →
      m.inbox msg.receiver = none) ∧
    (posted m.sys (.ipcTrySend value srcva perm pg) = none → s'.procs = m.sys.procs) ∧
    MailInv s'.abs (newInbox m.sys (.ipcTrySend value srcva perm pg) m.inbox) := by
  obtain ⟨_, _, habs⟩ := step_refines hi hstep
  obtain ⟨p, pid, t, hp, hc, hb⟩ := habs.trySend
  have hps : m.sys.mode = .process p := hp
  have hcs : m.sys.conts p = .ipcSend pid t := hc
  have hnot : m.sys.abs.cont p ≠ .ipcRecv := by simp [hc]
  have hinbox : ∀ r, posted m.sys (.ipcTrySend value srcva perm pg) = r →
      newInbox m.sys (.ipcTrySend value srcva perm pg) m.inbox = match r with
        | some x => Function.update m.inbox x.receiver
            (if Named m.sys.procs x.pid x.receiver then some x.message else none)
        | none => m.inbox := by
    rintro _ rfl
    simp only [newInbox, hps]
  rcases ipcTrySend_cases hps hcs hstep with ⟨hpost, hprocs, hfail⟩ | ⟨hrecv, ipcPerm, hperm, hpost⟩
  · refine ⟨fun msg hmsg => by simp [hpost] at hmsg, fun _ => hprocs, ?_⟩
    rw [hinbox _ hpost]
    rcases hb with ⟨_, hb⟩ | ⟨ipcPerm, hrecv, hperm, _⟩
    · rw [hb]
      exact hm.sendFail hnot
    · obtain ⟨e, he⟩ := hfail hrecv
      exact absurd (he.symm.trans hperm) (by simp)
  · refine ⟨?_, fun hnone => by simp [hpost] at hnone, ?_⟩
    · intro msg hmsg
      obtain rfl := Option.some.inj (hpost.symm.trans hmsg)
      exact hm.empty hrecv
    · rw [hinbox _ hpost]
      have hnamed : Named m.sys.procs pid t := by
        have hd := hC
        simp only [Direct, hps, hcs] at hd
        exact hd hrecv
      rcases hb with ⟨hfail, _⟩ | ⟨ipcPerm', _, hperm', hb⟩
      · obtain ⟨e, he⟩ := hfail hrecv
        exact absurd (he.symm.trans hperm) (by simp)
      · obtain rfl := Except.ok.inj (hperm.symm.trans hperm')
        rw [hb]
        simp only [if_pos hnamed]
        exact hm.send hnot hrecv

theorem newInbox_other (inbox : Nat → Option Message) (hrecv : ∀ d, o ≠ .ipcRecv d)
    (hret : o ≠ .ipcRecvReturn) (hsend : ∀ v sv pm pg, o ≠ .ipcTrySend v sv pm pg) :
    newInbox s o inbox = inbox := by
  unfold newInbox
  split
  · exact absurd rfl (hrecv _)
  · exact absurd rfl hret
  · exact absurd rfl (hsend _ _ _ _)
  · rfl

theorem posted_other (hsend : ∀ v sv pm pg, o ≠ .ipcTrySend v sv pm pg) : posted s o = none := by
  unfold posted
  split
  · exact absurd rfl (hsend _ _ _ _)
  · rfl

/-- Looking the receiver up writes to no process. -/
theorem ipcLookup_procs {pid : Nat} (hstep : step s (.ipcLookup pid) = .ok s') :
    s'.procs = s.procs := by
  unfold step at hstep
  split at hstep
  · next p hp =>
    cases hc : s.conts p with
    | run =>
      rw [hc] at hstep
      obtain ⟨d, _, hret⟩ := bind_eq_ok.1 hstep
      cases d with
      | none =>
        obtain rfl := Except.ok.inj hret
        rfl
      | some t =>
        obtain rfl := Except.ok.inj hret
        rfl
    | _ =>
      rw [hc] at hstep
      cases hstep
  · cases hstep

theorem mailOk_step {m m' : Mail} (hi : Inv m.sys xs) (hm : MailInv m.sys.abs m.inbox)
    (hC : Direct m o) (hstep : mailStep m o = .ok m') :
    MailOk m o m' ∧ (∃ xs', Inv m'.sys xs') ∧ MailInv m'.sys.abs m'.inbox := by
  obtain ⟨s', hsys, hret⟩ := bind_eq_ok.1 hstep
  obtain rfl := Except.ok.inj hret
  obtain ⟨xs', hi', habs⟩ := step_refines hi hsys
  have hother : (∀ d, o ≠ .ipcRecv d) → o ≠ .ipcRecvReturn → (∀ v sv pm pg, o ≠ .ipcTrySend v sv pm pg) →
      MailInv s'.abs (newInbox m.sys o m.inbox) := by
    intro h₁ h₂ h₃
    rw [newInbox_other m.inbox h₁ h₂ h₃]
    exact hm.other habs h₁ h₂ h₃
  cases o with
  | ipcRecv d =>
    obtain ⟨p, hp⟩ := habs.recv_mode
    have hps : m.sys.mode = .process p := hp
    refine ⟨⟨nofun, ?_, nofun, nofun⟩, ⟨xs', hi'⟩, ?_⟩
    · intro msg hmsg
      rw [posted_other (by simp)] at hmsg
      cases hmsg
    · simp only [newInbox, hps]
      exact hm.recv hp habs
  | ipcRecvReturn =>
    obtain ⟨p, hp⟩ := habs.ret_mode
    have hps : m.sys.mode = .process p := hp
    have hflag : (m.sys.procs p).ipcRecving = false := by
      have hd := hC
      simp only [Direct, hps] at hd
      exact hd
    obtain ⟨hinv, hmsg⟩ := hm.ret hp hflag habs
    refine ⟨⟨?_, ?_, nofun, nofun⟩, ⟨xs', hi'⟩, ?_⟩
    · intro q hq _
      obtain rfl := Mode.process.inj (hps.symm.trans hq)
      exact hmsg
    · intro msg hmsg
      rw [posted_other (by simp)] at hmsg
      cases hmsg
    · simp only [newInbox, hps]
      exact hinv
  | ipcTrySend value srcva perm pg =>
    obtain ⟨honce, hfailed, hinv⟩ := mailSend_step hi hm hC hsys
    refine ⟨⟨nofun, honce, ?_, nofun⟩, ⟨xs', hi'⟩, hinv⟩
    rintro v sv pm pg' heq hnone
    exact hfailed hnone
  | ipcLookup pid =>
    refine ⟨⟨nofun, ?_, nofun, fun _ _ => ipcLookup_procs hsys⟩, ⟨xs', hi'⟩, hother nofun nofun nofun⟩
    intro msg hmsg
    rw [posted_other (by simp)] at hmsg
    cases hmsg
  | _ =>
    refine ⟨⟨nofun, ?_, nofun, nofun⟩, ⟨xs', hi'⟩, hother nofun nofun nofun⟩
    intro msg hmsg
    rw [posted_other (by simp)] at hmsg
    cases hmsg

/-- **Messages are delivered exactly once**, in every run from boot whose steps are direct. -/
theorem mail_of_run {s₀ : Sys} {ops : List Op} (hboot : firstProcess procInit = .ok s₀)
    (hC : Meets mailStep Direct ⟨s₀, fun _ => none⟩ ops) :
    Throughout mailStep MailOk ⟨s₀, fun _ => none⟩ ops := by
  obtain ⟨hi, hb⟩ := boot_inv hboot
  apply throughout_of_meets (fun m => (∃ xs, Inv m.sys xs) ∧ MailInv m.sys.abs m.inbox) _ _ hC
  · rintro m o m' ⟨⟨xs, hi⟩, hm⟩ hCo hstep
    exact mailOk_step hi hm hCo hstep
  · -- nobody is inside of `ipc_recv` yet
    have hnobody : ∀ y, s₀.abs.cont y ≠ .ipcRecv := by
      intro y hc
      exact absurd ((hb.conts y).symm.trans hc) (by simp)
    exact ⟨hi, fun y hy => absurd hy (hnobody y), fun y _ => ⟨hb.ipcRecving y, rfl⟩,
      fun y hy => absurd hy (hnobody y)⟩

/-- The first process sends its child a number. -/
theorem mail_of_run_sample : ∃ s₀, firstProcess procInit = .ok s₀ ∧
    Throughout mailStep MailOk ⟨s₀, fun _ => none⟩ [.schedule, .clone ⟨true, true, true⟩,
      .cloneFinish true, .yield, .schedule, .ipcRecv Paging.UTOP, .schedule, .ipcLookup 1,
      .ipcTrySend 42 0 0 ⟨true, true, true⟩, .yield, .schedule, .ipcRecvReturn] := by
  obtain ⟨s₀, hboot, hC⟩ : ∃ s₀, firstProcess procInit = .ok s₀ ∧
      Meets mailStep Direct ⟨s₀, fun _ => none⟩ [.schedule, .clone ⟨true, true, true⟩,
        .cloneFinish true, .yield, .schedule, .ipcRecv Paging.UTOP, .schedule, .ipcLookup 1,
        .ipcTrySend 42 0 0 ⟨true, true, true⟩, .yield, .schedule, .ipcRecvReturn] :=
    exists_eq_ok_and (by decide +kernel)
  exact ⟨s₀, hboot, mail_of_run hboot hC⟩

/-- **`ipc_recv` returns and nobody has sent anything**: its caller has waited for a child before, and
    is woken up by the end of another child. -/
theorem recv_without_send : ∃ m, (do
      let s₀ ← firstProcess procInit
      [Op.schedule, .clone ⟨true, true, true⟩, .cloneFinish true, .clone ⟨true, true, true⟩,
        .cloneFinish true, .wait, .schedule, .exit, .exitFinish, .schedule, .yield, .schedule, .wait,
        .ipcRecv Paging.UTOP, .schedule, .exit, .exitFinish, .schedule].foldlM mailStep
          ⟨s₀, fun _ => none⟩) = .ok m ∧
    m.sys.mode = .process 0 ∧ m.sys.conts 0 = .ipcRecv ∧ m.inbox 0 = none ∧
    (mailStep m .ipcRecvReturn).toOption.isSome = true := exists_eq_ok_and (by decide +kernel)

end

end WeiOS.Sched
