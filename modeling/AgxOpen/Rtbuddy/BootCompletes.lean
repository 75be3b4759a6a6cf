import AgxOpen.Rtbuddy.BootProgress

/-!
# Boot can always come to its end

Whatever the threads and the firmware of the tests did so far, they can go on so that boot
returns: each wait can be brought to its answer by the interrupt thread and the firmware.
-/
namespace AgxOpen.Rtbuddy
open Rtkit

variable {f : FakeFirmware} {guard : World → RunLog → Party → Op → Prop} {s₀ s : World}
  {log : RunLog} {h : Hist} {i : Party} {op : Op} {α : Type}
  {c d e : Config Party Op Res World} {stage : Stage}

/-- Operations that can have to wait for another thread. -/
def blocks : Op → Bool
  | .wait _ | .freeIrq | .irqEnter => true
  | _ => false

/-- The allocator always has another buffer. -/
theorem exists_ptr (buffers : List Shmem) : ∃ p : Ptr, p ≠ 0 ∧ ∀ b ∈ buffers, b.cpu < p := by
  induction buffers with
  | nil => exact ⟨1,by decide,nofun⟩
  | cons b buffers ih =>
    obtain ⟨p,-,hp⟩ := ih
    refine ⟨p + b.cpu + 1,Nat.succ_ne_zero _,List.forall_mem_cons.mpr ⟨?_,fun b' hb => ?_⟩⟩
    · exact Nat.lt_succ_of_le (Nat.le_add_left ..)
    · exact Nat.lt_succ_of_le ((hp b' hb).le.trans (Nat.le_add_right ..))

/-- Every other operation can succeed at once. -/
theorem exists_answer (s : World) (hop : blocks op = false) :
    ∃ r, s.allows op r ∧ Succeeds ⟨op,r⟩ := by
  cases op with
  | wait | freeIrq | irqEnter => contradiction
  | load => exact ⟨s.rb,rfl,trivial⟩
  | readCtrl => exact ⟨s.cpuCtrl,rfl,trivial⟩
  | readI2a => exact ⟨s.i2aControl,rfl,trivial⟩
  | recv0 => exact ⟨_,World.reply_allowed (rfl : s.reply true .recv0 = some _),trivial⟩
  | recv1 => exact ⟨_,World.reply_allowed (rfl : s.reply true .recv1 = some _),trivial⟩
  | send endpoint message => exact ⟨(0 : ℤ),.inl rfl,rfl⟩
  | requestIrq => exact ⟨(0 : ℤ),trivial,rfl⟩
  | dmaAlloc slot size =>
    obtain ⟨p,h0,hp⟩ := exists_ptr s.dma
    exact ⟨(p,0#64),fun b hb => (hp b hb).ne,h0⟩
  | _ => exact ⟨(),trivial,trivial⟩

/-- Boot has not returned, and nothing was refused. -/
structure InBoot (f : FakeFirmware) (s₀ : World) (c : Config Party Op Res World) : Prop where
  reach : (driver.startingAt s₀).Reach (plays f) c
  unhindered : Unhindered c.log
  fresh : Fresh (own .main c.log)

/-- The configuration behind an operation. -/
def acted (c : Config Party Op Res World) (i : Party) (op : Op) (r : Res op)
    (next : Res op → Prog Unit) : Config Party Op Res World :=
  ⟨c.state.after op r,Function.update c.thread i (next r),(i,⟨op,r⟩) :: c.log⟩

abbrev Leads (f : FakeFirmware) (s₀ : World) : Config Party Op Res World →
    Config Party Op Res World → Prop := (driver.startingAt s₀).Leads (plays f)

theorem plays_other (hop : ∀ msg0 msg1, op ≠ .push msg0 msg1) : plays f s log i op := by
  cases op with
  | push msg0 msg1 => exact absurd rfl (hop msg0 msg1)
  | _ => trivial

theorem acted_thread {next : Res op → Prog Unit} {r : Res op} :
    (acted c i op r next).thread i = next r := Function.update_self (f := c.thread) ..

theorem acted_other {j : Party} {next : Res op → Prog Unit} {r : Res op} (hj : j ≠ i) :
    (acted c i op r next).thread j = c.thread j := Function.update_of_ne hj ..

/-- A program is started. -/
def launched (c : Config Party Op Res World) (i : Party) (p : Prog Unit) :
    Config Party Op Res World :=
  { c with thread := Function.update c.thread i p }

theorem launched_thread {p : Prog Unit} : (launched c i p).thread i = p :=
  Function.update_self (f := c.thread) ..

theorem launched_other {j : Party} {p : Prog Unit} (hj : j ≠ i) :
    (launched c i p).thread j = c.thread j := Function.update_of_ne hj ..

section Acts

variable {next : Res op → Prog Unit} {r : Res op} (hthread : c.thread i = .call op next)
  (hg : plays f c.state c.log i op) (ha : c.state.allows op r)
include hthread hg ha

theorem leads_acted (s₀ : World) : Leads f s₀ c (acted c i op r next) :=
  .single (.act hthread hg ⟨ha,rfl⟩)

theorem InBoot.act (hb : InBoot f s₀ c) (hs : Succeeds ⟨op,r⟩)
    (hm : ∀ ret, op ≠ .mark (.booted ret)) : InBoot f s₀ (acted c i op r next) where
  reach := hb.reach.step (.act hthread hg ⟨ha,rfl⟩)
  unhindered := List.forall_mem_cons.mpr ⟨hs,hb.unhindered⟩
  fresh ret hr := by
    obtain he | hr := List.mem_cons.mp (mem_own.mp hr)
    · exact hm ret (congrArg (fun x => x.2.op) he).symm
    · exact hb.fresh ret (mem_own.mpr hr)

end Acts

/-- Operations inside the handler. -/
def Inner (op : Op) : Prop := op ≠ .irqEnter

theorem inner_of_quiet {p : Prog α} (hp : Quiet p) : Program.Only Inner p := by
  refine hp.mono fun op hop he => ?_
  rw [he] at hop
  contradiction

theorem inner_rx (endpoint : U32) (message : U64) :
    Program.Only Inner (rx port endpoint message) := by
  rw [rx_eq]
  have hcount : Program.Only Inner (port.store .rxCount) := Program.only_request.mpr nofun
  refine (hcount.bind fun _ => ?_).bind fun _ => ?_
  · exact inner_of_quiet (only_countStray quiet_load (quiet_store _ (by simp)) _)
  refine only_dispatch (inner_of_quiet quiet_load) (fun m => inner_of_quiet (quiet_send _ m)) ?_ ?_
    (fun u hu => inner_of_quiet (quiet_store u hu)) ?_
  · rintro _ ⟨⟩ size iova
    exact inner_of_quiet (quiet_opsBuffer _ size iova)
  · rintro - _ ⟨⟩
    trivial
  · rintro - _ ⟨⟩
    exact Program.only_ite.mpr ⟨fun _ => Program.only_request.mpr nofun,
      fun _ => Program.only_request.mpr nofun⟩

/-- Taking a message, up to what is done about it. -/
theorem recv_bind (k : Option (U32 × U64) → Prog α) : mailboxRecv >>= k =
    .call .readI2a fun control => if (control &&& controlEmpty != 0#32) = true then k none else
      .call .recv0 fun msg0 => .call .recv1 fun msg1 => k (some (unpackEndpoint msg1,msg0)) := by
  refine congrArg (Program.call Op.readI2a) (funext fun control => ?_)
  change (if _ then _ else _) >>= k = _
  split_ifs <;> rfl

theorem inner_drain (n : ℕ) : Program.Only Inner (drain n) := by
  induction n with
  | zero => trivial
  | succ n ih =>
    rw [drain, recv_bind]
    refine ⟨nofun,fun control => Program.only_ite.mpr ⟨fun _ => trivial,fun _ => ?_⟩⟩
    refine ⟨nofun,fun msg0 => ⟨nofun,fun msg1 => ⟨nofun,fun _ => ?_⟩⟩⟩
    exact (inner_rx _ _).bind fun _ => ⟨nofun,fun _ => ih.bind fun _ => trivial⟩

/-- The handler is entered from outside only. -/
theorem reach_entry (hc : driver.Reach guard c) :
    c.thread .irq = irqThread ∧ inside (own .irq c.log) = false ∨
      Program.Only Inner (c.thread .irq) := by
  induction hc with
  | init h => exact .inr trivial
  | @step c d hc hs ih =>
    cases hs with
    | @start i call p hidle hp =>
      by_cases hi : i = .irq
      · subst hi
        cases call with
        | interrupt =>
          obtain rfl := Option.some.inj hp
          have hout := (hc.lawful disciplined).2 .irq
          rw [hidle] at hout
          have hnow : (launched c .irq irqThread).thread .irq = irqThread := launched_thread
          exact .inl ⟨hnow,hout.1⟩
        | _ => contradiction
      · simpa [Function.update_of_ne (Ne.symm hi)] using ih
    | @act i op next r t hthread hg hs =>
      by_cases hi : i = .irq
      · subst hi
        have hnow : Function.update c.thread .irq (next r) .irq = next r := Function.update_self ..
        refine .inr (hnow ▸ ?_)
        rw [hthread] at ih
        obtain ⟨he,-⟩ | ho := ih
        · obtain ⟨rfl,hnext⟩ := Program.call.inj he
          rw [eq_of_heq hnext]
          refine (inner_drain drainMax).bind fun handled => ?_
          refine ⟨?_,fun _ => ⟨?_,fun _ => ⟨?_,fun _ => trivial⟩⟩⟩ <;> simp [Inner]
        · exact ho.2 r
      · simpa [Function.update_of_ne (Ne.symm hi), own_cons_ne hi] using ih

theorem irqBusy_outside (hc : driver.Reach guard c) (hout : inside (own .irq c.log) = false) :
    c.state.irqBusy = false := (irqBusy_eq hc.trace (reach_lawful hc)).trans hout

/-- The interrupt thread went on, and nobody else. -/
structure Behind (f : FakeFirmware) (s₀ : World) (c d : Config Party Op Res World) : Prop where
  inBoot : InBoot f s₀ d
  main : d.thread .main = c.thread .main
  firmware : d.thread .firmware = c.thread .firmware
  own : own .main d.log = own .main c.log
  pushes : pushes d.log = pushes c.log
  registered : d.state.irqRegistered = c.state.irqRegistered
  outbox : d.state.outbox.length ≤ c.state.outbox.length

theorem InBoot.behind (hb : InBoot f s₀ c) : Behind f s₀ c c := ⟨hb,rfl,rfl,rfl,rfl,rfl,le_rfl⟩

theorem Behind.trans (hd : Behind f s₀ c d) (he : Behind f s₀ d e) : Behind f s₀ c e where
  inBoot := he.inBoot
  main := he.main.trans hd.main
  firmware := he.firmware.trans hd.firmware
  own := he.own.trans hd.own
  pushes := he.pushes.trans hd.pushes
  registered := he.registered.trans hd.registered
  outbox := he.outbox.trans hd.outbox

/-- The operations of the handler. -/
def handles : Op → Bool
  | .push .. | .mark (.booted _) | .requestIrq | .freeIrq | .wait _ => false
  | _ => true

theorem handles_irq (hl : irqLaw h op) : handles op = true := by
  obtain rfl | ⟨-,hl⟩ := hl
  · rfl
  cases op with
  | mark m => cases m <;> first | rfl | exact hl.elim
  | _ => first | rfl | exact hl.elim

/-- The interrupt thread waits for nothing but its turn. -/
theorem blocks_irq (hl : irqLaw h op) (hop : op ≠ .irqEnter) : blocks op = false := by
  have hin := handles_irq hl
  cases op <;> first | rfl | contradiction

theorem Behind.act {next : Res op → Prog Unit} {r : Res op} (hd : Behind f s₀ c d)
    (hthread : d.thread .irq = .call op next) (hop : handles op = true) (ha : d.state.allows op r)
    (hs : Succeeds ⟨op,r⟩) :
    Leads f s₀ d (acted d .irq op r next) ∧ Behind f s₀ c (acted d .irq op r next) := by
  have hplays : plays f d.state d.log .irq op := plays_other fun _ _ he => by
    rw [he] at hop
    contradiction
  have hm (ret : ℤ) : op ≠ .mark (.booted ret) := fun he => by
    rw [he] at hop
    contradiction
  refine ⟨leads_acted hthread hplays ha s₀,hd.inBoot.act hthread hplays ha hs hm,?_,?_,?_,?_,?_,?_⟩
  · exact (acted_other (by decide)).trans hd.main
  · exact (acted_other (by decide)).trans hd.firmware
  · exact (own_cons_ne (by decide) ..).trans hd.own
  · refine Eq.trans ?_ hd.pushes
    cases op with
    | push => contradiction
    | _ => rfl
  · refine Eq.trans ?_ hd.registered
    cases op with
    | requestIrq | freeIrq => contradiction
    | _ => rfl
  · refine le_trans ?_ hd.outbox
    cases op with
    | push => contradiction
    | recv1 => exact (List.length_tail ..).trans_le (Nat.sub_le ..)
    | _ => exact le_rfl

section Irq

variable (h₀ : Probed s₀) (hb : InBoot f s₀ c) (hreg : c.state.irqRegistered = true)
include h₀ hb hreg

/-- The handler gets to its end. -/
theorem irq_ends : ∃ d, Leads f s₀ c d ∧ Behind f s₀ c d ∧ d.thread .irq = .ret () := by
  refine Threads.leads_end .irq (I := Behind f s₀ c) (fun d op next hd hthread => ?_)
    (fun d hd hend => ⟨hd,hend⟩) hb.behind
  have hreach := hd.inBoot.reach.of_startingAt h₀
  have hl := (hreach.lawful disciplined).2 .irq
  rw [hthread] at hl
  have hop := handles_irq hl.1
  obtain ⟨r,ha,hs⟩ : ∃ r, d.state.allows op r ∧ Succeeds ⟨op,r⟩ := by
    by_cases hent : op = .irqEnter
    · subst hent
      obtain ⟨-,hout⟩ | ho := reach_entry hreach
      · exact ⟨(),⟨hd.registered.trans hreg,irqBusy_outside hreach hout⟩,trivial⟩
      · rw [hthread] at ho
        exact absurd rfl ho.1
    · exact exists_answer d.state (blocks_irq hl.1 hent)
  obtain ⟨hleads,hbehind⟩ := hd.act hthread hop ha hs
  exact ⟨_,hleads,.inr ⟨hbehind,r,acted_thread⟩⟩

end Irq

/-- What the handler does first. -/
theorem irqThread_eq : ∃ k, irqThread = .call .irqEnter fun _ => mailboxRecv >>= k := by
  obtain ⟨k,hk⟩ : ∃ k, drain drainMax = mailboxRecv >>= k := ⟨_,rfl⟩
  refine ⟨fun msg => k msg >>= fun handled => store (.drainCount handled) >>= fun _ =>
    ask .wakeUp >>= fun _ => ask .irqExit,?_⟩
  rw [irqThread, hk]
  exact congrArg (Program.call Op.irqEnter) (funext fun _ => Program.bind_assoc mailboxRecv k _)

/-- The handler takes a message if there is one. -/
theorem irq_takes (h₀ : Probed s₀) (hb : InBoot f s₀ c) (hreg : c.state.irqRegistered = true)
    (hidle : c.thread .irq = .ret ()) (hne : c.state.outbox ≠ []) :
    ∃ d, Leads f s₀ c d ∧ Behind f s₀ c d ∧ d.thread .irq = .ret () ∧
      d.state.outbox.length < c.state.outbox.length := by
  obtain ⟨k,hprog⟩ := irqThread_eq
  simp only [recv_bind] at hprog
  have hreach := hb.reach.of_startingAt h₀
  have hout := (hreach.lawful disciplined).2 .irq
  rw [hidle] at hout
  have hbusy := irqBusy_outside hreach hout.1
  have hempty : ¬ (c.state.i2aControl &&& controlEmpty != 0#32) = true := by
    simpa using mt (i2aControl_empty c.state).mp hne
  have hcall : (driver.startingAt s₀).program .irq .interrupt = some irqThread := rfl
  have hstart : Leads f s₀ c (launched c .irq irqThread) := .single (.start hidle hcall)
  have hb₁ : Behind f s₀ c (launched c .irq irqThread) :=
    ⟨⟨hb.reach.leads hstart,hb.unhindered,hb.fresh⟩,launched_other (by decide),
      launched_other (by decide),rfl,rfl,rfl,le_rfl⟩
  obtain ⟨l₁,hb₂⟩ := hb₁.act (r := ()) (launched_thread.trans hprog) rfl ⟨hreg,hbusy⟩ trivial
  have ha₂ : (c.state.after .irqEnter ()).allows .readI2a c.state.i2aControl := rfl
  obtain ⟨l₂,hb₃⟩ := hb₂.act acted_thread rfl ha₂ trivial
  obtain ⟨msg0,ha₃,hs₃⟩ : ∃ r, c.state.allows .recv0 r ∧ Succeeds ⟨.recv0,r⟩ :=
    exists_answer c.state rfl
  obtain ⟨l₃,hb₄⟩ := hb₃.act (r := msg0) (acted_thread.trans (if_neg hempty)) rfl ha₃ hs₃
  obtain ⟨msg1,ha₄,hs₄⟩ : ∃ r, c.state.allows .recv1 r ∧ Succeeds ⟨.recv1,r⟩ :=
    exists_answer c.state rfl
  obtain ⟨l₄,hb₅⟩ := hb₄.act (r := msg1) acted_thread rfl ha₄ hs₄
  obtain ⟨d,hl,hd,hend⟩ := irq_ends h₀ hb₅.inBoot (hb₅.registered.trans hreg)
  refine ⟨d,((((hstart.trans l₁).trans l₂).trans l₃).trans l₄).trans hl,hb₅.trans hd,hend,?_⟩
  have htail : d.state.outbox.length ≤ c.state.outbox.tail.length := hd.outbox
  have hpos := List.length_pos_iff.mpr hne
  rw [List.length_tail] at htail
  omega

theorem firmware_pushes (hb : InBoot f s₀ c) (hfirm : c.thread .firmware = .ret ()) {msg0 msg1 : U64}
    (hp : plays f c.state c.log .firmware (.push msg0 msg1)) :
    ∃ d, Leads f s₀ c d ∧ InBoot f s₀ d ∧ d.thread = c.thread ∧ own .main d.log = own .main c.log ∧
      pushes d.log = pushes c.log ++ [(msg0,msg1)] ∧
      d.state.outbox = c.state.outbox ++ [(msg0,msg1)] := by
  have hcall : (driver.startingAt s₀).program .firmware (.push msg0 msg1) =
      some (ask (.push msg0 msg1)) := rfl
  have hstart : Leads f s₀ c (launched c .firmware (ask (.push msg0 msg1))) :=
    .single (.start hfirm hcall)
  have hb₁ : InBoot f s₀ (launched c .firmware (ask (.push msg0 msg1))) :=
    ⟨hb.reach.leads hstart,hb.unhindered,hb.fresh⟩
  have hthread : (launched c .firmware (ask (.push msg0 msg1))).thread .firmware =
      .call (.push msg0 msg1) .ret := launched_thread
  refine ⟨acted (launched c .firmware _) .firmware (.push msg0 msg1) () .ret,
    hstart.trans (leads_acted hthread hp trivial s₀),hb₁.act hthread hp trivial trivial nofun,?_,
    own_cons_ne (by decide) ..,rfl,rfl⟩
  change Function.update (Function.update c.thread _ _) _ (.ret ()) = c.thread
  rw [Function.update_idem, ← hfirm, Function.update_eq_self]

/-- Only a message on the management endpoint is answered, by one message at most. -/
theorem handle_length (g : FakeFirmware) (x : Msg) :
    (g.handle x).toAp.length ≤ g.toAp.length + if x.1 = epMgmt then 1 else 0 := by
  rw [FakeFirmware.handle]
  by_cases hx : x.1 = epMgmt
  · rw [if_pos hx, if_pos (show x.1 = 0#32 from hx)]
    simp only [FakeFirmware.handleMgmt, FakeFirmware.epmapReplied, FakeFirmware.iopPower,
      FakeFirmware.startep]
    split_ifs <;> simp
  · rw [if_neg hx, if_neg (show ¬ x.1 = 0#32 from hx)]
    split_ifs <;> exact le_rfl

theorem queued_length {messages : List Msg} (hf : f.Fresh) (hs : Spoken f messages) :
    (f.run messages).toAp.length ≤ 1 + spoken messages + (messages.filter isAsk).length := by
  induction messages using List.reverseRecOn with
  | nil =>
    rw [hf]
    exact le_rfl
  | append_singleton messages x ih =>
    have hrest := ih (hs.of_earlier (List.prefix_append ..))
    have hlen := handle_length (f.run messages) x
    rw [FakeFirmware.run_snoc, spoken_snoc, List.filter_append, List.length_append]
    split_ifs at hlen with hx
    · cases hr : isReply x with
      | true =>
        rw [if_pos rfl]
        omega
      | false =>
        have hask : isAsk x = true :=
          decide_eq_true ((hs.others x (by simp) hr).resolve_right (not_not.mpr hx))
        rw [List.filter_cons_of_pos hask, List.length_cons]
        omega
    · omega

theorem script_length (f : FakeFirmware) : (script f).length ≤ 8 := by
  rw [script]
  split_ifs
  · exact le_rfl
  · exact Nat.zero_le _

/-- Boot waits, and neither the interrupt thread nor the firmware is in the middle of anything. -/
structure Waiting (f : FakeFirmware) (s₀ : World) (stage : Stage) (next : ℕ → Prog Unit)
    (sent : List Msg) (c : Config Party Op Res World) : Prop where
  inBoot : InBoot f s₀ c
  main : c.thread .main = .call (.wait stage) next
  irq : c.thread .irq = .ret ()
  firmware : c.thread .firmware = .ret ()
  sends : sends (own .main c.log) = sent

/-- What the firmware has still to push counts twice, what is in the outbox once. -/
def owed (sent : List Msg) (c : Config Party Op Res World) : ℕ :=
  2 * (9 + sent.length - (pushes c.log).length) + c.state.outbox.length

/-- What ends the wait. -/
def WaitOver (stage : Stage) (c : Config Party Op Res World) : Prop :=
  stage.done c.state.rb.rtkit = true ∨ c.state.rb.rtkit.error ≠ 0

section Waits

variable {next : ℕ → Prog Unit} {sent : List Msg} (h₀ : Probed s₀) (hout : s₀.outbox = [])
  (hf : f.Fresh)
include h₀ hout hf

theorem InBoot.waits (hb : InBoot f s₀ c) (hmain : c.thread .main = .call (.wait stage) next) :
    asksFor stage ∈ sends (own .main c.log) ∧ c.state.irqRegistered = true := by
  have hd := hb.reach.of_startingAt h₀
  have hwaits := (reach_boot h₀ hout hf hb.reach hb.unhindered).2
  rw [hmain] at hwaits
  obtain ⟨hask,harmed⟩ := hwaits.1 hb.fresh
  exact ⟨hask,(irqRegistered_eq hd.trace (reach_lawful hd)).trans harmed⟩

/-- While the wait is not answered somebody can go on, and less is owed then. -/
theorem Waiting.goes_on (hw : Waiting f s₀ stage next sent c) :
    WaitOver stage c ∨ ∃ d, Leads f s₀ c d ∧ Waiting f s₀ stage next sent d ∧
      owed sent d < owed sent c := by
  have hb := hw.inBoot
  obtain ⟨hask,hreg⟩ := hb.waits h₀ hout hf hw.main
  by_cases hempty : c.state.outbox = []
  · by_cases hpush : ∃ msg0 msg1, plays f c.state c.log .firmware (.push msg0 msg1)
    · obtain ⟨msg0,msg1,hp⟩ := hpush
      obtain ⟨d,hl,hd,hthread,hown,hpushes,houtbox⟩ := firmware_pushes hb hw.firmware hp
      refine .inr ⟨d,hl,⟨hd,?_,?_,?_,?_⟩,?_⟩
      · exact hthread ▸ hw.main
      · exact hthread ▸ hw.irq
      · exact hthread ▸ hw.firmware
      · exact hown ▸ hw.sends
      have hspoken := spoken_of h₀ hout hf hb.reach hb.unhindered hb.fresh
      have hlt : (pushes c.log).length < (f.run (heard c.log)).toAp.length :=
        (List.getElem?_eq_some_iff.mp hp).1
      have hlen := queued_length hf hspoken
      have hscript := hspoken.replies.length_le.trans (script_length f)
      rw [heard_asks (reach_lawful (hb.reach.of_startingAt h₀)) hb.fresh, hw.sends, spoken] at hlen
      rw [owed, owed, hpushes, houtbox, List.length_append, List.length_append]
      simp only [List.length_singleton]
      omega
    · have hs : Still f c := ⟨hw.irq,hempty,fun msg0 msg1 hp => hpush ⟨msg0,msg1,hp⟩⟩
      exact .inl (hs.answered h₀ hout hf hb.reach hb.unhindered hb.fresh hask)
  · obtain ⟨d,hl,hd,hend,hlt⟩ := irq_takes h₀ hb hreg hw.irq hempty
    refine .inr ⟨d,hl,⟨hd.inBoot,?_,hend,?_,?_⟩,?_⟩
    · exact hd.main.trans hw.main
    · exact hd.firmware.trans hw.firmware
    · exact hd.own ▸ hw.sends
    · rw [owed, owed, hd.pushes]
      omega

/-- A wait can be brought to its answer. -/
theorem wait_passes (hb : InBoot f s₀ c) (hmain : c.thread .main = .call (.wait stage) next)
    (hfirm : c.thread .firmware = .ret ()) :
    ∃ d, Leads f s₀ c d ∧ (InBoot f s₀ d ∧ d.thread .firmware = .ret ()) ∧
      ∃ r, d.thread .main = next r := by
  obtain ⟨d,hl,hd,hend⟩ := irq_ends h₀ hb (hb.waits h₀ hout hf hmain).2
  have hw : Waiting f s₀ stage next (sends (own .main c.log)) d :=
    ⟨hd.inBoot,hd.main.trans hmain,hend,hd.firmware.trans hfirm,hd.own ▸ rfl⟩
  obtain ⟨e,hl',he,hans⟩ := Threads.leads_falling (owed _) (fun _ => Waiting.goes_on h₀ hout hf) hw
  have hallows : e.state.allows (.wait stage) (1 : ℕ) := .inr hans
  have hplays : plays f e.state e.log .main (.wait stage) := plays_other nofun
  refine ⟨_,(hl.trans hl').trans (leads_acted he.main hplays hallows s₀),⟨?_,?_⟩,1,acted_thread⟩
  · exact he.inBoot.act he.main hplays hallows Nat.one_ne_zero nofun
  · exact (acted_other (by decide)).trans he.firmware

end Waits

/-- What boot returns. -/
def verdict (f : FakeFirmware) : ℤ := if acceptable f.hello = true then 0 else Status.einval

theorem Outcome.verdict {ret : ℤ} (hret : Outcome f h ret) : ret = verdict f := by
  rw [Outcome] at hret
  rw [Rtbuddy.verdict]
  split_ifs at hret ⊢
  · exact hret.1
  · exact hret.1

/-- However the threads and the firmware took turns so far, boot can still return, with what
the versions say, unless something is refused from here on. -/
theorem boot_completes (h₀ : Probed s₀) (hout : s₀.outbox = []) (hf : f.Fresh)
    (hc : (driver.startingAt s₀).Reach (plays f) c) (hu : Unhindered c.log)
    (hb : Fresh (own .main c.log)) (hfirm : c.thread .firmware = .ret ()) :
    ∃ d, Leads f s₀ c d ∧ Unhindered d.log ∧
      ∃ log, d.log = (.main,⟨.mark (.booted (verdict f)),()⟩) :: log := by
  refine Threads.leads_end .main (I := fun d => InBoot f s₀ d ∧ d.thread .firmware = .ret ())
    (fun d op next ⟨hd,hidle⟩ hthread => ?_) (fun d ⟨hd,_⟩ hend => ?_) ⟨⟨hc,hu,hb⟩,hfirm⟩
  · have hreach := hd.reach.of_startingAt h₀
    have hlaw := (hreach.lawful disciplined).2 .main
    have hboot := (reach_boot h₀ hout hf hd.reach hd.unhindered).2
    rw [hthread] at hlaw hboot
    by_cases hwait : ∃ stage, op = .wait stage
    · obtain ⟨stage,rfl⟩ := hwait
      obtain ⟨e,hl,he,hr⟩ := wait_passes h₀ hout hf hd hthread hidle
      exact ⟨e,hl,.inr ⟨he,hr⟩⟩
    have hplays : plays f d.state d.log .main op := plays_other fun _ _ he => by
      subst he
      exact hlaw.1
    have hops : blocks op = false := by
      cases op with
      | wait stage => exact absurd ⟨stage,rfl⟩ hwait
      | freeIrq => exact absurd hd.fresh hboot.1
      | irqEnter => exact hlaw.1.elim
      | _ => rfl
    obtain ⟨r,ha,hs⟩ := exists_answer d.state hops
    refine ⟨_,leads_acted hthread hplays ha s₀,?_⟩
    by_cases hm : ∃ ret, op = .mark (.booted ret)
    · obtain ⟨ret,rfl⟩ := hm
      obtain rfl := (hboot.1 hd.fresh).verdict
      exact .inl ⟨List.forall_mem_cons.mpr ⟨hs,hd.unhindered⟩,_,rfl⟩
    · refine .inr ⟨⟨hd.act hthread hplays ha hs fun ret he => hm ⟨ret,he⟩,?_⟩,r,acted_thread⟩
      exact (acted_other (by decide)).trans hidle
  · have hboot := (reach_boot h₀ hout hf hd.reach hd.unhindered).2
    rw [hend] at hboot
    exact absurd hd.fresh hboot

/-- The boot thread waits for the stage. -/
def waitsFor (stage : Stage) : Prog Unit → Bool
  | .call (.wait s) _ => s == stage
  | _ => false

/-- The thread runs nothing. -/
def resting : Prog Unit → Bool
  | .ret _ => true
  | _ => false

theorem resting_ret {p : Prog Unit} (hp : resting p = true) : p = .ret () := by
  cases p with
  | ret a => rfl
  | call op next => contradiction

def isBooted : Ev → Bool
  | ⟨.mark (.booted _),_⟩ => true
  | _ => false

theorem fresh_of_any (hb : h.any isBooted = false) : Fresh h := by
  intro ret hm
  exact absurd (List.any_eq_true.mpr ⟨_,hm,rfl⟩) (Bool.eq_false_iff.mp hb)

/-- Boot waits for the roll call and the firmware has not pushed anything yet. -/
theorem boot_completes_silent : ∃ c d, waitsFor .epmap (c.thread .main) = true ∧
    pushes c.log = [] ∧ Leads firmware fresh c d ∧
      ∃ log, d.log = (.main,⟨.mark (.booted 0),()⟩) :: log := by
  obtain ⟨c,hc,he⟩ := reach_fresh (plays firmware) [.acts .main 10 true] (fun c =>
    waitsFor .epmap (c.thread .main) && decide (pushes c.log = []) && decide (Unhindered c.log) &&
      !(own .main c.log).any isBooted && resting (c.thread .firmware)) (by decide +kernel)
  simp only [Bool.and_eq_true, decide_eq_true_eq, Bool.not_eq_true'] at he
  obtain ⟨⟨⟨⟨hwait,hpushes⟩,hu⟩,hb⟩,hidle⟩ := he
  obtain ⟨d,hl,-,log,hlog⟩ := boot_completes (f := firmware) probed_fresh rfl rfl hc hu
    (fresh_of_any hb) (resting_ret hidle)
  exact ⟨c,d,hwait,hpushes,hl,log,hlog⟩

end AgxOpen.Rtbuddy
