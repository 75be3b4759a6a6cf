import AgxOpen.Rtbuddy.BootOutcome

/-!
# Boot never waits for nothing

Boot waits for the interrupt thread, the interrupt thread for the firmware, and the firmware
of the tests for what the two send. Where neither of the others has anything left to do, what
boot waits for has come.
-/
namespace AgxOpen.Rtbuddy
open Rtkit

variable {f : FakeFirmware} {guard : World → RunLog → Party → Op → Prop} {s₀ s : World}
  {log earlier : RunLog} {h h' : Hist} {c : Config Party Op Res World} {stage : Stage} {x : Msg}

theorem heard_earlier (hs : earlier <:+ log) : heard earlier <+: heard log := by
  obtain ⟨later,rfl⟩ := hs
  rw [heard, heard, inbox, inbox, List.filterMap_append, List.reverse_append]
  exact List.prefix_append ..

theorem sends_suffix (hs : h' <:+ h) : sends h' <+: sends h := by
  obtain ⟨later,rfl⟩ := hs
  rw [sends, sends, List.filterMap_append, List.reverse_append]
  exact List.prefix_append ..

theorem fresh_suffix (hf : Fresh h) (hs : h' <:+ h) : Fresh h' :=
  fun ret hr => hf ret (hs.subset hr)

theorem Course.of_suffix (hc : Course f h) (hs : h' <:+ h) : Course f h' where
  law := by
    obtain ⟨later,rfl⟩ := hs
    exact hc.law.of_append
  behind := by
    obtain ⟨later,rfl⟩ := hs
    exact hc.behind.of_append
  keeping h'' hs' := hc.keeping h'' (hs'.trans hs)

/-- The acknowledgement that ends the wait. -/
def answerTo : Stage → Option Msg
  | .epmap => none
  | .iopAck => some iopAck
  | .apAck => some apAck

/-- The thread tells an acknowledgement while it handles it. -/
theorem Course.told_power (hc : Course f h) (p : Power) {later : Hist}
    (he : h = later ++ ⟨.rtkit (p.acked true),()⟩ :: h') : p.ack ∈ (tally h').given := by
  subst he
  obtain ⟨handled,k,now,hk⟩ := hc.keeping h' ((List.suffix_cons _ _).trans (List.suffix_append _ _))
  obtain ⟨m,hcur,htype,-⟩ : Handles h' p.ackType fun _ => True := by
    have hlaw := (hc.law.of_append.1.resolve_left (by simp)).2
    cases p <;> exact hlaw.2
  have hmem : (epMgmt,m) ∈ (tally h').given := by
    rw [hk.current_given hcur]
    simp
  exact hk.told.ack p hmem htype ▸ hmem

theorem Course.told_ack (hc : Course f h) (hx : answerTo stage = some x) {later : Hist}
    (he : h = later ++ ⟨.rtkit (doneStore stage),()⟩ :: h') : x ∈ (tally h').given := by
  cases stage with
  | epmap => contradiction
  | iopAck =>
    obtain rfl := Option.some.inj hx
    exact hc.told_power .iop he
  | apAck =>
    obtain rfl := Option.some.inj hx
    exact hc.told_power .ap he

/-- The firmware acknowledges what it heard. -/
theorem acked_asked {messages : List Msg} {g : FakeFirmware} (hh : Heard f messages g)
    (hx : answerTo stage = some x) (hm : x ∈ g.toAp) : asksFor stage ∈ messages := by
  cases stage with
  | epmap => contradiction
  | iopAck =>
    obtain rfl := Option.some.inj hx
    exact (hh.iop.mp hm).2
  | apAck =>
    obtain rfl := Option.some.inj hx
    exact hh.ap.mp hm

/-- A value that was set does not depend on the first one. -/
theorem latest_any {β : Type} {g : Ev → Option β} {a : Ev} (init init' : β) (ha : a ∈ h)
    (hg : g a ≠ none) : latest g init h = latest g init' h := by
  rw [latest, latest]
  cases hf : h.findSome? g with
  | none => exact absurd (List.findSome?_eq_none_iff.mp hf a ha) hg
  | some v => rfl

theorem doneWrite_false {u : Update} (h : doneWrite stage u = some false) :
    Clears stage (.rtkit u) := by
  cases stage <;> cases u <;> first | contradiction | (cases h; rfl)

theorem Clears.answer {op : Op} (hc : Clears stage op) : ∃ x, answerTo stage = some x := by
  cases stage with
  | epmap => exact hc.elim
  | _ => exact ⟨_,rfl⟩

/-- Only boot takes an acknowledgement back, before it asks. -/
theorem Clears.boot {i : Party} {op : Op} (hc : Clears stage op) (hl : law i h op) :
    i = .main ∧ ∀ h', bootLaw f h' op → Fresh h' → asksFor stage ∉ sends h' := by
  cases stage with
  | epmap => exact hc.elim
  | iopAck | apAck =>
    obtain rfl : op = _ := hc
    cases i with
    | main => exact ⟨rfl,fun _ h => h⟩
    | irq => exact absurd (hl.resolve_left (by simp)).2.1 (by decide)
    | _ => exact hl.elim

section Acks

variable (h₀ : Probed s₀) (hout : s₀.outbox = []) (hf : f.Fresh)
  (hc : (driver.startingAt s₀).Reach (plays f) c) (hu : Unhindered c.log)
  (hb : Fresh (own .main c.log))
include h₀ hout hf hc hu hb

/-- An acknowledgement is not told before boot has asked for it. -/
theorem asked_before (hx : answerTo stage = some x) (hs : earlier <:+ c.log)
    (hm : (⟨.rtkit (doneStore stage),()⟩ : Ev) ∈ own .irq earlier) :
    asksFor stage ∈ sends (own .main earlier) := by
  have hd := hc.of_startingAt h₀
  obtain ⟨l,h',hsplit⟩ := List.append_of_mem hm
  have hgiven := ((course_of h₀ hout hf hc hu hb).of_suffix (own_suffix .irq hs)).told_ack hx hsplit
  obtain ⟨after,before,rfl,-,rfl⟩ := own_split hsplit
  have hbefore : before <:+ after ++ (.irq,⟨.rtkit (doneStore stage),()⟩) :: before :=
    (List.suffix_cons _ _).trans (List.suffix_append _ _)
  have hsuf := hbefore.trans hs
  have hin : x ∈ (f.run (heard before)).toAp := by
    obtain ⟨later,hlog⟩ := hs
    have ht := hc.trace
    have hl := reach_lawful hd
    have hrec := reach_receive hd
    rw [← hlog, ← List.append_assoc] at ht hl hrec
    obtain ⟨t,-,ht,-⟩ := ht.split
    rw [List.append_cons, own_append] at hrec
    rw [List.append_cons] at hl
    exact (given_queued h₀ hout ht hl.of_append hrec.of_append).subset hgiven
  have hspoken := (spoken_of h₀ hout hf hc hu hb).of_earlier (heard_earlier hsuf)
  have hask : asksFor stage ∈ (heard before).filter isAsk :=
    List.mem_filter.mpr ⟨acked_asked (hears hf hspoken) hx hin,by cases stage <;> decide⟩
  obtain ⟨later,hlog⟩ := hsuf
  have hl : Lawful law before := (hlog ▸ reach_lawful hd).of_append
  rw [heard_asks hl (fresh_suffix hb (own_suffix .main ⟨later,hlog⟩))] at hask
  exact (sends_suffix (own_suffix .main hbefore)).subset hask

/-- What the interrupt thread told is not taken back. -/
theorem done_stays
    (hm : (⟨.rtkit (doneStore stage),()⟩ : Ev) ∈ own .irq c.log) :
    stage.done c.state.rb.rtkit = true := by
  have hd := hc.of_startingAt h₀
  have hl := reach_lawful hd
  have hmark : coreStore (doneWrite stage) ⟨.rtkit (doneStore stage),()⟩ ≠ none := by
    cases stage <;> exact Option.some_ne_none _
  by_contra hne
  obtain ⟨s₁,-,he⟩ := hd.trace.latest (fun s => stage.done s.rb.rtkit) (coreStore (doneWrite stage))
    fun s op r t hs => hs.2 ▸ (doneWrite_field stage).after s op r
  rw [Bool.not_eq_true] at hne
  rw [hne, latest_any _ true (List.mem_map.mpr ⟨_,mem_own.mp hm,rfl⟩) hmark] at he
  obtain ⟨later,i,⟨op,r⟩,earlier,hlog,ha,hlater⟩ := latest_log he.symm (by decide)
  obtain ⟨u,rfl,ha⟩ := of_coreStore ha
  obtain ⟨rfl,hclear⟩ := (doneWrite_false ha).boot (hlog ▸ hl).split
  obtain ⟨x,hx⟩ := (doneWrite_false ha).answer
  have hsuf : earlier <:+ c.log := hlog ▸ (List.suffix_cons _ _).trans (List.suffix_append _ _)
  have hstore : (.irq,(⟨.rtkit (doneStore stage),()⟩ : Ev)) ∈ earlier := by
    have hmem := mem_own.mp hm
    rw [hlog] at hmem
    obtain hin | hin := List.mem_append.mp hmem
    · exact absurd (hlater _ hin) hmark
    · exact (List.mem_cons.mp hin).resolve_left fun he => by cases he
  have hboot := (reach_boot h₀ hout hf hc hu).1
  rw [hlog, own_append, own_cons_self] at hboot
  exact hclear _ hboot.of_append.1 (fresh_suffix hb (own_suffix .main hsuf))
    (asked_before h₀ hout hf hc hu hb hx hsuf (mem_own.mpr hstore))

end Acks

/-- What the firmware queues fits into the words of the mailbox. -/
theorem decoded_queued {messages : List Msg} {g : FakeFirmware} (hh : Heard f messages g)
    (hx : x ∈ g.toAp) : decoded (x.2,x.1.setWidth 64) = x := by
  have hreq : ∀ y ∈ requests, decoded (y.2,y.1.setWidth 64) = y := by decide
  obtain ⟨e,m⟩ := x
  obtain h | h | h | h := hh.kinds _ hx
  · obtain rfl : e = epMgmt := beq_iff_eq.mp (Bool.and_eq_true_iff.mp h).1
    rfl
  · have hmem : (e,m) ∈ g.toAp.filter isRequest := List.mem_filter.mpr ⟨hx,h⟩
    rw [hh.inRequests] at hmem
    exact hreq _ (List.mem_of_mem_take hmem)
  · obtain ⟨rfl,rfl⟩ := Prod.mk.inj h
    rfl
  · obtain ⟨rfl,rfl⟩ := Prod.mk.inj h
    rfl

/-- The interrupt thread is idle, the outbox is empty, and the firmware has pushed everything. -/
structure Still (f : FakeFirmware) (c : Config Party Op Res World) : Prop where
  irq : c.thread .irq = .ret ()
  outbox : c.state.outbox = []
  pushed : ∀ msg0 msg1, ¬ plays f c.state c.log .firmware (.push msg0 msg1)

/-- With nothing on its way the setup and the script have come to their end. -/
theorem counted {k n : ℕ} (hk : k = ((setup f).take (1 + min n 2)).length)
    (hn : n = ((script f).take (scripted k)).length) :
    if acceptable f.hello = true then k = 3 ∧ n = 8 else k = 1 := by
  rw [List.length_take, setup] at hk
  rw [List.length_take, script] at hn
  split_ifs at hk hn ⊢ with ha
  · simp only [List.length_cons, List.length_nil] at hk hn
    obtain rfl | rfl | rfl : k = 1 ∨ k = 2 ∨ k = 3 := by omega
    · have h1 : scripted 1 = 1 := rfl
      omega
    · have h2 : scripted 2 = 2 := rfl
      omega
    · exact ⟨rfl,hn⟩
  · simp only [List.length_cons, List.length_nil] at hk
    omega

/-- What the core has done it told. -/
theorem own_done (hd : stage.done (ownCore h) = true) : (⟨.rtkit (doneStore stage),()⟩ : Ev) ∈ h := by
  rw [ownCore_latest (doneWrite_field stage) (by cases stage <;> rfl : stage.done .init = false)] at hd
  obtain ⟨later,⟨op,r⟩,earlier,rfl,ha,-⟩ := latest_split hd (by decide)
  obtain ⟨u,rfl,hu⟩ := of_coreStore ha
  obtain rfl := doneWrite_true hu
  exact List.mem_append_right _ List.mem_cons_self

section Quiet

variable (h₀ : Probed s₀) (hout : s₀.outbox = []) (hf : f.Fresh)
  (hc : (driver.startingAt s₀).Reach (plays f) c) (hu : Unhindered c.log)
  (hb : Fresh (own .main c.log)) (hs : Still f c)
include h₀ hout hf hc hu hb hs

theorem Still.given : (tallyOf c).given = (f.run (heard c.log)).toAp := by
  have hd := hc.of_startingAt h₀
  have hl := reach_lawful hd
  have hrec := reach_receive hd
  have hidle := (hd.lawful disciplined).2 .irq
  rw [hs.irq] at hidle
  have hqueue := (conserved_of h₀ hc.trace hl hrec).1.queue
  rw [hout, hs.outbox, List.nil_append, List.append_nil] at hqueue
  rw [(balanced_of hrec (hl.along .irq) hidle.1).given, ← hqueue]
  refine (pushes_queued hc.trace).eq_of_length (le_antisymm (pushes_queued hc.trace).length_le ?_)
  by_contra hlt
  rw [List.length_map, not_le] at hlt
  have hx := List.getElem?_eq_getElem hlt
  have hfits := decoded_queued (hears hf (spoken_of h₀ hout hf hc hu hb)) (List.getElem_mem hlt)
  exact hs.pushed _ _ (hx.trans (congrArg some hfits.symm))

/-- Then what boot asked for is answered. -/
theorem Still.answered (hask : asksFor stage ∈ sends (own .main c.log)) :
    stage.done c.state.rb.rtkit = true ∨ c.state.rb.rtkit.error ≠ 0 := by
  have hd := hc.of_startingAt h₀
  have hl := reach_lawful hd
  have hspoken := spoken_of h₀ hout hf hc hu hb
  have hh := hears hf hspoken
  have hgiven := hs.given h₀ hout hf hc hu hb
  have hidle := (hd.lawful disciplined).2 .irq
  rw [hs.irq] at hidle
  obtain ⟨handled,k,now,hk⟩ := (course_of h₀ hout hf hc hu hb).keeping _ List.suffix_rfl
  have hall := hk.given
  have hin := hk.inCall
  rw [hidle.2.current] at hall hin
  obtain ⟨rfl,hcore⟩ := hin
  rw [Option.toList_none, List.append_nil] at hall
  have hqueued : (f.run (heard c.log)).toAp = handled := hgiven.symm.trans hall
  have hk3 : setups handled = ((setup f).take (1 + min (spoken (heard c.log)) 2)).length := by
    rw [← hh.inSetup, hqueued]
    rfl
  have hn : spoken (heard c.log) = ((script f).take (scripted (setups handled))).length := by
    rw [spoken, heard_replies hl hu, hk.replies, said, List.filterMap_nil, List.append_nil]
  have hcount := counted hk3 hn
  cases hok : acceptable f.hello with
  | false =>
    rw [if_neg (by simp [hok])] at hcount
    have herr := hk.core.error
    rw [hcount, if_neg (by simp [hok]), ← hcore, ← error_own hd.trace hl fun e r hm =>
      no_fail (reach_boot h₀ hout hf hc hu).1 hb e r (mem_own.mpr hm)] at herr
    rw [herr]
    exact .inr (by decide)
  | true =>
    rw [if_pos hok] at hcount
    have hheard : asksFor stage ∈ heard c.log := by
      rw [← heard_asks hl hb] at hask
      exact (List.mem_filter.mp hask).1
    refine .inl (done_stays h₀ hout hf hc hu hb (own_done ?_))
    rw [hcore]
    cases stage with
    | epmap => exact hk.core.epmapDone.mpr hcount.1.ge
    | iopAck => exact (hk.core.power .iop (hqueued ▸ hh.iop.mpr ⟨by omega,hheard⟩)).2
    | apAck => exact (hk.core.power .ap (hqueued ▸ hh.ap.mpr hheard)).2

end Quiet

end AgxOpen.Rtbuddy
