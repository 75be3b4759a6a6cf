import AgxOpen.Rtbuddy.CoreSession
import AgxOpen.Rtbuddy.HandlerOrder
import AgxOpen.Rtbuddy.Unwind
import AgxOpen.Rtkit.Requests

/-!
# The firmware of the tests behind the mailbox

The firmware hears what enters the inbox and pushes what it has queued, in its order and
whenever it likes. While nothing is refused the two sides keep to the script of the boot.
-/
namespace AgxOpen.Rtbuddy
open Rtkit

variable {f : FakeFirmware} {guard : World → RunLog → Party → Op → Prop} {s₀ s : World}
  {log : RunLog} {h h' : Hist} {c : Config Party Op Res World} {acts : List CoreAct}

/-- What the firmware was sent, oldest first. -/
def heard (log : RunLog) : List Msg := (inbox log).reverse

/-- The firmware pushes what it has queued and not pushed yet. -/
def plays (f : FakeFirmware) : World → RunLog → Party → Op → Prop
  | _, log, _, .push msg0 msg1 =>
    (f.run (heard log)).toAp[(pushes log).length]? = some (decoded (msg0,msg1))
  | _, _, _, _ => True

instance (f : FakeFirmware) (s : World) (log : RunLog) (i : Party) (op : Op) :
    Decidable (plays f s log i op) := by
  unfold plays
  split <;> infer_instance

theorem heard_cons (i : Party) (a : Ev) (log : RunLog) :
    heard ((i,a) :: log) = heard log ++ (entered a).toList := by
  rw [heard, inbox, List.filterMap_cons]
  cases entered a with
  | none => exact (List.append_nil _).symm
  | some x => exact List.reverse_cons

theorem pushes_queued (ht : (driver.startingAt s₀).Trace (plays f) s log) :
    (pushes log).map decoded <+: (f.run (heard log)).toAp := by
  induction ht with
  | init => exact List.nil_prefix
  | @act s log i op r t _ hg _ ih =>
    rw [heard_cons]
    cases op with
    | push msg0 msg1 =>
      obtain ⟨rest,hrest⟩ := ih
      have hnext : (f.run (heard log)).toAp[(pushes log).length]? = some (decoded (msg0,msg1)) := hg
      rw [← hrest, List.getElem?_append_right (by simp), List.length_map, Nat.sub_self] at hnext
      obtain ⟨tail,rfl⟩ : ∃ tail, rest = decoded (msg0,msg1) :: tail := by
        cases rest with
        | nil => contradiction
        | cons x tail => exact ⟨tail,by rw [Option.some.inj hnext]⟩
      change (pushes log ++ [(msg0,msg1)]).map decoded <+: (f.run (heard log ++ [])).toAp
      rw [List.append_nil, List.map_append, ← hrest]
      exact ⟨tail,List.append_assoc ..⟩
    | _ => exact ih.trans (f.run_keeps (List.prefix_append ..))

/-- The core is given what the firmware queued. -/
theorem given_queued (h₀ : Probed s₀) (hout : s₀.outbox = [])
    (ht : (driver.startingAt s₀).Trace (plays f) s log) (hl : Lawful law log)
    (ha : Along receiveLaw (own .irq log)) :
    (tally (own .irq log)).given <+: (f.run (heard log)).toAp := by
  obtain ⟨hq,-⟩ := conserved_of h₀ ht hl ha
  obtain ⟨flight,hf,-⟩ := flight_of ha
  refine List.IsPrefix.trans ?_ (pushes_queued ht)
  have hqueue := hq.queue
  rw [hout, List.nil_append] at hqueue
  rw [hqueue, List.map_append, hf, List.append_assoc]
  exact List.prefix_append ..

/-- The operation was not refused, and did not wait in vain. -/
def Succeeds : Ev → Prop
  | ⟨.send _ _,r⟩ => r = (0 : ℤ)
  | ⟨.requestIrq,r⟩ => r = (0 : ℤ)
  | ⟨.dmaAlloc _ _,r⟩ => r.1 ≠ 0
  | ⟨.wait _,r⟩ => r ≠ (0 : ℕ)
  | _ => True

instance : DecidablePred Succeeds := fun a => by
  unfold Succeeds
  split <;> infer_instance

def Unhindered (log : RunLog) : Prop := ∀ x ∈ log, Succeeds x.2

instance (log : RunLog) : Decidable (Unhindered log) := List.decidableBAll _ _

theorem Unhindered.of_cons {e : Party × Ev} (hu : Unhindered (e :: log)) : Unhindered log :=
  (List.forall_mem_cons.mp hu).2

theorem fresh_of_cons {e : Party × Ev} (hf : Fresh (own .main (e :: log))) :
    Fresh (own .main log) :=
  fun ret hr => hf ret (mem_own.mpr (List.mem_cons_of_mem _ (mem_own.mp hr)))

/-- What a word tells was not refused. -/
def Fine : Word → Prop
  | .send _ _ r => r = 0
  | .memory _ _ iova => iova ≠ none
  | .store _ => True

theorem words_fine (hs : ∀ a ∈ h, Succeeds a) : ∀ w ∈ words h, Fine w := by
  intro w hw
  obtain ⟨⟨op,r⟩,ha,he⟩ := List.mem_filterMap.mp (List.mem_reverse.mp hw)
  have hop := hs _ ha
  cases op with
  | rtkit u =>
    obtain rfl := Option.some.inj he
    trivial
  | send endpoint message =>
    obtain rfl := Option.some.inj he
    exact hop
  | dmaAlloc slot size =>
    obtain rfl := Option.some.inj he
    rw [Fine, if_neg hop]
    exact nofun
  | _ => contradiction

theorem Unhindered.own (hu : Unhindered log) (i : Party) : ∀ a ∈ own i log, Succeeds a :=
  fun _ ha => hu _ (mem_own.mp ha)

/-- Every request of the firmware gets its buffer. -/
theorem smooth_of (hd : Driven acts) (hw : ∀ w ∈ acts.filterMap coreWord, Fine w)
    (hsub : (acts.filterMap asked).Sublist (requests.map wants)) : Smooth acts := by
  intro a ha
  obtain ⟨earlier,later,rfl⟩ := List.append_of_mem ha
  obtain ⟨op,r⟩ := a
  have hfine {w : Word} (hc : coreWord ⟨op,r⟩ = some w) : Fine w :=
    hw w (List.mem_filterMap.mpr ⟨_,ha,hc⟩)
  cases op with
  | send endpoint message => exact if_pos (hfine rfl)
  | buffer endpoint size iova =>
    have hans := hd _ _ _ _ rfl
    have hmem : (endpoint,size,iova) ∈ requests.map wants :=
      hsub.subset (List.mem_filterMap.mpr ⟨_,ha,rfl⟩)
    have hslot : ∀ y ∈ requests.map wants, ¬ (shmemSlot y.1 = none ∨ y.2.2 ≠ 0#64 ∨ y.2.1 > shmemMax) := by
      decide
    have hnone : earlier.any (gives endpoint) = false := by
      rw [← Bool.not_eq_true, List.any_eq_true]
      rintro ⟨⟨op',r'⟩,hb,hg⟩
      cases op' with
      | buffer e size' iova' =>
        obtain ⟨rfl,-⟩ : e = endpoint ∧ r'.1 = (0 : ℤ) := by simpa [gives] using hg
        have hnodup : (((requests.map wants).map fun y => y.1)).Nodup := by decide
        have hboth := (hsub.map fun y => y.1).nodup hnodup
        rw [List.filterMap_append, List.map_append, List.nodup_append] at hboth
        refine hboth.2.2 e ?_ e ?_ rfl
        · exact List.mem_map.mpr ⟨_,List.mem_filterMap.mpr ⟨_,hb,rfl⟩,rfl⟩
        · exact List.mem_map.mpr ⟨_,List.mem_filterMap.mpr ⟨_,List.mem_cons_self,rfl⟩,rfl⟩
      | _ => contradiction
    rw [BufferAnswered, refusal, if_neg (hslot _ hmem), hnone, if_neg (by simp)] at hans
    obtain h0 | hno := hans
    · exact if_pos h0
    · obtain ⟨slot,hs⟩ := Option.ne_none_iff_exists'.mp fun hn => hslot _ hmem (.inl hn)
      refine absurd rfl (hfine (w := .memory slot size none) ?_)
      simp [coreWord, hno, hs, Status.enomem]
  | _ => rfl

/-- What the word tells of the management endpoint. -/
def saidWord : Word → Option Msg
  | .send endpoint message _ => if endpoint = epMgmt then some (endpoint,message) else none
  | _ => none

theorem said_words (acts : List CoreAct) :
    said acts = (acts.filterMap coreWord).filterMap saidWord := by
  rw [said, List.filterMap_filterMap]
  congr 1
  funext a
  obtain ⟨op,r⟩ := a
  cases op with
  | buffer endpoint size iova =>
    simp only [saidAct, coreWord]
    cases shmemSlot endpoint <;> split_ifs <;> rfl
  | _ => rfl

/-- What the thread sent on the management endpoint. -/
def replies (h : Hist) : List Msg := (words h).filterMap saidWord

/-- The thread is where the firmware expects the core. -/
structure Keeping (f : FakeFirmware) (h : Hist) (handled : List Msg) (k : Rtkit)
    (now : List CoreAct) : Prop where
  told : Rtkit.Told f (tally h).given
  given : (tally h).given = handled ++ (current h).toList
  core : CoreAt f handled k
  inCall : InCall k now (ownCore h) (current h)
  replies : replies h = (script f).take (scripted (setups handled)) ++ said now
  script : Rtbuddy.replies h <+: script f
  error : (ownCore h).error ≠ 0 → acceptable f.hello = false ∧ (ownCore h).error = Status.einval

theorem rxCall_injective : Function.Injective rxCall := by
  rintro ⟨e,m⟩ ⟨e',m'⟩ he
  cases he
  rfl

theorem keeping (hf : Following h) (hs : ∀ a ∈ h, Succeeds a)
    (ht : Rtkit.Told f (tally h).given) : ∃ handled k now, Keeping f h handled k now := by
  obtain ⟨done,k,now,hrun,hin,htr⟩ := hf
  obtain ⟨handled,rest,hgiven,hcalls,hrest⟩ := List.map_eq_append_iff.mp htr.given.symm
  obtain rfl : rest = (current h).toList := by
    refine rxCall_injective.list_map ?_
    rw [hrest]
    cases current h <;> rfl
  have hnow : (now.filterMap asked).Sublist ((current h).toList.flatMap wanted) := by
    cases hcur : current h with
    | none =>
      rw [hcur] at hin
      rw [hin.1]
      exact List.nil_sublist _
    | some x =>
      rw [hcur] at hin
      obtain ⟨q,hq⟩ := hin
      simpa using (running_asked hq).sublist
  have hasked : ((actsOf done ++ now).filterMap asked).Sublist (requests.map wants) := by
    refine List.Sublist.trans ?_ ht.asked
    rw [hgiven, List.filterMap_append, List.flatMap_append]
    exact (session_asked hrun hcalls.symm).append hnow
  have hsmooth : Smooth (actsOf done ++ now) :=
    smooth_of htr.driven (htr.words ▸ words_fine hs) hasked
  obtain ⟨hdone,hnowS⟩ := smooth_append.mp hsmooth
  have hhandled : Rtkit.Told f handled := ht.of_earlier (hgiven ▸ List.prefix_append ..)
  obtain ⟨hat,hsaid⟩ := session_at rfl hrun (coreAt_init f) hcalls.symm hhandled
    fun d hd a ha => hdone a (List.mem_flatMap.mpr ⟨d,hd,ha⟩)
  have hreplies : replies h = (script f).take (scripted (setups handled)) ++ said now := by
    rw [replies, htr.words, ← said_words, said_append]
    exact congrArg (· ++ said now) hsaid
  cases hcur : current h with
  | none =>
    rw [hcur] at hin hgiven
    obtain ⟨rfl,hk⟩ := hin
    refine ⟨handled,k,[],ht,hcur ▸ hgiven,hat,by rw [hcur]; exact ⟨rfl,hk⟩,hreplies,?_,?_⟩
    · rw [hreplies, said, List.filterMap_nil, List.append_nil]
      exact List.take_prefix ..
    · rw [hk]
      exact hat.no_error
  | some x =>
    rw [hcur] at hin hgiven
    obtain ⟨q,hq⟩ := hin
    obtain ⟨hpre,herr⟩ := running_at rfl (hgiven ▸ ht) hat hq hnowS
    refine ⟨handled,k,now,ht,hcur ▸ hgiven,hat,by rw [hcur]; exact ⟨q,hq⟩,hreplies,?_,herr⟩
    rw [hreplies]
    exact hpre.trans (List.take_prefix ..)

theorem replies_cons (a : Ev) (h : Hist) :
    replies (a :: h) = replies h ++ (word a).toList.filterMap saidWord := by
  rw [replies, words_cons, List.filterMap_append]
  rfl

/-- The core replies on the management endpoint and serves the others. -/
theorem IrqSend.kind {endpoint : U32} {m : U64} (hs : IrqSend endpoint m) :
    endpoint = epMgmt ∧ isReply (endpoint,m) = true ∨
      endpoint ≠ epMgmt ∧ packMsg1 endpoint ≠ epMgmt := by
  cases hs with
  | helloReply version => exact .inl ⟨rfl,by simp [isReply, msgType_helloReplyMsg]⟩
  | epmapReply base last => exact .inl ⟨rfl,by simp [isReply, msgType_epmapReplyMsg]⟩
  | startep he =>
    have hlt := isSystem_small he
    have hep := startepEndpoint_startepMsg (lt_trans (BitVec.lt_def.mp hlt) (by decide))
    exact .inl ⟨rfl,by simp [isReply, msgType_startepMsg, hep, hlt]⟩
  | system m he => exact .inr (by obtain rfl | rfl | rfl | rfl | rfl := isSystem_cases he <;> decide)

theorem FoundRunning.booted {ret : ℤ} (hr : FoundRunning ret h) : Booted ret h := by
  obtain ⟨later,earlier,s₁,s₀,rfl,-,-⟩ := hr
  simp [Booted]

/-- Boot asks, and remove powers down. -/
theorem MainSend.kind {m : U64} (hs : MainSend h m) :
    isReply (epMgmt,m) = false ∧ (Fresh h → (epMgmt,m) ∈ asks) := by
  cases hs with
  | iopInit | apOn => exact ⟨by decide,fun _ => by decide⟩
  | startep hc hi he =>
    obtain rfl | ⟨rfl,-⟩ := he
    · exact ⟨by decide,fun _ => by decide⟩
    · exact ⟨by decide,fun _ => by decide⟩
  | quiesce hr | sleep hr => exact ⟨by decide,fun hf => absurd hr.booted (hf _)⟩

theorem gpu_kind {endpoint : U32} (he : endpoint = epFirmware ∨ endpoint = epDoorbell) :
    packMsg1 endpoint ≠ epMgmt := by
  obtain rfl | rfl := he <;> decide

theorem isReply_of_ne {endpoint : U32} {m : U64} (he : endpoint ≠ epMgmt) :
    isReply (endpoint,m) = false := by
  simp [isReply, he]

/-- The firmware hears the replies of the interrupt thread and no others. -/
theorem heard_replies (hl : Lawful law log) (hu : Unhindered log) :
    (heard log).filter isReply = replies (own .irq log) := by
  induction log with
  | nil => rfl
  | cons e log ih =>
    obtain ⟨j,op,r⟩ := e
    rw [heard_cons, List.filter_append, ih hl.2 hu.of_cons]
    have hfine : Succeeds ⟨op,r⟩ := hu _ List.mem_cons_self
    by_cases hj : j = .irq
    · subst hj
      rw [own_cons_self, replies_cons]
      congr 1
      cases op with
      | send endpoint m =>
        obtain rfl : r = 0 := hfine
        obtain ⟨-,hs⟩ := hl.1.resolve_left (by simp)
        obtain ⟨rfl,hx⟩ | ⟨hne,hp⟩ := IrqSend.kind hs
        · exact List.filter_cons_of_pos hx
        · simp [entered, word, saidWord, hne, isReply_of_ne hp]
      | _ => rfl
    · rw [own_cons_ne hj]
      refine (congrArg _ ?_).trans (List.append_nil _)
      cases op with
      | send endpoint m =>
        obtain rfl : r = 0 := hfine
        cases j with
        | main =>
          obtain ⟨rfl,hs⟩ := hl.1
          exact List.filter_cons_of_neg (Bool.eq_false_iff.mp (MainSend.kind hs).1)
        | irq => contradiction
        | gpu n => exact List.filter_cons_of_neg (Bool.eq_false_iff.mp (isReply_of_ne (gpu_kind hl.1.1)))
        | firmware => exact hl.1.elim
      | _ => rfl

/-- Whatever is no reply is one of the four requests of boot, or not for the management endpoint. -/
theorem heard_other {i : Party} {op : Op} {r : Res op} {x : Msg} (hl : law i (own i log) op)
    (hf : Fresh (own .main log)) (he : entered ⟨op,r⟩ = some x) (hx : isReply x = false) :
    x ∈ asks ∨ x.1 ≠ epMgmt := by
  cases op with
  | send endpoint m =>
    obtain ⟨-,rfl⟩ : r = (0 : ℤ) ∧ (packMsg1 endpoint,m) = x := by simpa [entered] using he
    cases i with
    | main =>
      obtain ⟨rfl,hs⟩ := hl
      exact .inl ((MainSend.kind hs).2 hf)
    | irq =>
      obtain ⟨-,hs⟩ := hl.resolve_left (by simp)
      obtain ⟨rfl,hr⟩ | ⟨-,hp⟩ := IrqSend.kind hs
      · exact absurd (hr.symm.trans hx) (by decide)
      · exact .inr hp
    | gpu n => exact .inr (gpu_kind hl.1)
    | firmware => exact hl.elim
  | _ => contradiction

section Boots

variable (h₀ : Probed s₀) (hout : s₀.outbox = []) (hf : f.Fresh)
include h₀ hout hf

/-- The driver keeps to the script. -/
theorem spoken_of (hc : (driver.startingAt s₀).Reach (plays f) c) (hu : Unhindered c.log)
    (hb : Fresh (own .main c.log)) : Spoken f (heard c.log) := by
  induction hc with
  | init => exact ⟨List.nil_prefix,nofun⟩
  | @step c d hc hs ih =>
    have hd : driver.Reach (plays f) d := (hc.step hs).of_startingAt h₀
    cases hs with
    | start => exact ih hu hb
    | @act i op next r t hthread hg hs =>
      have hspoken := ih hu.of_cons (fresh_of_cons hb)
      have hlaw := reach_lawful hd
      rw [heard_cons]
      cases he : entered ⟨op,r⟩ with
      | none => simpa using hspoken
      | some x =>
        have hgiven : (tally (own .irq ((i,⟨op,r⟩) :: c.log))).given = (tallyOf c).given := by
          cases op with
          | send =>
            by_cases hi : i = .irq
            · subst hi
              rw [own_cons_self]
              rfl
            · rw [own_cons_ne hi]
          | _ => contradiction
        have hgave := given_queued h₀ hout hc.trace hlaw.2 (reach_receive (hc.of_startingAt h₀))
        obtain ⟨handled,k,now,hk⟩ := keeping (f := f) (reach_following hd) (hu.own .irq)
          (hgiven ▸ (hears hf hspoken).told hgave)
        constructor
        · have hreplies := heard_replies hlaw hu
          rw [heard_cons, he] at hreplies
          exact hreplies ▸ hk.script
        · intro y hy hr
          obtain hy | hy := List.mem_append.mp hy
          · exact hspoken.others y hy hr
          · obtain rfl := List.mem_singleton.mp hy
            exact heard_other hlaw.1 (fresh_of_cons hb) he hr

end Boots

end AgxOpen.Rtbuddy
