import AgxOpen.Rtkit.Reception

/-!
# Version negotiation

The hello offers a range of versions. The core answers with the greatest one
that lies in its own range as well, or refuses.
-/
namespace AgxOpen.Rtkit
open Program

variable {has : Callbacks} {s t u : Rtkit} {acts : List CoreAct} {endpoint : U32} {message : U64}
  {version : U32}

/-- The hello offers the version and the core speaks it. -/
structure Common (message : U64) (version : U32) : Prop where
  lower : helloMin message ≤ version
  upper : version ≤ helloMax message
  spoken : protoMin ≤ version ∧ version ≤ protoMax

structure Best (message : U64) (version : U32) : Prop where
  common : Common message version
  greatest : ∀ other, Common message other → other ≤ version

/-- The version the core chooses. -/
def chosen (message : U64) : U32 := if helloMax message < protoMax then helloMax message else protoMax

theorem acceptable_of_common (hc : Common message version) : acceptable message = true := by
  obtain ⟨hlo,hhi,hmin,hmax⟩ := hc
  simp only [acceptable, Bool.and_eq_true, decide_eq_true_eq, BitVec.le_def] at *
  omega

theorem best_chosen (ha : acceptable message = true) : Best message (chosen message) := by
  have hmin : protoMin.toNat = 11 := rfl
  have hmax : protoMax.toNat = 12 := rfl
  simp only [acceptable, Bool.and_eq_true, decide_eq_true_eq, BitVec.le_def] at ha
  unfold chosen
  split_ifs with hlt
  · rw [BitVec.lt_def] at hlt
    refine ⟨⟨?_,BitVec.le_refl _,?_,?_⟩,fun other ho => ho.upper⟩
    all_goals rw [BitVec.le_def]; omega
  · rw [BitVec.not_lt, BitVec.le_def] at hlt
    refine ⟨⟨?_,?_,by decide,BitVec.le_refl _⟩,fun other ho => ho.spoken.2⟩
    all_goals rw [BitVec.le_def]; omega

theorem Common.eq_or (hc : Common message version) : version = 11#32 ∨ version = 12#32 := by
  obtain ⟨-,-,hmin,hmax⟩ := hc
  rw [BitVec.le_def] at hmin hmax
  have hlo : 11 ≤ version.toNat := hmin
  have hhi : version.toNat ≤ 12 := hmax
  simp only [← BitVec.toNat_inj, BitVec.toNat_ofNat]
  omega

/-- The message without its type. -/
def payload (message : U64) : U64 := message &&& ~~~(typeMask <<< typeShift)

/-- A reply to the hello that names the version as both ends of its range, and
nothing else. -/
structure NamesVersion (reply : U64) (version : U32) : Prop where
  type : msgType reply = mgmtHelloReply
  lower : helloMin reply = version
  upper : helloMax reply = version
  rest : payload reply >>> 32 = 0#64

theorem Common.named (hc : Common message version) :
    NamesVersion (helloReplyMsg version) version := by
  obtain rfl | rfl := hc.eq_or
  · exact ⟨by decide,by decide,by decide,by decide⟩
  · exact ⟨by decide,by decide,by decide,by decide⟩

/-- The one message sent is a reply that names the version. -/
def Agrees (version : U32) (s : Rtkit) (acts : List CoreAct) (u : Rtkit) : Prop :=
  ∃ reply r, acts.filterMap sent = [(epMgmt,reply,r)] ∧ NamesVersion reply version ∧
    u.version = version ∧ u.helloDone = (s.helloDone || r == 0)

/-- Nothing is sent and the failure is recorded. -/
def Declines (s : Rtkit) (acts : List CoreAct) (u : Rtkit) : Prop :=
  acts.filterMap sent = [] ∧ u.version = s.version ∧ u.helloDone = s.helloDone ∧
    u.error = if s.error = 0 then Status.einval else s.error

theorem meets_accepted (ha : acceptable message = true) (s : Rtkit) :
    Meets step (rxHello (corePort has) message)
      (fun acts _ u => ∃ r, acts.filterMap sent = [(epMgmt,helloReplyMsg (chosen message),r)] ∧
        u.version = chosen message ∧ u.helloDone = (s.helloDone || r == 0)) s := by
  unfold rxHello
  rw [if_neg ((acceptable_iff message).mp ha)]
  rintro - t ⟨-,rfl⟩ r u ⟨-,rfl⟩
  change Meets step ((if r ≠ 0 then _ else _) >>= _) _ _
  by_cases hr : r = 0
  · subst hr
    rintro - v ⟨-,rfl⟩
    exact ⟨0,rfl,rfl,by simp [after, Update.apply]⟩
  · rw [if_pos hr]
    rintro - v ⟨-,rfl⟩
    change Meets step (if r ≠ 0 then _ else _) _ _
    rw [if_pos hr]
    exact ⟨r,rfl,rfl,by simp [after, Update.apply, hr]⟩

theorem meets_refused (ha : acceptable message = false) (s : Rtkit) :
    Meets step (rxHello (corePort has) message) (fun acts _ u => Declines s acts u) s := by
  unfold rxHello
  rw [if_pos (not_not.mp (mt (acceptable_iff message).mpr (by simp [ha])))]
  rintro - t ⟨-,rfl⟩
  exact ⟨rfl,rfl,rfl,rfl⟩

theorem select_hello (hasApp : Bool) (ht : msgType message = mgmtHello) :
    select hasApp epMgmt message = .handler .hello := by
  rw [select, if_pos rfl, if_pos ht]

/-- A hello is answered with the greatest version that both sides speak, or
refused if there is none. -/
theorem hello_negotiates {ret : ℤ} (he : endpoint &&& 0xff#32 = epMgmt)
    (ht : msgType message = mgmtHello)
    (hr : (program has (.rx endpoint message)).Runs step s acts ret u) :
    ((∃ version, Common message version) → ∃ version, Best message version ∧ Agrees version s acts u) ∧
    ((¬ ∃ version, Common message version) → Declines s acts u) := by
  obtain ⟨before,during,rfl,hb,hd⟩ := rx_runs hr
  rw [he, select_hello _ ht] at hd
  refine ⟨fun hc => ?_,fun hc => ?_⟩
  · have ha : acceptable message = true := hc.elim fun version hv => acceptable_of_common hv
    have hbest := best_chosen ha
    obtain ⟨r,hsent,hversion,hdone⟩ := hd.post (meets_accepted ha _)
    refine ⟨chosen message,hbest,_,r,?_,hbest.common.named,hversion,hdone⟩
    rw [sent_counts hb, hsent]
  · have ha : acceptable message = false := by
      rw [← Bool.not_eq_true]
      exact fun ha => hc ⟨_,(best_chosen ha).common⟩
    obtain ⟨hsent,hversion,hdone,herror⟩ := hd.post (meets_refused ha _)
    exact ⟨by rw [sent_counts hb, hsent],hversion,hdone,herror⟩

theorem hello_negotiates_example : ∃ acts ret u,
    (program ⟨true,true,true⟩ (.rx epMgmt helloMsg)).Runs step init acts ret u ∧
    ∃ version, Best helloMsg version ∧ Agrees version init acts u := by
  have hx : ((program ⟨true,true,true⟩ (.rx epMgmt helloMsg)).execute (answer noMemory) init).any
      (fun _ => true) = true := by decide +kernel
  obtain ⟨acts,ret,u,hrun,-⟩ := Program.execute_any (answer_step noMemory) hx
  refine ⟨acts,ret,u,hrun,(hello_negotiates (by decide) (by decide) hrun).1 ⟨12#32,?_⟩⟩
  exact ⟨by decide,by decide,by decide,by decide⟩

end AgxOpen.Rtkit
