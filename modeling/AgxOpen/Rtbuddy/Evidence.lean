import AgxOpen.Rtbuddy.Runs

/-!
# What a flag proves about the log

A flag that is set, or a power level that is on, was stored while a message that
calls for it was handled.
-/
namespace AgxOpen.Rtbuddy
open Rtkit

variable {guard : World → RunLog → Party → Op → Prop} {s : World} {log log' : RunLog}

/-- The interrupt thread received the management message and made the store for it. -/
def Handled (log : RunLog) (m : U64) (u : Update) : Prop :=
  ∃ later earlier, log = later ++ (.irq,⟨.mark (.rx epMgmt m),()⟩) :: earlier ∧
    (.irq,⟨.rtkit u,()⟩) ∈ later

/-- An acknowledgement of a power state whose level is on was processed. -/
def LevelOn (type : U32) (store : U32 → Update) (log : RunLog) : Prop :=
  ∃ m, msgType m = type ∧ levelOn (powerState m) = true ∧ Handled log m (store (powerState m))

abbrev IopOn : RunLog → Prop := LevelOn mgmtIopPwrAck .iopPower

abbrev ApOn : RunLog → Prop := LevelOn mgmtApPwrAck .apPower

/-- A processed message of the roll call announced the endpoint. -/
def Announced (log : RunLog) (endpoint : U32) : Prop :=
  ∃ m, msgType m = mgmtEpmap ∧ covers m endpoint = true ∧
    Handled log m (.orEndpoints (epmapBase m).toNat (epmapBitmap m))

/-- The message entered the inbox. -/
def Entered (log : RunLog) (m : U64) : Prop :=
  ∃ i, (i,(⟨.send epMgmt m,(0 : ℤ)⟩ : Ev)) ∈ log

/-- The last message of the roll call was fully processed: it was replied to, and
the announced system endpoints were started. -/
def RollCalled (log : RunLog) : Prop :=
  ∃ m after during before, log = after ++ (.irq,⟨.rtkit .epmapDone,()⟩) ::
      (during ++ (.irq,⟨.mark (.rx epMgmt m),()⟩) :: before) ∧
    msgType m = mgmtEpmap ∧ epmapIsLast m = true ∧
    Entered during (epmapReplyMsg (epmapBase m) true) ∧
    ∀ endpoint, isSystem endpoint = true →
      Announced (during ++ (.irq,⟨.mark (.rx epMgmt m),()⟩) :: before) endpoint →
        Entered during (startepMsg endpoint)

theorem Handled.mono {m : U64} {u : Update} (hh : Handled log m u) (hs : log <:+ log') :
    Handled log' m u := by
  obtain ⟨later,earlier,rfl,hu⟩ := hh
  obtain ⟨l,rfl⟩ := hs
  exact ⟨l ++ later,earlier,(List.append_assoc ..).symm,List.mem_append_right _ hu⟩

theorem LevelOn.mono {type : U32} {store : U32 → Update} (hh : LevelOn type store log)
    (hs : log <:+ log') : LevelOn type store log' := by
  obtain ⟨m,ht,hl,hm⟩ := hh
  exact ⟨m,ht,hl,hm.mono hs⟩

theorem Announced.mono {endpoint : U32} (hh : Announced log endpoint) (hs : log <:+ log') :
    Announced log' endpoint := by
  obtain ⟨m,ht,hc,hm⟩ := hh
  exact ⟨m,ht,hc,hm.mono hs⟩

theorem Entered.mono {m : U64} (hh : Entered log m) (hs : log <:+ log') : Entered log' m := by
  obtain ⟨i,hm⟩ := hh
  exact ⟨i,hs.subset hm⟩

theorem RollCalled.mono (hh : RollCalled log) (hs : log <:+ log') : RollCalled log' := by
  obtain ⟨m,after,during,before,rfl,hm⟩ := hh
  obtain ⟨l,rfl⟩ := hs
  exact ⟨m,l ++ after,during,before,(List.append_assoc ..).symm,hm⟩

theorem Sent.entered {i : Party} {m : U64} (hs : Sent m (own i log)) : Entered log m :=
  ⟨i,mem_own.mp hs⟩

theorem current_split {h : Hist} {endpoint : U32} {m : U64}
    (hc : current h = some (endpoint,m)) :
    ∃ earlier, h = since h ++ ⟨.mark (.rx endpoint m),()⟩ :: earlier := by
  induction h with
  | nil => contradiction
  | cons a h ih =>
    obtain ⟨op,r⟩ := a
    cases hm : messageMark ⟨op,r⟩ with
    | none =>
      rw [current, latest_cons, hm, Option.getD_none] at hc
      obtain ⟨earlier,he⟩ := ih hc
      refine ⟨earlier,?_⟩
      conv_lhs => rw [he]
      simp [since, hm]
    | some x =>
      rw [current, latest_cons, hm, Option.getD_some] at hc
      subst hc
      refine ⟨h,?_⟩
      cases op with
      | mark k =>
        cases k with
        | rx e' m' =>
          obtain ⟨rfl,rfl⟩ : e' = endpoint ∧ m' = m := by simpa [messageMark] using hm
          simp [since, messageMark]
        | _ => simp [messageMark] at hm
      | _ => simp [messageMark] at hm

/-- A message being handled is in the log, and what was done about it since. -/
theorem handling_split {m : U64} (hc : current (own .irq log) = some (epMgmt,m)) :
    ∃ later earlier, log = later ++ (.irq,⟨.mark (.rx epMgmt m),()⟩) :: earlier ∧
      own .irq later = since (own .irq log) := by
  obtain ⟨earlier,he⟩ := current_split hc
  obtain ⟨after,before,hlog,ha,-⟩ := own_split he
  exact ⟨after,before,hlog,ha⟩

/-- A store of the interrupt thread for a message it handles. -/
theorem handled_store {u : Update} {later earlier : RunLog} {m : U64}
    (hlog : log = later ++ (.irq,⟨.rtkit u,()⟩) :: earlier)
    (hc : current (own .irq earlier) = some (epMgmt,m)) : Handled log m u := by
  obtain ⟨a,b,rfl,-⟩ := handling_split hc
  subst hlog
  refine ⟨later ++ (.irq,⟨.rtkit u,()⟩) :: a,b,by simp,?_⟩
  exact List.mem_append_right _ List.mem_cons_self

/-- A field that is not as `agx_rtbuddy_probe` left it was stored, and not stored again since. -/
theorem stored {β : Type} {init : β} (ht : Ran guard s log) (get : World → β) (g : Ev → Option β)
    (hstep : ∀ s op (r : Res op), get (s.after op r) = (g ⟨op,r⟩).getD (get s))
    (hinit : ∀ s, Probed s → get s = init) (hne : get s ≠ init) :
    ∃ later i a earlier, log = later ++ (i,a) :: earlier ∧ g a = some (get s) ∧
      ∀ e ∈ later, g e.2 = none := by
  obtain ⟨s₀,h₀,he⟩ := ht.latest get g fun s op r t hs => hs.2 ▸ hstep s op r
  rw [hinit s₀ h₀] at he
  exact latest_log he.symm hne

theorem of_coreStore {β : Type} {g : Update → Option β} {op : Op} {r : Res op} {value : β}
    (h : coreStore g ⟨op,r⟩ = some value) : ∃ u, op = .rtkit u ∧ g u = some value := by
  cases op with
  | rtkit u => exact ⟨u,rfl,h⟩
  | _ => contradiction

/-- The same of a field of the core. -/
theorem core_stored {β : Type} {init : β} (ht : Ran guard s log) {get : Rtkit → β}
    {g : Update → Option β} (hg : CoreField get g) (hinit : get .init = init)
    (hne : get s.rb.rtkit ≠ init) :
    ∃ later i u earlier, log = later ++ (i,⟨.rtkit u,()⟩) :: earlier ∧
      g u = some (get s.rb.rtkit) ∧ ∀ e ∈ later, coreStore g e.2 = none := by
  obtain ⟨later,i,⟨op,r⟩,earlier,rfl,ha,hlater⟩ := stored ht (fun s => get s.rb.rtkit)
    (coreStore g) hg.after (fun s h₀ => by rw [h₀.rb]; exact hinit) hne
  obtain ⟨u,rfl,hu⟩ := of_coreStore ha
  exact ⟨later,i,u,earlier,rfl,hu,hlater⟩

/-- A field that an update wrote is as some update wrote it. -/
theorem core_written {β : Type} (ht : Ran guard s log) {get : Rtkit → β} {g : Update → Option β}
    (hg : CoreField get g) {i : Party} {u : Update} (hm : (i,(⟨.rtkit u,()⟩ : Ev)) ∈ log)
    (hu : g u ≠ none) :
    ∃ j v, (j,(⟨.rtkit v,()⟩ : Ev)) ∈ log ∧ g v = some (get s.rb.rtkit) := by
  obtain ⟨s₀,-,he⟩ := ht.latest (fun s => get s.rb.rtkit) (coreStore g)
    fun s op r t hs => hs.2 ▸ hg.after s op r
  obtain ⟨⟨op,r⟩,hmem,hv⟩ := latest_mem (coreStore g) (get s₀.rb.rtkit)
    (List.mem_map_of_mem (f := Prod.snd) hm) hu
  obtain ⟨⟨j,a⟩,hj,rfl⟩ := List.mem_map.mp hmem
  obtain ⟨v,rfl,hg⟩ := of_coreStore (hv.trans (congrArg some he.symm))
  exact ⟨j,v,hj,hg⟩

def levelWrite : Power → Update → Option U32
  | .ap, .apPower state => some state
  | .iop, .iopPower state => some state
  | _, _ => none

theorem levelWrite_field (p : Power) : CoreField p.level (levelWrite p) := by
  intro k u
  cases p <;> cases u <;> rfl

theorem levelWrite_eq {p : Power} {u : Update} {state : U32} (h : levelWrite p u = some state) :
    u = p.setLevel state := by
  cases p <;> cases u <;> first | exact Option.some.inj h ▸ rfl | contradiction

theorem level_law {p : Power} {i : Party} {h : Hist} {state : U32}
    (hl : law i h (.rtkit (p.setLevel state))) :
    i = .irq ∧ Handles h p.ackType fun m => state = powerState m := by
  cases p <;> cases i with
  | irq => exact ⟨rfl,(hl.resolve_left (by simp)).2⟩
  | _ => exact hl.elim

def epmapWrite : Update → Option Bool
  | .epmapDone => some true
  | _ => none

def firmwareStore : Ev → Option Bool := ownStore fun
  | .firmwareUp value => some value
  | _ => none

def doorbellStore : Ev → Option Bool := ownStore fun
  | .doorbellUp value => some value
  | _ => none

theorem doorbellUp_field : OwnField (fun s => s.doorbellUp) fun
    | .doorbellUp value => some value
    | _ => none :=
  ⟨fun _ f => by cases f <;> rfl,fun _ _ => rfl,fun _ _ _ => rfl⟩

section Flags

variable (ht : Ran guard s log) (hl : Lawful law log)
include ht hl

/-- A power level that is on was stored for an acknowledgement. -/
theorem levelOn_of (p : Power) (hon : levelOn (p.level s.rb.rtkit) = true) :
    LevelOn p.ackType p.setLevel log := by
  have hne : p.level s.rb.rtkit ≠ pwrOff := by
    intro h0
    rw [h0] at hon
    contradiction
  obtain ⟨later,i,u,earlier,rfl,hu,-⟩ := core_stored ht (levelWrite_field p) (by cases p <;> rfl) hne
  obtain rfl := levelWrite_eq hu
  obtain ⟨rfl,m,hc,htype,he⟩ := level_law hl.split
  rw [he] at hon
  exact ⟨m,htype,hon,he ▸ handled_store rfl hc⟩

theorem doorbellStarted_of (hf : s.rb.doorbellUp = true) :
    Entered log (startepMsg epFirmware) ∧ Entered log (startepMsg epDoorbell) := by
  have hne : s.rb.doorbellUp ≠ false := by simp [hf]
  obtain ⟨later,i,⟨op,r⟩,earlier,rfl,ha,-⟩ := stored ht (fun s => s.rb.doorbellUp)
    doorbellStore doorbellUp_field.after (fun s h₀ => by rw [h₀.rb]; rfl) hne
  have hlaw := hl.split
  obtain rfl : op = .store (.doorbellUp true) := by
    cases op with
    | store f =>
      cases f with
      | doorbellUp v => rw [Option.some.inj ha, hf]
      | _ => contradiction
    | _ => contradiction
  have hsuf := (List.suffix_cons _ earlier).trans
    (List.suffix_append later ((i,(⟨.store (.doorbellUp true),r⟩ : Ev)) :: earlier))
  cases i with
  | main =>
    obtain ⟨hfw,hdb⟩ := hlaw rfl
    exact ⟨hfw.entered.mono hsuf,hdb.entered.mono hsuf⟩
  | irq => exact absurd hlaw (by simp [law, irqLaw, irqStep])
  | _ => exact hlaw.elim

/-- The interrupt is requested only once INIT is in the inbox. -/
theorem init_of_registered (hr : s.irqRegistered = true) : Entered log (iopPowerMsg pwrInit) := by
  rw [irqRegistered_eq ht hl] at hr
  obtain ⟨later,⟨op,r⟩,earlier,he,ha,-⟩ := latest_split hr (by decide)
  obtain ⟨after,before,rfl,-,rfl⟩ := own_split he
  have hlaw := hl.split
  cases op with
  | requestIrq =>
    exact (Sent.entered hlaw.1).mono ((List.suffix_cons _ _).trans (List.suffix_append _ _))
  | _ => simp [armsIrq] at ha

theorem init_of_inside (hi : inside (own .irq log) = true) : Entered log (iopPowerMsg pwrInit) := by
  refine init_of_registered ht hl (irqBusy_registered ht ?_)
  rw [irqBusy_eq ht hl, hi]

end Flags

theorem endpointsOf_cases {h : Hist} {base n : ℕ} (hb : bitSet (endpointsOf h base) n = true) :
    base = 0 ∧ n = 0 ∨
      ∃ bitmap, (⟨.rtkit (.orEndpoints base bitmap),()⟩ : Ev) ∈ h ∧ bitSet bitmap n = true := by
  induction h with
  | nil =>
    rw [bitSet_eq] at hb
    by_cases h0 : base = 0
    · subst h0
      exact .inl ⟨rfl,by simpa [endpointsOf, Rtkit.init] using hb⟩
    · simp [endpointsOf, Rtkit.init, h0] at hb
  | cons a h ih =>
    have hrest : bitSet (endpointsOf h base) n = true → base = 0 ∧ n = 0 ∨
        ∃ bitmap, (⟨.rtkit (.orEndpoints base bitmap),()⟩ : Ev) ∈ a :: h ∧ bitSet bitmap n = true :=
      fun hb => (ih hb).imp_right fun ⟨bitmap,hm,hbit⟩ => ⟨bitmap,List.mem_cons_of_mem a hm,hbit⟩
    obtain ⟨op,r⟩ := a
    cases op with
    | rtkit u =>
      cases u with
      | orEndpoints base' bitmap =>
        by_cases hbase : base = base'
        · subst hbase
          rw [bitSet_eq] at hb
          have hor : (endpointsOf h base ||| bitmap).getLsbD n = true := by
            simpa [endpointsOf, orsEndpoints] using hb
          rw [BitVec.getLsbD_or, Bool.or_eq_true, ← bitSet_eq, ← bitSet_eq] at hor
          obtain hold | hnew := hor
          · exact hrest hold
          · exact .inr ⟨bitmap,List.mem_cons_self,hnew⟩
        · refine hrest ?_
          simpa [endpointsOf, orsEndpoints, hbase] using hb
      | _ => exact hrest hb
    | _ => exact hrest hb

theorem endpointsOf_mem {h : Hist} {base n : ℕ} {bitmap : U32}
    (hm : (⟨.rtkit (.orEndpoints base bitmap),()⟩ : Ev) ∈ h) (hb : bitSet bitmap n = true) :
    bitSet (endpointsOf h base) n = true := by
  induction h with
  | nil => contradiction
  | cons a h ih =>
    obtain hm | hm := List.mem_cons.mp hm
    · subst hm
      rw [bitSet_eq] at hb ⊢
      simp [endpointsOf, orsEndpoints, hb]
    · have hold := ih hm
      obtain ⟨op,r⟩ := a
      cases op with
      | rtkit u =>
        cases u with
        | orEndpoints base' bitmap' =>
          by_cases hbase : base = base'
          · subst hbase
            rw [bitSet_eq] at hold ⊢
            have hor : (endpointsOf h base ||| bitmap').getLsbD n = true := by
              rw [BitVec.getLsbD_or, hold, Bool.true_or]
            simpa [endpointsOf, orsEndpoints] using hor
          · simpa [endpointsOf, orsEndpoints, hbase] using hold
        | _ => exact hold
      | _ => exact hold

theorem endpoint_zero {endpoint : U32} (hd : (endpoint / 32#32).toNat = 0)
    (hm : (endpoint % 32#32).toNat = 0) : endpoint = 0#32 := by
  have h1 : endpoint.toNat / 32 = 0 := hd
  have h2 : endpoint.toNat % 32 = 0 := hm
  apply BitVec.eq_of_toNat_eq
  simp only [BitVec.toNat_ofNat]
  omega

section Map

variable (hl : Lawful law log)
include hl

/-- A bit of the map was announced by a processed message. -/
theorem announced_of {endpoint : U32} (ha : announcedIn (own .irq log) endpoint = true)
    (hne : endpoint ≠ epMgmt) : Announced log endpoint := by
  obtain ⟨hd,hm⟩ | ⟨bitmap,hm,hbit⟩ := endpointsOf_cases ha
  · exact absurd (endpoint_zero hd hm) hne
  · obtain ⟨later,earlier,rfl,hlaw⟩ := hl.mem (mem_own.mp hm)
    obtain ⟨-,m,hc,htype,hbase,rfl⟩ := hlaw.resolve_left (by simp)
    refine ⟨m,htype,?_,hbase ▸ handled_store rfl hc⟩
    rw [covers, Bool.and_eq_true, beq_iff_eq]
    exact ⟨BitVec.eq_of_toNat_eq hbase.symm,hbit⟩

end Map

/-- What a processed message announced is in the map. -/
theorem Announced.mapped {endpoint : U32} (ha : Announced log endpoint) :
    announcedIn (own .irq log) endpoint = true := by
  obtain ⟨m,-,hc,later,earlier,rfl,hu⟩ := ha
  rw [covers, Bool.and_eq_true, beq_iff_eq] at hc
  refine endpointsOf_mem (?_ : (⟨.rtkit (.orEndpoints _ (epmapBitmap m)),()⟩ : Ev) ∈ _) hc.2
  rw [← hc.1]
  exact mem_own.mpr (List.mem_append_left _ hu)

theorem rollCalled_of (ht : Ran guard s log) (hl : Lawful law log)
    (hd : s.rb.rtkit.epmapDone = true) : RollCalled log := by
  have hne : s.rb.rtkit.epmapDone ≠ false := by simp [hd]
  have hfield : CoreField (fun k => k.epmapDone) epmapWrite := fun _ u => by cases u <;> rfl
  obtain ⟨later,i,u,earlier,rfl,hu,-⟩ := core_stored ht hfield rfl hne
  have hlaw := hl.split
  obtain rfl : u = .epmapDone := by cases u <;> first | rfl | contradiction
  cases i with
  | irq =>
    obtain ⟨-,m,hc,htype,hlast,hreply,hstart⟩ := hlaw.resolve_left (by simp)
    obtain ⟨during,before,rfl,hown⟩ := handling_split hc
    rw [← hown] at hreply hstart
    refine ⟨m,later,during,before,rfl,htype,hlast,hreply.entered,fun endpoint he han => ?_⟩
    exact (hstart endpoint he han.mapped).entered
  | _ => exact hlaw.elim

def recordsError (error : ℤ) : Ev → ℤ
  | ⟨.rtkit (.fail e),_⟩ => if error = 0 then e else error
  | _ => error

theorem recordsError_iff (h : Hist) :
    replay recordsError 0 h ≠ 0 ↔ ∃ e, e ≠ 0 ∧ (⟨.rtkit (.fail e),()⟩ : Ev) ∈ h := by
  induction h with
  | nil => simp
  | cons a h ih =>
    obtain ⟨op,r⟩ := a
    cases op with
    | rtkit u =>
      cases u with
      | fail e =>
        by_cases h0 : replay recordsError 0 h = 0
        · have hnone := ih.not.mp (not_not.mpr h0)
          simp only [not_exists, not_and] at hnone
          simp only [replay_cons, recordsError, h0, if_true, List.mem_cons]
          constructor
          · exact fun he => ⟨e,he,.inl rfl⟩
          · rintro ⟨e',he',heq | hm⟩
            · cases heq
              exact he'
            · exact absurd hm (hnone e' he')
        · obtain ⟨e',he',hm⟩ := ih.mp h0
          simp only [replay_cons, recordsError, h0, if_false]
          exact ⟨fun _ => ⟨e',he',List.mem_cons_of_mem _ hm⟩,fun _ => h0⟩
      | _ => simpa [recordsError] using ih
    | _ => simpa [recordsError] using ih

/-- The error field is set exactly when a failure was recorded. -/
theorem error_iff (ht : Ran guard s log) :
    s.rb.rtkit.error ≠ 0 ↔ ∃ i e, e ≠ 0 ∧ (i,(⟨.rtkit (.fail e),()⟩ : Ev)) ∈ log := by
  obtain ⟨s₀,h₀,he⟩ := ht.replay (fun s => s.rb.rtkit.error) recordsError
    fun s op r t hs => by
      obtain ⟨-,rfl⟩ := hs
      cases op with
      | rtkit u => cases u <;> rfl
      | store f => cases f <;> rfl
      | _ => rfl
  have h0 : s₀.rb.rtkit.error = 0 := by
    rw [h₀.rb]
    rfl
  rw [he, h0, recordsError_iff]
  simp only [List.mem_map, Prod.exists]
  constructor
  · rintro ⟨e,hne,i,a,hm,rfl⟩
    exact ⟨i,e,hne,hm⟩
  · rintro ⟨i,e,hne,hm⟩
    exact ⟨e,hne,i,_,hm,rfl⟩

/-- What a load answered held in a state of the run. -/
theorem Read.state {P : Rtbuddy → Prop} {i : Party} (ht : Ran guard s log)
    (hl : Lawful law log) (hr : Read P (own i log)) :
    ∃ t earlier, Ran guard t earlier ∧ Lawful law earlier ∧ earlier <:+ log ∧ P t.rb := by
  obtain ⟨x,hx,hP⟩ := hr
  obtain ⟨later,earlier,rfl⟩ := List.append_of_mem (mem_own.mp hx)
  obtain ⟨t,u,ht',-,ha,-⟩ := ht.split
  obtain rfl : x = t.rb := ha
  exact ⟨t,earlier,ht',hl.of_append.2,(List.suffix_cons _ _).trans (List.suffix_append _ _),hP⟩

/-- Boot is past the roll call only if the roll call is complete: an error ends
the wait too, but then the load behind it finds the error. -/
theorem Passed.rollCalled (ht : Ran guard s log) (hl : Lawful law log)
    (hp : Passed .epmap (own .main log)) : RollCalled log := by
  obtain ⟨later,r,earlier,x,he,hr,herr⟩ := hp
  obtain ⟨l1,log1,rfl,-,h1⟩ := own_split he
  obtain ⟨l2,log2,rfl,-,-⟩ := own_split (h1.trans (List.nil_append _).symm)
  obtain ⟨t,_,ht1,-,hx,-⟩ := ht.split
  obtain rfl : x = t.rb := hx
  obtain ⟨u,_,ht2,-,hw,-⟩ := ht1.split
  have hl2 := hl.of_append.2.of_append.2
  have hsuf : log2 <:+ l1 ++ (.main,⟨.load,t.rb⟩) :: (l2 ++ (.main,⟨.wait .epmap,r⟩) :: log2) := by
    refine List.IsSuffix.trans ?_ (List.suffix_append _ _)
    refine List.IsSuffix.trans ?_ (List.suffix_cons _ _)
    exact (List.suffix_cons _ _).trans (List.suffix_append _ _)
  refine (rollCalled_of ht2 hl2 ?_).mono hsuf
  refine (hw.resolve_left hr).resolve_right fun hu => ?_
  obtain ⟨i,e,hne,hm⟩ := (error_iff ht2).mp hu
  refine (error_iff ht1).mpr ⟨i,e,hne,?_⟩ herr
  exact List.mem_append_right _ (List.mem_cons_of_mem _ hm)

end AgxOpen.Rtbuddy
