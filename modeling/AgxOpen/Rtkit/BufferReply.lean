import AgxOpen.Rtkit.Failures

/-!
# The reply to a buffer request

The reply packs the address of the buffer into the field of the request. What
does not fit is cut off without an error.
-/
namespace AgxOpen.Rtkit
open Program BitFields

variable {has : Callbacks} {s u : Rtkit} {acts acts' : List CoreAct}

theorem fieldGet_or (a b : U64) (shift : ℕ) (mask : U64) :
    fieldGet (a ||| b) shift mask = fieldGet a shift mask ||| fieldGet b shift mask := by
  unfold fieldGet
  ext i hi
  simp [Bool.and_or_distrib_right]

theorem fieldGet_fieldPut (value : U64) {shift n : ℕ} (h : shift+n ≤ 64) :
    fieldGet (fieldPut value shift (mask 64 n)) shift (mask 64 n) = value &&& mask 64 n :=
  field_put_get value shift n h

/-- Fields that lie apart do not mix. -/
theorem fieldGet_fieldPut_apart (value : U64) {shift n shift' n' : ℕ}
    (h : shift+n ≤ shift' ∨ shift'+n' ≤ shift) :
    fieldGet (fieldPut value shift' (mask 64 n')) shift (mask 64 n) = 0#64 := by
  unfold fieldGet fieldPut
  ext i hi
  simp only [BitVec.getElem_and, BitVec.getElem_ushiftRight, getElem_mask,
    BitVec.getLsbD_shiftLeft, BitVec.getLsbD_and, getLsbD_mask, BitVec.getElem_zero]
  by_cases hn : i < n
  · by_cases hs : shift+i < shift'
    · simp [hs]
    · simp [show ¬ shift+i-shift' < n' by omega]
  · simp [hn]

theorem and_mask_eq_self (x : U64) {n : ℕ} (hn : n ≤ 64) : x &&& mask 64 n = x ↔ x.toNat < 2^n := by
  rw [← BitVec.toNat_inj, toNat_and_mask x hn]
  exact Nat.mod_eq_iff_lt (Nat.two_pow_pos n).ne'

/-- The address of a page. -/
theorem toNat_page (x : U64) {n : ℕ} (hn : n+12 ≤ 64) :
    ((x &&& mask 64 n) <<< pageShift).toNat = x.toNat % 2^n * 2^12 := by
  have hlt : x.toNat % 2^n < 2^n := Nat.mod_lt _ (Nat.two_pow_pos n)
  have hp : 2^n * 2^12 ≤ 2^64 := by
    rw [← Nat.pow_add]
    exact Nat.pow_le_pow_right (by omega) hn
  rw [BitVec.toNat_shiftLeft, toNat_and_mask x (by omega), Nat.shiftLeft_eq]
  exact Nat.mod_eq_of_lt (lt_of_lt_of_le (Nat.mul_lt_mul_of_pos_right hlt (by decide)) hp)

theorem page_fits (x : U64) {n : ℕ} (hn : n+12 ≤ 64) :
    2^12 ∣ ((x &&& mask 64 n) <<< pageShift).toNat ∧
      ((x &&& mask 64 n) <<< pageShift).toNat < 2^(n+12) := by
  rw [toNat_page x hn, Nat.pow_add]
  refine ⟨Nat.dvd_mul_left _ _,Nat.mul_lt_mul_of_pos_right ?_ (by decide)⟩
  exact Nat.mod_lt _ (Nat.two_pow_pos n)

/-- Cutting to page numbers of `n` bits keeps exactly the addresses of such pages. -/
theorem pages_eq (x : U64) {n : ℕ} (hn : n+12 ≤ 64) :
    (x >>> pageShift &&& mask 64 n) <<< pageShift = x ↔ 2^12 ∣ x.toNat ∧ x.toNat < 2^(n+12) := by
  constructor
  · intro h
    rw [← h]
    exact page_fits _ hn
  · rintro ⟨⟨k,hk⟩,hx⟩
    have hkn : k < 2^n := by
      rw [hk, Nat.pow_add, Nat.mul_comm] at hx
      exact Nat.lt_of_mul_lt_mul_right hx
    rw [← BitVec.toNat_inj, toNat_page _ hn, BitVec.toNat_ushiftRight, Nat.shiftRight_eq_div_pow, hk,
      show 2^pageShift = 2^12 from rfl, Nat.mul_div_cancel_left k (by decide), Nat.mod_eq_of_lt hkn,
      Nat.mul_comm]

/-- The type, read on the endpoint as the type of a request is. -/
def requestType (endpoint : U32) (message : U64) : U32 :=
  if endpoint = epOslog then oslogType message else msgType message

/-- The reply reads as the request of exactly this buffer. -/
def Names (endpoint : U32) (reply size iova : U64) : Prop :=
  requestType endpoint reply = bufferRequest ∧ requestSize endpoint reply = size ∧
    requestIova endpoint reply = iova

/-- The address can be written into the reply. -/
def Fits (endpoint : U32) (iova : U64) : Prop :=
  if endpoint = epOslog then 2^12 ∣ iova.toNat ∧ iova.toNat < 2^48 else iova.toNat < 2^44

/-- Type, size and address, packed as the endpoint packs them. -/
theorem bufferReply_oslog (size iova : U64) : bufferReply epOslog size iova =
    fieldPut 1#64 56 (mask 64 8) ||| fieldPut size 36 (mask 64 20) |||
      fieldPut (iova >>> pageShift) 0 (mask 64 36) := rfl

theorem bufferReply_paged {endpoint : U32} (he : endpoint ≠ epOslog) (size iova : U64) :
    bufferReply endpoint size iova = fieldPut 1#64 52 (mask 64 8) |||
      fieldPut (size >>> pageShift) 44 (mask 64 8) ||| fieldPut iova 0 (mask 64 44) :=
  if_neg he

theorem names_oslog {size iova : U64} (hsize : size.toNat < 2^20) :
    Names epOslog (bufferReply epOslog size iova) size iova ↔ Fits epOslog iova := by
  have htype : requestType epOslog (bufferReply epOslog size iova) = bufferRequest := by
    change (fieldGet (bufferReply epOslog size iova) 56 (mask 64 8)).setWidth 32 = _
    rw [bufferReply_oslog, fieldGet_or, fieldGet_or, fieldGet_fieldPut _ (by omega),
      fieldGet_fieldPut_apart _ (by omega), fieldGet_fieldPut_apart _ (by omega)]
    rfl
  have hsz : requestSize epOslog (bufferReply epOslog size iova) = size := by
    change fieldGet (bufferReply epOslog size iova) 36 (mask 64 20) = _
    rw [bufferReply_oslog, fieldGet_or, fieldGet_or, fieldGet_fieldPut _ (by omega),
      fieldGet_fieldPut_apart _ (by omega), fieldGet_fieldPut_apart _ (by omega),
      (and_mask_eq_self size (by omega)).mpr hsize]
    simp
  have hio : requestIova epOslog (bufferReply epOslog size iova) =
      (iova >>> pageShift &&& mask 64 36) <<< pageShift := by
    change fieldGet (bufferReply epOslog size iova) 0 (mask 64 36) <<< pageShift = _
    rw [bufferReply_oslog, fieldGet_or, fieldGet_or, fieldGet_fieldPut _ (by omega),
      fieldGet_fieldPut_apart _ (by omega), fieldGet_fieldPut_apart _ (by omega)]
    simp
  rw [Names, htype, hsz, hio, pages_eq iova (by omega)]
  simp [Fits]

theorem names_paged {endpoint : U32} {size iova : U64} (he : endpoint ≠ epOslog)
    (hsize : 2^12 ∣ size.toNat ∧ size.toNat < 2^(8+12)) :
    Names endpoint (bufferReply endpoint size iova) size iova ↔ Fits endpoint iova := by
  have htype : requestType endpoint (bufferReply endpoint size iova) = bufferRequest := by
    rw [requestType, if_neg he]
    change (fieldGet (bufferReply endpoint size iova) 52 (mask 64 8)).setWidth 32 = _
    rw [bufferReply_paged he, fieldGet_or, fieldGet_or, fieldGet_fieldPut _ (by omega),
      fieldGet_fieldPut_apart _ (by omega), fieldGet_fieldPut_apart _ (by omega)]
    rfl
  have hsz : requestSize endpoint (bufferReply endpoint size iova) = size := by
    rw [requestSize, if_neg he]
    change fieldGet (bufferReply endpoint size iova) 44 (mask 64 8) <<< pageShift = _
    rw [bufferReply_paged he, fieldGet_or, fieldGet_or, fieldGet_fieldPut _ (by omega),
      fieldGet_fieldPut_apart _ (by omega), fieldGet_fieldPut_apart _ (by omega)]
    simpa using (pages_eq size (by omega)).mpr hsize
  have hio : requestIova endpoint (bufferReply endpoint size iova) = iova &&& mask 64 44 := by
    rw [requestIova, if_neg he]
    change fieldGet (bufferReply endpoint size iova) 0 (mask 64 44) = _
    rw [bufferReply_paged he, fieldGet_or, fieldGet_or, fieldGet_fieldPut _ (by omega),
      fieldGet_fieldPut_apart _ (by omega), fieldGet_fieldPut_apart _ (by omega)]
    simp
  rw [Names, htype, hsz, hio, and_mask_eq_self iova (by omega), Fits, if_neg he]
  simp

theorem requestSize_fits {endpoint : U32} (he : endpoint ≠ epOslog) (message : U64) :
    2^12 ∣ (requestSize endpoint message).toNat ∧ (requestSize endpoint message).toNat < 2^(8+12) := by
  rw [requestSize, if_neg he, fieldGet, show bufreqSizeMask = mask 64 8 from rfl]
  exact page_fits (message >>> bufreqSizeShift) (by decide)

/-- The reply to a request names the buffer if the address fits. -/
theorem names_iff (endpoint : U32) (message iova : U64) :
    Names endpoint (bufferReply endpoint (requestSize endpoint message) iova)
      (requestSize endpoint message) iova ↔ Fits endpoint iova := by
  by_cases he : endpoint = epOslog
  · subst he
    refine names_oslog ?_
    change (fieldGet message 36 (mask 64 20)).toNat < 2^20
    rw [fieldGet, toNat_field _ _ (by omega)]
    exact Nat.mod_lt _ (by omega)
  · exact names_paged he (requestSize_fits he message)

/-- A buffer that the callback handed out, with its size and address. -/
def obtained : CoreAct → Option (U32 × U64 × U64)
  | ⟨.buffer endpoint size _,r⟩ => if r.1 = (0 : ℤ) then some (endpoint,size,r.2) else none
  | _ => none

/-- The buffer callback succeeded. -/
def Obtains (endpoint : U32) (size iova : U64) (acts : List CoreAct) : Prop :=
  ∃ requested, (⟨.buffer endpoint size requested,((0 : ℤ),iova)⟩ : CoreAct) ∈ acts

/-- A buffer is for the size of some request and leads to one reply. -/
def Replies (acts : List CoreAct) (u : Rtkit) : Prop :=
  ∀ endpoint size iova, Obtains endpoint size iova acts →
    ∃ message r, size = requestSize endpoint message ∧
      acts.filterMap sent = [(endpoint,bufferReply endpoint size iova,r)] ∧ (r ≠ 0 → u.error ≠ 0)

theorem Replies.of_quiet (h : Replies acts u) (hp : ∀ a ∈ acts', Plain a.op) :
    Replies (acts' ++ acts) u := by
  rintro endpoint size iova ⟨requested,hb⟩
  obtain hb | hb := List.mem_append.mp hb
  · exact (hp _ hb).elim
  obtain ⟨message,r,hsize,hsent,herr⟩ := h endpoint size iova ⟨requested,hb⟩
  refine ⟨message,r,hsize,?_,herr⟩
  have hnone : acts'.filterMap sent = [] := by
    refine List.filterMap_eq_nil_iff.mpr fun a ha => ?_
    have hop := hp a ha
    obtain ⟨op,r⟩ := a
    cases op with
    | send => exact hop.elim
    | _ => rfl
  rw [List.filterMap_append, hnone, hsent, List.nil_append]

/-- Neither a buffer nor the note of an unknown message. -/
def Managing : Op → Prop
  | .store (.lastUnknown _) | .buffer _ _ _ => False
  | _ => True

/-- Handlers that ask for no buffer. -/
theorem managing_handler {h : Handler} (hc : h ≠ .crashlog) (hb : h ≠ .buffer) (endpoint : U32)
    (message : U64) : Only Managing (h.run (corePort has) endpoint message) := by
  have hload : Only Managing (corePort has).load := only_request.mpr trivial
  have hsend (e : U32) (m : U64) : Only Managing ((corePort has).send e m) :=
    only_request.mpr trivial
  have hstore (u : Update) (hu : Managing (.store u)) : Only Managing ((corePort has).store u) :=
    only_request.mpr hu
  cases h with
  | hello =>
    exact only_rxHello (hsend _) (fun _ => hstore _ trivial) (fun _ => hstore _ trivial)
      (hstore _ trivial) message
  | epmap =>
    exact only_rxEpmap hload (hsend _) (fun _ => hstore _ trivial) (fun _ _ => hstore _ trivial)
      (hstore _ trivial) (hstore _ trivial) message
  | iopAck | apAck => exact ⟨trivial,fun _ => ⟨trivial,fun _ => trivial⟩⟩
  | crashlog => exact absurd rfl hc
  | buffer => exact absurd rfl hb
  | ignore => exact only_ret ()
  | echo => exact only_echo (hsend _) (fun _ => hstore _ trivial) message

def Replying {α : Type} (p : Program Op Res α) (s : Rtkit) : Prop :=
  Meets step p (fun acts _ u => Replies acts u) s

theorem replying_managing {α : Type} {p : Program Op Res α} (hp : Only Managing p) (s : Rtkit) :
    Replying p s :=
  (hp.meets_all s).mono fun _ _ _ h _ _ _ hb => (h _ hb.choose_spec).elim

theorem replying_plain {α : Type} {p : Program Op Res α} (hp : Only Plain p) (s : Rtkit) :
    Replying p s :=
  (hp.meets_all s).mono fun _ _ _ h _ _ _ hb => (h _ hb.choose_spec).elim

theorem Replying.after_plain {α β : Type} {p : Program Op Res α} {f : α → Program Op Res β}
    (hp : Only Plain p) (hf : ∀ a t, Replying (f a) t) : Replying (p >>= f) s := by
  refine Meets.bind ((hp.meets_all s).mono fun acts a t ht => ?_)
  exact (hf a t).mono fun acts' b u hu => hu.of_quiet ht

/-- A buffer that is followed by its one reply. -/
theorem replies_reply {endpoint : U32} {message requested iova : U64} {bit : U32} {r : ℤ}
    (ha : acts = [⟨.store (.orBuffers bit),()⟩,
      ⟨.send endpoint (bufferReply endpoint (requestSize endpoint message) iova),r⟩] ++ acts')
    (hnone : ∀ a ∈ acts', ∃ e : ℤ, a = ⟨.store (.fail e),()⟩) (herr : r ≠ 0 → u.error ≠ 0) :
    Replies (⟨.buffer endpoint (requestSize endpoint message) requested,((0 : ℤ),iova)⟩ :: acts)
      u := by
  subst ha
  rintro endpoint' size iova' ⟨requested',hb⟩
  obtain hb | hb := List.mem_cons.mp hb
  · cases hb
    refine ⟨message,r,rfl,?_,herr⟩
    have hsent : acts'.filterMap sent = [] := by
      refine List.filterMap_eq_nil_iff.mpr fun a ha => ?_
      obtain ⟨e,rfl⟩ := hnone a ha
      rfl
    change _ :: acts'.filterMap sent = _
    rw [hsent]
  · obtain hb | hb := List.mem_append.mp hb
    · simp at hb
    · obtain ⟨e,he⟩ := hnone _ hb
      cases he

theorem replying_getBuffer (endpoint : U32) (message : U64) (s : Rtkit) :
    Replying (getBuffer (corePort has) endpoint message) s := by
  by_cases h0 : requestSize endpoint message = 0#64
  · rw [getBuffer_empty h0]
    exact replying_managing (only_request.mpr (by trivial)) s
  cases hb : has.buffer with
  | false =>
    rw [getBuffer_none hb]
    exact replying_managing (only_request.mpr (by trivial)) s
  | true =>
    rw [getBuffer_some hb h0]
    rintro ⟨ret,iova⟩ t -
    change Meets step (if ret ≠ 0 then _ else _) _ _
    by_cases hret : ret ≠ 0
    · rw [if_pos hret]
      rintro - u -
      rintro endpoint' size iova' ⟨requested,hb⟩
      obtain hb | hb := List.mem_cons.mp hb
      · cases hb
        contradiction
      · simp at hb
    rw [if_neg hret]
    obtain rfl : ret = 0 := not_not.mp hret
    rintro - u - r v -
    change Meets step ((if r ≠ 0 then _ else _) >>= fun _ => ret ()) _ _
    split_ifs with hr
    · rintro - w ⟨-,rfl⟩
      refine replies_reply rfl (by simp) fun _ => ?_
      change (if v.error = 0 then r else v.error) ≠ 0
      split_ifs with h
      · exact hr
      · exact h
    · exact replies_reply rfl (by simp) fun h => (hr h).elim

theorem replying_handler (h : Handler) (endpoint : U32) (message : U64) (s : Rtkit) :
    Replying (h.run (corePort has) endpoint message) s := by
  by_cases hb : h = .buffer
  · subst hb
    exact replying_getBuffer endpoint message s
  by_cases hc : h = .crashlog
  · subst hc
    refine Replying.after_plain (only_request.mpr trivial) fun t _ => ?_
    split_ifs
    · exact replying_getBuffer _ message _
    refine replying_plain ((only_request.mpr trivial).bind fun _ => ?_) _
    cases hcrashed : (corePort has).crashed with
    | none => trivial
    | some crashed => exact only_crashedOp trivial crashed hcrashed
  exact replying_managing (managing_handler hc hb endpoint message) s

theorem replying_dispatch (endpoint : U32) (message : U64) (s : Rtkit) :
    Replying (dispatch (corePort has) endpoint message) s := by
  rw [dispatch_eq, app_isSome]
  cases select has.app endpoint message with
  | app => exact replying_plain (plain_app endpoint message) s
  | unknown => exact replying_plain (plain_noteUnknown message) s
  | handler h => exact replying_handler h endpoint message s

theorem replying_program (call : Call) (s : Rtkit) : Replying (program has call) s := by
  have hsend (message : U64) : Only Managing ((corePort has).send epMgmt message) :=
    only_request.mpr trivial
  have hfail (e : ℤ) : Only Managing ((corePort has).store (.fail e)) := only_request.mpr trivial
  cases call with
  | rx endpoint message =>
    rw [program, rx_eq, bind_assoc]
    refine Replying.after_plain (plain_counters _) fun _ t => Meets.bind ?_
    refine (replying_dispatch (endpoint &&& 0xff#32) message t).mono fun acts _ u h => ?_
    simpa using h
  | setIopPower state =>
    exact replying_managing (only_setIopPower hsend hfail (only_request.mpr trivial) state) s
  | setApPower state =>
    exact replying_managing (only_setApPower hsend hfail (only_request.mpr trivial) state) s
  | startEndpoint endpoint =>
    exact replying_managing
      (only_startEndpoint (only_request.mpr trivial) hsend hfail endpoint) s

/-- Of the messages the callback accepted, the reply names the buffer; or none
was accepted and there is an error. -/
def NamedOrFailed (endpoint : U32) (size iova : U64) (acts : List CoreAct) (u : Rtkit) : Prop :=
  (∃ reply, (⟨.send endpoint reply,(0 : ℤ)⟩ : CoreAct) ∈ acts ∧ Names endpoint reply size iova) ∨
    (∀ endpoint' reply, (⟨.send endpoint' reply,(0 : ℤ)⟩ : CoreAct) ∉ acts) ∧ u.error ≠ 0

/-- The callback took no message. -/
def SendRefused (acts : List CoreAct) : Prop :=
  ∀ endpoint reply r, (⟨.send endpoint reply,r⟩ : CoreAct) ∈ acts → r ≠ 0

theorem obtains_iff {endpoint : U32} {size iova : U64} :
    Obtains endpoint size iova acts ↔ (endpoint,size,iova) ∈ acts.filterMap obtained := by
  rw [List.mem_filterMap]
  constructor
  · exact fun ⟨requested,hb⟩ => ⟨_,hb,rfl⟩
  · rintro ⟨⟨op,r⟩,ha,hs⟩
    cases op with
    | buffer e n requested =>
      obtain ⟨ret,addr⟩ := r
      obtain ⟨rfl,he⟩ := Option.ite_none_right_eq_some.mp hs
      cases he
      exact ⟨requested,ha⟩
    | _ => contradiction

/-- A buffer is named by its reply, or its loss recorded, exactly when the
address fits the reply or the reply was refused. -/
theorem buffer_reply_iff {call : Call} {ret : ℤ} {endpoint : U32} {size iova : U64}
    (h : (program has call).Runs step s acts ret u) (hb : Obtains endpoint size iova acts) :
    NamedOrFailed endpoint size iova acts u ↔ Fits endpoint iova ∨ SendRefused acts := by
  obtain ⟨message,r,rfl,hsent,herr⟩ := h.post (replying_program call s) endpoint size iova hb
  have honly {e : U32} {m : U64} {r' : ℤ} : (⟨.send e m,r'⟩ : CoreAct) ∈ acts ↔
      e = endpoint ∧ m = bufferReply endpoint (requestSize endpoint message) iova ∧ r' = r := by
    rw [← mem_sent, hsent, List.mem_singleton]
    simp
  unfold NamedOrFailed SendRefused
  simp only [honly]
  rw [← names_iff endpoint message iova]
  by_cases hr : r = 0
  · subst hr
    constructor
    · rintro (⟨reply,⟨-,rfl,-⟩,hn⟩ | ⟨hnone,-⟩)
      · exact .inl hn
      · exact (hnone _ _ ⟨rfl,rfl,rfl⟩).elim
    · rintro (hn | hrefused)
      · exact .inl ⟨_,⟨trivial,rfl,rfl⟩,hn⟩
      · exact (hrefused _ _ _ ⟨rfl,rfl,rfl⟩ rfl).elim
  · refine iff_of_true (.inr ⟨fun e m he => hr he.2.2.symm,herr hr⟩) (.inr ?_)
    rintro e m r' ⟨-,-,rfl⟩
    exact hr

/-- A request of the system log for one page. -/
def logRequest : Call := .rx epSyslog (bufferMsg 1#64)

theorem buffer_reply_example : ∃ acts ret u,
    (program ⟨true,true,true⟩ logRequest).Runs step init acts ret u ∧
    NamedOrFailed epSyslog 0x1000#64 0x8000000#64 acts u := by
  have hx : ((program ⟨true,true,true⟩ logRequest).execute (answer (buffersAt 0x8000000#64))
      init).any (fun x => x.1.filterMap obtained == [(epSyslog,0x1000#64,0x8000000#64)]) = true := by
    decide +kernel
  obtain ⟨acts,ret,u,hrun,hb⟩ := Program.execute_any (answer_step _) hx
  have hb : Obtains epSyslog 0x1000#64 0x8000000#64 acts := by
    rw [obtains_iff, beq_iff_eq.mp hb]
    exact List.mem_singleton.mpr rfl
  exact ⟨acts,ret,u,hrun,(buffer_reply_iff hrun hb).mpr (.inl (by unfold Fits; decide))⟩

/-- A buffer at the 44 bit limit is answered with the address 0. -/
theorem buffer_reply_truncated : ∃ acts ret u,
    (program ⟨true,true,true⟩ logRequest).Runs step init acts ret u ∧
    Obtains epSyslog 0x1000#64 0x100000000000#64 acts ∧
    ¬ NamedOrFailed epSyslog 0x1000#64 0x100000000000#64 acts u := by
  have hx : ((program ⟨true,true,true⟩ logRequest).execute (answer (buffersAt 0x100000000000#64))
      init).any (fun x => x.1.filterMap obtained == [(epSyslog,0x1000#64,0x100000000000#64)] &&
        x.1.filterMap sent == [(epSyslog,bufferMsg 1#64,0)]) = true := by decide +kernel
  obtain ⟨acts,ret,u,hrun,hx⟩ := Program.execute_any (answer_step _) hx
  obtain ⟨hb,hs⟩ := Bool.and_eq_true_iff.mp hx
  rw [beq_iff_eq] at hb hs
  refine ⟨acts,ret,u,hrun,?_,?_⟩
  · rw [obtains_iff, hb]
    exact List.mem_singleton.mpr rfl
  · rintro (⟨reply,hr,hn⟩ | ⟨hnone,-⟩)
    · rw [← mem_sent, hs, List.mem_singleton] at hr
      cases hr
      exact absurd hn.2.2 (by decide)
    · refine hnone epSyslog (bufferMsg 1#64) ?_
      rw [← mem_sent, hs]
      exact List.mem_singleton.mpr rfl

end AgxOpen.Rtkit
