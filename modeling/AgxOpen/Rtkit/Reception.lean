import AgxOpen.Rtkit.Failures

/-!
# A message received

A run of `agx_rtkit_rx` is two counters and then the way selected for the message.
-/
namespace AgxOpen.Rtkit
open Program

variable {has : Callbacks} {s t u : Rtkit} {acts : List CoreAct} {endpoint : U32} {message : U64}
  {α β : Type} {P : Op → Prop} {h : Handler}

/-- The core behind the two counters. -/
def counted (s : Rtkit) (endpoint : U32) : Rtkit := { s with
  rxCount := s.rxCount + 1#64
  strayCount := if s.announced endpoint then s.strayCount else s.strayCount + 1#64 }

/-- The operations of the two counters. -/
def Counts : Op → Prop
  | .load | .store .rxCount | .store .strayCount => True
  | _ => False

/-- Looking an endpoint up reads one word of the map. -/
theorem hasEndpoint_eq (he : ¬ endpoint ≥ epCount) : hasEndpoint (corePort has) endpoint =
    .call .load fun s => .ret (s.announced endpoint) := if_neg he

theorem meets_counters (he : ¬ endpoint ≥ epCount) (s : Rtkit) :
    Meets step ((corePort has).store .rxCount >>= fun _ => countStray (corePort has) endpoint)
      (fun acts _ u => (∀ a ∈ acts, Counts a.op) ∧ u = counted s endpoint) s := by
  rintro - t ⟨-,rfl⟩
  change Meets step (countStray (corePort has) endpoint) _ _
  rw [countStray, hasEndpoint_eq he]
  rintro r u ⟨rfl,rfl⟩
  change Meets step (if !s.announced endpoint then _ else _) _ _
  by_cases hk : s.announced endpoint = true
  · rw [if_neg (by simp [hk])]
    refine ⟨by simp [Counts],?_⟩
    rw [counted, if_pos hk]
    rfl
  · rw [if_pos (by simp [hk])]
    rintro - v ⟨-,rfl⟩
    refine ⟨by simp [Counts],?_⟩
    rw [counted, if_neg hk]
    rfl

theorem rx_runs {ret : ℤ} (hr : (program has (.rx endpoint message)).Runs step s acts ret u) :
    ∃ before during, acts = before ++ during ∧ (∀ a ∈ before, Counts a.op) ∧
      ((select has.app (endpoint &&& 0xff#32) message).run (corePort has) (endpoint &&& 0xff#32)
        message).Runs step (counted s (endpoint &&& 0xff#32)) during () u := by
  obtain ⟨acts₁,_,t,acts₂,h₁,h₂,rfl⟩ := hr.of_bind
  cases h₂
  rw [rx_eq, dispatch_eq, app_isSome] at h₁
  obtain ⟨before,_,t,during,hb,hd,rfl⟩ := h₁.of_bind
  obtain ⟨hcounts,rfl⟩ := hb.post (meets_counters (low_byte_lt endpoint) s)
  exact ⟨before,during,List.append_nil _,hcounts,hd⟩

theorem behind_counters {f : CoreAct → Option β} {before during : List CoreAct}
    (hb : ∀ a ∈ before, Counts a.op) (hf : ∀ a, Counts a.op → f a = none) :
    (before ++ during).filterMap f = during.filterMap f := by
  rw [List.filterMap_append, List.filterMap_eq_nil_iff.mpr fun a ha => hf a (hb a ha), List.nil_append]

theorem sent_counts {before during : List CoreAct} (hb : ∀ a ∈ before, Counts a.op) :
    (before ++ during).filterMap sent = during.filterMap sent := by
  refine behind_counters hb fun a ha => ?_
  obtain ⟨op,r⟩ := a
  cases op with
  | send => exact ha.elim
  | _ => rfl

theorem meets_send (endpoint : U32) (message : U64) (s : Rtkit) :
    Meets step (send (corePort has) endpoint message) (fun acts r u =>
      acts.filterMap sent = [(endpoint,message,r)] ∧ u = if r = 0 then s else (Update.fail r).apply s) s := by
  rintro r t ⟨-,rfl⟩
  change Meets step (if r ≠ 0 then _ else _) _ _
  by_cases hr : r = 0
  · rw [if_neg (not_not.mpr hr)]
    exact ⟨rfl,(if_pos hr).symm⟩
  · rw [if_pos hr]
    rintro - u ⟨-,rfl⟩
    exact ⟨rfl,(if_neg hr).symm⟩

/-- Sends back to the endpoint. -/
def Back (endpoint : U32) : Op → Prop
  | .send e _ => e = endpoint
  | _ => True

theorem back_handler (hsel : select has.app endpoint message = .handler h) :
    Only (Back endpoint) (h.run (corePort has) endpoint message) :=
  only_coreHandler trivial (fun _ => rfl) (fun _ _ => trivial) (fun _ => trivial) hsel
    fun _ _ => trivial

/-- The application gets the message as it came. -/
theorem app_runs (hsel : select has.app endpoint message = .app) {during : List CoreAct}
    (hd : (Disposition.run (corePort has) endpoint message .app).Runs step s during () u) :
    during = [⟨.app endpoint message,()⟩] ∧ u = s := by
  obtain ⟨ha,-⟩ := select_app hsel
  simp only [Disposition.run, corePort, ha, if_true] at hd
  cases hd with
  | call hs rest =>
    cases rest
    exact ⟨rfl,hs.2⟩

theorem unknown_runs {during : List CoreAct}
    (hd : (Disposition.run (corePort has) endpoint message .unknown).Runs step s during () u) :
    during = [⟨.store .unknownCount,()⟩,⟨.store (.lastUnknown message),()⟩] ∧
      u = { s with unknownCount := s.unknownCount + 1#64, lastUnknown := message } := by
  cases hd with
  | call hs rest =>
    cases rest with
    | call hs' rest =>
      cases rest
      obtain ⟨-,rfl⟩ := hs
      exact ⟨rfl,hs'.2⟩

/-- A field that none of the operations changes. -/
theorem Runs.keeps {p : Program Op Res α} {a : α} (hr : p.Runs step s acts a u)
    (hacts : ∀ e ∈ acts, P e.op) (get : Rtkit → β)
    (hget : ∀ s op, P op → get (after s op) = get s) : get u = get s := by
  induction hr with
  | ret a s => rfl
  | call hs rest ih =>
    obtain ⟨hop,hrest⟩ := List.forall_mem_cons.mp hacts
    obtain ⟨-,rfl⟩ := hs
    exact (ih hrest).trans (hget _ _ hop)

theorem Runs.field {p : Program Op Res α} {a : α} (hr : p.Runs step s acts a u) (hp : Only P p)
    (get : Rtkit → β) (hget : ∀ s op, P op → get (after s op) = get s) : get u = get s :=
  Runs.keeps hr (hr.only hp) get hget

end AgxOpen.Rtkit
