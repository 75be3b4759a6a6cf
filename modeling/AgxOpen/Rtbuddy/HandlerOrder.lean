import AgxOpen.Rtbuddy.Receive

/-!
# The order of the handler's stores

An acknowledgement is told only behind the power level it is for, and the end of the roll
call only behind the last word of the map.
-/
namespace AgxOpen.Rtbuddy
open Rtkit

variable {guard : World → RunLog → Party → Op → Prop} {h : Hist} {α : Type} {endpoint : U32}
  {message : U64}

/-- What lies behind a store of the interrupt thread. -/
def behindLaw (h : Hist) : Op → Prop
  | .rtkit (.iopAcked _) => ∃ state, (⟨.rtkit (.iopPower state),()⟩ : Ev) ∈ h
  | .rtkit (.apAcked _) => ∃ state, (⟨.rtkit (.apPower state),()⟩ : Ev) ∈ h
  | .rtkit .epmapDone => ∃ e m, current h = some (e,m) ∧
    (⟨.rtkit (.orEndpoints (epmapBase m).toNat (epmapBitmap m)),()⟩ : Ev) ∈ h
  | _ => True

abbrev BehindObeys (guard : World → RunLog → Party → Op → Prop) (p : Prog α)
    (Q : Hist → α → Prop) (h : Hist) : Prop := Obeys behindLaw (May guard .irq) p Q h

/-- Operations that are allowed anywhere and stay with the message. -/
def Unordered : Op → Prop
  | .rtkit (.iopAcked _) | .rtkit (.apAcked _) | .rtkit .epmapDone | .mark _ => False
  | _ => True

theorem current_unordered {op : Op} {r : Res op} (hop : Unordered op) :
    current (⟨op,r⟩ :: h) = current h := by
  rw [current, latest_cons]
  cases op with
  | mark => exact hop.elim
  | _ => rfl

theorem behind_unordered {p : Prog α} (hp : Program.Only Unordered p) :
    BehindObeys guard p (fun _ _ => True) h := by
  refine obeys_only hp (fun _ => True) trivial (fun h op hop _ => ?_) fun _ _ _ _ _ _ => trivial
  cases op with
  | rtkit u => cases u <;> trivial
  | _ => trivial

theorem unordered_load : Program.Only Unordered port.load := ⟨trivial,fun _ => trivial⟩

theorem unordered_send (endpoint : U32) (message : U64) :
    Program.Only Unordered (port.send endpoint message) := Program.only_request.mpr trivial

theorem unordered_store {u : Update} (hu : Unordered (.rtkit u)) :
    Program.Only Unordered (port.store u) := Program.only_request.mpr hu

theorem unordered_opsBuffer (endpoint : U32) (size iova : U64) :
    Program.Only Unordered (opsBuffer endpoint size iova) := by
  unfold opsBuffer
  cases shmemSlot endpoint with
  | none => trivial
  | some slot =>
    refine Program.only_ite.mpr ⟨fun _ => trivial,fun _ => ?_⟩
    refine Program.only_ite.mpr ⟨fun _ => trivial,fun _ => ⟨trivial,fun s => ?_⟩⟩
    refine Program.only_ite.mpr ⟨fun _ => trivial,fun _ => ⟨trivial,fun buffer => ?_⟩⟩
    exact Program.only_ite.mpr ⟨fun _ => trivial,fun _ => ⟨trivial,fun _ => trivial⟩⟩

theorem unordered_opsApp (endpoint : U32) (message : U64) :
    Program.Only Unordered (opsApp endpoint message) :=
  Program.only_ite.mpr ⟨fun _ => Program.only_request.mpr trivial,
    fun _ => Program.only_request.mpr trivial⟩

/-- The end of the roll call is behind the map message's own word. -/
theorem behind_epmap (hc : current h = some (endpoint,message)) :
    BehindObeys guard (rxEpmap port message) (fun _ _ => True) h := by
  let P (op : Op) : Prop := Unordered op ∨ op = .rtkit .epmapDone
  have hstore {u : Update} (hu : P (.rtkit u)) : Program.Only P (port.store u) :=
    Program.only_request.mpr hu
  have hp : Program.Only P (rxEpmap port message) :=
    only_rxEpmap (unordered_load.mono fun _ => .inl)
      (fun m => (unordered_send epMgmt m).mono fun _ => .inl)
      (fun _ => hstore (.inl trivial)) (fun _ _ => hstore (.inl trivial)) (hstore (.inl trivial))
      (hstore (.inr rfl)) message
  refine .request trivial fun r _ => ?_
  refine (obeys_only (hp.2 r) (fun h' => current h' = some (endpoint,message) ∧
    (⟨.rtkit (.orEndpoints (epmapBase message).toNat (epmapBitmap message)),()⟩ : Ev) ∈ h') ?_ ?_ ?_).mono
      fun _ _ _ => trivial
  · exact ⟨hc,List.mem_cons_self⟩
  · rintro h' op (hop | rfl) hI
    · cases op with
      | rtkit u => cases u <;> trivial
      | _ => trivial
    · exact ⟨endpoint,message,hI⟩
  · rintro h' op r' hop - ⟨hcur,hmem⟩
    refine ⟨?_,List.mem_cons_of_mem _ hmem⟩
    obtain hop | rfl := hop
    · exact (current_unordered hop).trans hcur
    · exact hcur

theorem behind_handler {hd : Handler} (hc : current h = some (endpoint,message))
    (hsel : select port.app.isSome endpoint message = .handler hd) :
    BehindObeys guard (hd.run port endpoint message) (fun _ _ => True) h := by
  have hplain (hstore : ∀ u, hd.stores u = true → Unordered (.rtkit u)) :
      BehindObeys guard (hd.run port endpoint message) (fun _ _ => True) h := by
    refine behind_unordered (only_handler unordered_load (unordered_send endpoint) ?_ ?_ hsel
      fun u hu => unordered_store (hstore u hu))
    · rintro _ ⟨⟩ size iova
      exact unordered_opsBuffer endpoint size iova
    · rintro - _ ⟨⟩
      trivial
  cases hd with
  | epmap => exact behind_epmap hc
  | iopAck => exact .request trivial fun _ _ => ⟨⟨_,List.mem_cons_self⟩,fun _ _ => trivial⟩
  | apAck => exact .request trivial fun _ _ => ⟨⟨_,List.mem_cons_self⟩,fun _ _ => trivial⟩
  | _ => exact hplain fun u hu => by cases u <;> trivial

theorem behind_rx (he : endpoint &&& 0xff#32 = endpoint) (hc : current h = some (endpoint,message)) :
    BehindObeys guard (rx port endpoint message) (fun _ _ => True) h := by
  rw [rx_eq, he]
  have hcount : Program.Only Unordered (port.store .rxCount >>= fun _ => countStray port endpoint) :=
    (unordered_store (u := .rxCount) trivial).bind fun _ =>
      only_countStray unordered_load (unordered_store (u := .strayCount) trivial) _
  refine Obeys.bind (Q := fun h' _ => current h' = some (endpoint,message)) ?_ fun h1 _ h1c => ?_
  · refine obeys_only hcount (fun h' => current h' = some (endpoint,message)) hc ?_ ?_
    · intro h' op hop _
      cases op with
      | rtkit u => cases u <;> trivial
      | _ => trivial
    · exact fun h' op r hop _ hcur => (current_unordered hop).trans hcur
  · rw [dispatch_eq]
    cases hsel : select port.app.isSome endpoint message with
    | handler hd => exact behind_handler h1c hsel
    | app => exact behind_unordered (only_app fun app ha => by
        cases ha
        exact unordered_opsApp endpoint message)
    | unknown => exact behind_unordered (only_noteUnknown
        (unordered_store (u := .unknownCount) trivial)
        (unordered_store (u := .lastUnknown message) trivial))

theorem behind_drain (n : ℕ) : BehindObeys guard (drain n) (fun _ _ => True) h := by
  induction n generalizing h with
  | zero => trivial
  | succ n ih =>
    refine Obeys.bind (Q := fun _ msg => ∀ x ∈ msg, x.1 &&& 0xff#32 = x.1) ?_ fun h1 msg hbyte => ?_
    · refine .request trivial fun control _ => ?_
      change BehindObeys guard (if _ then _ else _) _ _
      split_ifs
      · exact nofun
      · refine .request trivial fun msg0 _ => .request trivial fun msg1 _ => ?_
        rintro _ ⟨⟩
        exact unpackEndpoint_byte msg1
    · cases msg with
      | none => trivial
      | some x =>
        refine .request trivial fun _ _ => ?_
        refine (behind_rx (hbyte x rfl) rfl).bind fun h2 _ _ => .request trivial fun _ _ => ?_
        exact ih.bind fun _ _ _ => trivial

theorem reach_behind {c : Config Party Op Res World} (hc : driver.Reach guard c) :
    Along behindLaw (own .irq c.log) := by
  refine (hc.along disciplined .irq (fun _ => True) trivial ?_).1
  intro call p h hp _
  cases call with
  | interrupt =>
    obtain rfl := Option.some.inj hp
    refine .request trivial fun _ _ => (behind_drain drainMax).bind fun h1 handled _ => ?_
    exact .request trivial fun _ _ => .request trivial fun _ _ => ⟨trivial,fun _ _ => trivial⟩
  | _ => contradiction

end AgxOpen.Rtbuddy
