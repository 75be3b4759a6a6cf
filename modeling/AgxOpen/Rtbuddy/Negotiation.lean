import AgxOpen.Rtbuddy.BootOrder

/-!
# Version negotiation and boot

Boot waits for the roll call and for the power acknowledgements, never for the
hello. A firmware that leaves the hello out is booted without a version. Where
the hello is done when boot asks for AP power, a successful boot negotiated.
-/
namespace AgxOpen.Rtbuddy
open Rtkit

variable {guard : World → RunLog → Party → Op → Prop} {s : World} {log log' : RunLog}

/-- A version that a received hello offers was named in the reply to it. -/
def HelloReplied (log : RunLog) : Prop :=
  ∃ m version later earlier, log = later ++ (.irq,⟨.mark (.rx epMgmt m),()⟩) :: earlier ∧
    msgType m = mgmtHello ∧ helloMin m ≤ version ∧ version ≤ helloMax m ∧
    Entered later (helloReplyMsg version)

theorem HelloReplied.mono (hh : HelloReplied log) (hs : log <:+ log') : HelloReplied log' := by
  obtain ⟨m,version,later,earlier,rfl,ht,hlo,hhi,he⟩ := hh
  obtain ⟨l,rfl⟩ := hs
  exact ⟨m,version,l ++ later,earlier,(List.append_assoc ..).symm,ht,hlo,hhi,
    he.mono (List.suffix_append l later)⟩

def bootResult : Ev → Option ℤ
  | ⟨.mark (.booted ret),_⟩ => some ret
  | _ => none

/-- What boot returned, if it did. -/
def bootResults (log : RunLog) : List ℤ := log.filterMap fun x => bootResult x.2

/-- A protocol version was agreed on before AP power was asked for. -/
structure Negotiated (c : Config Party Op Res World) : Prop where
  helloDone : c.state.rb.rtkit.helloDone = true
  version : c.state.rb.rtkit.version = 11#32 ∨ c.state.rb.rtkit.version = 12#32
  reply : ∀ later (r : ℤ) earlier,
    c.log = later ++ (.main,⟨.send epMgmt (apPowerMsg pwrOn),r⟩) :: earlier → HelloReplied earlier

/-- Boot's request for AP power. -/
def asksApOn : Party → Op → Bool
  | .main, .send endpoint m => endpoint == epMgmt && m == apPowerMsg pwrOn
  | _, _ => false

/-- The hello is done where boot asks for AP power. -/
def helloFirst (s : World) (_ : RunLog) (i : Party) (op : Op) : Prop :=
  asksApOn i op = true → s.rb.rtkit.helloDone = true

instance (s : World) (log : RunLog) (i : Party) (op : Op) : Decidable (helloFirst s log i op) :=
  inferInstanceAs (Decidable (_ = true → _ = true))

def helloWrite : Update → Option Bool
  | .helloDone => some true
  | _ => none

theorem helloDone_field : CoreField (fun k => k.helloDone) helloWrite :=
  fun _ u => by cases u <;> rfl

def versionWrite : Update → Option U32
  | .version want => some want
  | _ => none

theorem version_field : CoreField (fun k => k.version) versionWrite :=
  fun _ u => by cases u <;> rfl

section Hello

variable (ht : Ran guard s log) (hl : Lawful law log)
include ht hl

/-- The hello is done only behind a reply and a store of the version. -/
theorem hello_of (hd : s.rb.rtkit.helloDone = true) :
    HelloReplied log ∧ (∃ i, (i,(⟨.rtkit .helloDone,()⟩ : Ev)) ∈ log) ∧
      ∃ i want, (i,(⟨.rtkit (.version want),()⟩ : Ev)) ∈ log := by
  have hne : s.rb.rtkit.helloDone ≠ false := by simp [hd]
  obtain ⟨later,i,u,earlier,rfl,hu,-⟩ := core_stored ht helloDone_field rfl hne
  obtain rfl : u = .helloDone := by cases u <;> first | rfl | contradiction
  have hlaw := hl.split
  cases i with
  | irq =>
    obtain ⟨-,m,hc,htype,version,hlo,hhi,-,-,hver,hreply⟩ := hlaw.resolve_left (by simp)
    obtain ⟨during,before,rfl,hown⟩ := handling_split hc
    rw [← hown] at hver hreply
    have hsuf := (List.suffix_cons _ _).trans
      (List.suffix_append later ((.irq,(⟨.rtkit .helloDone,()⟩ : Ev)) ::
        (during ++ (.irq,⟨.mark (.rx epMgmt m),()⟩) :: before)))
    refine ⟨?_,⟨.irq,List.mem_append_right _ List.mem_cons_self⟩,.irq,version,?_⟩
    · exact HelloReplied.mono ⟨m,version,during,before,rfl,htype,hlo,hhi,hreply.entered⟩ hsuf
    · exact hsuf.subset (List.mem_append_left _ (mem_own.mp hver))
  | _ => exact hlaw.elim

end Hello

/-- The hello stays done. -/
theorem helloDone_of_mem (ht : Ran guard s log) {i : Party}
    (hm : (i,(⟨.rtkit .helloDone,()⟩ : Ev)) ∈ log) : s.rb.rtkit.helloDone = true := by
  obtain ⟨j,u,-,hu⟩ := core_written ht helloDone_field hm (Option.some_ne_none _)
  cases u <;> first | exact (Option.some.inj hu).symm | contradiction

/-- A version that was stored is one the driver supports. -/
theorem version_of_mem (ht : Ran guard s log) (hl : Lawful law log) {i : Party} {want : U32}
    (hm : (i,(⟨.rtkit (.version want),()⟩ : Ev)) ∈ log) :
    s.rb.rtkit.version = 11#32 ∨ s.rb.rtkit.version = 12#32 := by
  obtain ⟨j,u,hj,hu⟩ := core_written ht version_field hm (Option.some_ne_none _)
  obtain ⟨later,earlier,-,hlaw⟩ := hl.mem hj
  obtain rfl : u = .version s.rb.rtkit.version := by
    cases u <;> first | exact Option.some.inj hu ▸ rfl | contradiction
  cases j with
  | irq =>
    obtain ⟨-,hmin,hmax⟩ := hlaw.resolve_left (by simp)
    have h11 : 11 ≤ s.rb.rtkit.version.toNat := BitVec.le_def.mp hmin
    have h12 : s.rb.rtkit.version.toNat ≤ 12 := BitVec.le_def.mp hmax
    by_cases h : s.rb.rtkit.version.toNat = 11
    · exact .inl (BitVec.eq_of_toNat_eq h)
    · exact .inr (BitVec.eq_of_toNat_eq (show _ = 12 by omega))
  | _ => exact hlaw.elim

/-- In every run in which the hello is done where boot asks for AP power, a boot
that returned 0 has negotiated a version. -/
theorem successful_boot_negotiated {c : Config Party Op Res World}
    (h : driver.Reach helloFirst c) (hb : 0 ∈ bootResults c.log) : Negotiated c := by
  have hl := reach_lawful h
  have ht := h.trace
  have hreply : ∀ later (r : ℤ) earlier,
      c.log = later ++ (.main,⟨.send epMgmt (apPowerMsg pwrOn),r⟩) :: earlier →
        ∃ t : World, Ran helloFirst t earlier ∧ Lawful law earlier ∧
          t.rb.rtkit.helloDone = true := by
    intro later r earlier hlog
    rw [hlog] at ht hl
    obtain ⟨t,_,ht',hg,-⟩ := ht.split
    exact ⟨t,ht',hl.of_append.2,hg rfl⟩
  obtain ⟨⟨i,op,r⟩,hm,hret⟩ := List.mem_filterMap.mp hb
  obtain rfl : op = .mark (.booted 0) := by
    cases op with
    | mark k => cases k <;> first | exact Option.some.inj hret ▸ rfl | contradiction
    | _ => contradiction
  obtain ⟨l1,l2,hlog,hlaw⟩ := hl.mem hm
  have hsent : Sent (apPowerMsg pwrOn) (own .main l2) := by
    cases i with
    | main => exact hlaw rfl
    | irq => exact absurd hlaw (by simp [law, irqLaw, irqStep])
    | _ => exact hlaw.elim
  obtain ⟨l3,l4,rfl⟩ := List.append_of_mem (mem_own.mp hsent)
  have hsplit : c.log = (l1 ++ (i,⟨.mark (.booted 0),r⟩) :: l3) ++
      (.main,⟨.send epMgmt (apPowerMsg pwrOn),(0 : ℤ)⟩) :: l4 := by
    rw [hlog, List.append_assoc, List.cons_append]
  obtain ⟨t,ht4,hl4,hd⟩ := hreply _ _ _ hsplit
  obtain ⟨-,⟨j,hj⟩,k,want,hk⟩ := hello_of ht4 hl4 hd
  have hsub : ∀ x ∈ l4, x ∈ c.log := fun x hx =>
    hsplit ▸ List.mem_append_right _ (List.mem_cons_of_mem _ hx)
  refine ⟨helloDone_of_mem ht (hsub _ hj),version_of_mem ht hl (hsub _ hk),?_⟩
  intro later r earlier hlog
  obtain ⟨u,htu,hlu,hdu⟩ := hreply later r earlier hlog
  exact (hello_of htu hlu hdu).1

theorem successful_boot_negotiated_good :
    ∃ c : Config Party Op Res World, 0 ∈ bootResults c.log ∧ Negotiated c := by
  obtain ⟨c,hc,he⟩ := reach_of_schedule helloFirst goodBoot
    (fun c => bootResults c.log == [0]) (by decide +kernel)
  have hb : 0 ∈ bootResults c.log := by
    rw [beq_iff_eq.mp he]
    exact List.mem_singleton_self 0
  exact ⟨c,hb,successful_boot_negotiated hc hb⟩

/-- A boot with a firmware that never says hello. -/
def helloLess : Schedule :=
  [.acts .main 10 true] ++ delivers (epmapMsg 1 0x3 true) ++ delivers (iopAckMsg pwrOn) ++
    interrupt 55 ++ [.acts .main 7 true] ++ delivers (apAckMsg pwrOn) ++ interrupt 14 ++
    [.acts .main 18 true]

/-- Without a hello boot still returns 0, no version is set and no reply was sent. -/
theorem boot_without_hello : ∃ c : Config Party Op Res World, driver.Reachable c ∧
    0 ∈ bootResults c.log ∧ ¬ Negotiated c ∧ c.state.rb.rtkit.version = 0#32 := by
  obtain ⟨c,hc,he⟩ := reach_of_schedule (fun _ _ _ _ => True) helloLess
    (fun c => bootResults c.log == [0] && !c.state.rb.rtkit.helloDone &&
      c.state.rb.rtkit.version == 0#32) (by decide +kernel)
  simp only [Bool.and_eq_true, beq_iff_eq, Bool.not_eq_eq_eq_not, Bool.not_true] at he
  refine ⟨c,hc,?_,fun hn => ?_,he.2⟩
  · rw [he.1.1]
    exact List.mem_singleton_self 0
  · exact absurd (hn.helloDone.symm.trans he.1.2) (by decide)

end AgxOpen.Rtbuddy
