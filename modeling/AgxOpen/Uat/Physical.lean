import AgxOpen.Uat.Runs

/-!
# Physical addresses an entry cannot hold

The walker refuses a physical address that is not page aligned. The entry also
drops bits 48 and up, which nothing refuses, so such an address is mapped to
another page.
-/
namespace AgxOpen.Uat
open Program

variable {m u v : Memory} {ctxId : U32} {iova phys flags : U64} {events events' : Trace}

/-- An entry holds an aligned address exactly when it is below 2^48. -/
theorem and_pteAddrMask_eq_iff (ha : pageOffset phys = 0#64) :
    phys &&& pteAddrMask = phys ↔ phys.toNat < 2^48 := by
  by_cases h0 : phys = 0#64
  · subst h0
    decide
  · have hp := physOk_iff phys
    rw [PhysOk, and_iff_right h0, and_iff_right h0,
      and_iff_right ((pageOffset_eq_zero_iff phys).mp ha)] at hp
    exact hp

/-- Behind a successful map the lookup answers with the masked address. -/
theorem lookup_after_map (hm : Reached false m)
    (h : Exec (step false) (mapPage ctxId iova phys flags) m events Status.ok u) :
    pageOffset phys = 0#64 ∧
    wp (step false) (lookup ctxId iova) (fun _ r _ => r = (phys &&& pteAddrMask,true)) u := by
  obtain ⟨T,hT⟩ := hm.inv
  obtain ⟨T',hT',hs,-⟩ := h.post (mapPage_spec hT ctxId iova phys flags)
  have hno : (Status.ok = Status.einval) = False := by decide
  have hnm : (Status.ok = Status.enomem) = False := by decide
  cases hk : slotOf ctxId iova with
  | none => simp [Call.spec, hk, hno] at hs
  | some k =>
    simp only [Call.spec, hk] at hs
    split_ifs at hs with ho hr
    · simp [hno] at hs
    · simp [hnm] at hs
    · rw [not_or, not_not, not_not] at ho
      refine ⟨ho.2,wp_mono (lookup_spec hT' ctxId iova) ?_⟩
      intro events' r v hl
      obtain ⟨-,T'',-,hr',-⟩ := hl
      have hM := (Prod.mk.inj hs).2
      simp only [Call.spec, hk, Option.bind_some, hM, Function.update_self, Prod.mk.injEq,
        Reply.found.injEq] at hr'
      exact Prod.ext hr'.1.1 hr'.1.2

/-- A map that reported success is read back as it was asked for exactly when
the physical address is below 2^48, whatever the flags. -/
theorem map_page_exact_iff (hm : Reached false m)
    (h : Exec (step false) (mapPage ctxId iova phys flags) m events Status.ok u) :
    ((∃ events' v, Exec (step false) (lookup ctxId iova) u events' (phys,true) v) ∧
      ∀ events' r v, Exec (step false) (lookup ctxId iova) u events' r v → r = (phys,true)) ↔
    phys.toNat < 2^48 := by
  obtain ⟨ha,hw⟩ := lookup_after_map hm h
  rw [← and_pteAddrMask_eq_iff ha]
  obtain ⟨events',r,v,he,rfl⟩ := wp_exec hw
  constructor
  · intro hx
    exact (Prod.mk.inj (hx.2 _ _ _ he)).1
  · intro hp
    rw [hp] at he hw
    exact ⟨⟨events',v,he⟩,fun events'' r v' he' => he'.post hw⟩

theorem map_page_exact_iff_demo : ∃ m events u,
    Reached false m ∧
    Exec (step false) (mapPage 3 0x40000000 0xffffffffc000 0xff) m events Status.ok u ∧
    (((∃ events' v, Exec (step false) (lookup 3 0x40000000) u events' (0xffffffffc000,true) v) ∧
      ∀ events' r v, Exec (step false) (lookup 3 0x40000000) u events' r v →
        r = (0xffffffffc000,true)) ↔ (0xffffffffc000 : U64).toNat < 2^48) := by
  have hd : (runWith (step false) firstFit (mapPage 3 0x40000000 0xffffffffc000 0xff)
      (init fun _ => 0#64)).map (fun x => x.2.1) = some Status.ok := by decide +kernel
  obtain ⟨⟨events,r,u⟩,hrun,rfl⟩ := Option.map_eq_some_iff.mp hd
  have hm : Reached false (init fun _ => 0#64) := ⟨[],.nil _⟩
  have hexec := runWith_exec hrun
  exact ⟨_,events,u,hm,hexec,map_page_exact_iff hm hexec⟩

/-- A page above 2^48 is mapped with status 0 and read back as another page. -/
theorem map_page_foreign : ∃ m events u events' v,
    Reached false m ∧
    Exec (step false) (mapPage 3 0x40000000 0x1000000008000 0xff) m events Status.ok u ∧
    Exec (step false) (lookup 3 0x40000000) u events' (0x8000,true) v := by
  have hd : ((runWith (step false) firstFit (mapPage 3 0x40000000 0x1000000008000 0xff)
      (init fun _ => 0#64)).bind fun x => (runWith (step false) firstFit (lookup 3 0x40000000)
        x.2.2).map fun y => (x.2.1,y.2.1)) = some (Status.ok,0x8000,true) := by decide +kernel
  obtain ⟨⟨events,r,u⟩,hrun,hd⟩ := Option.bind_eq_some_iff.mp hd
  obtain ⟨⟨events',r',v⟩,hrun',he⟩ := Option.map_eq_some_iff.mp hd
  obtain ⟨rfl,rfl⟩ := Prod.mk.inj he
  exact ⟨_,events,u,events',v,⟨[],.nil _⟩,runWith_exec hrun,runWith_exec hrun'⟩

end AgxOpen.Uat
