import AgxOpen.Rtbuddy.BootOrder
import AgxOpen.Rtbuddy.Custody

/-!
# The lifetime of the shared buffers

From its allocation until remove frees it a buffer is in one slot, and the
protocol core and the driver name the same endpoints.
-/
namespace AgxOpen.Rtbuddy
open Rtkit

variable {guard : World → RunLog → Party → Op → Prop} {h : Hist} {s t : World} {log : RunLog}
  {slot k : Fin 4} {b : Shmem} {c d : Config Party Op Res World}

/-- What an operation does to the coherent memory. -/
def moveOf : Ev → Move Shmem
  | ⟨.dmaAlloc _ size,r⟩ => if r.1 = 0 then .keep else .take ⟨r.1,r.2,size⟩
  | ⟨.dmaFree buffer,_⟩ => .give buffer
  | _ => .keep

/-- The moves of a run, oldest first. -/
def moves (log : RunLog) : List (Move Shmem) := (log.map fun e => moveOf e.2).reverse

/-- For the endpoints with a buffer the core has set the bit of those whose slot
in the driver has one. -/
def RecordsAgree (s : World) : Prop :=
  ∀ endpoint slot, shmemSlot endpoint = some slot →
    (s.rb.rtkit.buffers &&& bufferBit endpoint ≠ 0#32 ↔ (s.rb.shmem slot).cpu ≠ 0)

/-- The slot has the buffer, with its size unless that store is still to come. -/
def Holds (s : World) (log : RunLog) (b : Shmem) (k : Fin 4) : Prop :=
  (s.rb.shmem k).cpu = b.cpu ∧ (s.rb.shmem k).iova = b.iova ∧
    ((s.rb.shmem k).size = b.size ∨ pending (own .irq log) = some (k,b.size))

/-- The CPU is stopped and the interrupt is released. -/
structure AtRest (s : World) : Prop where
  cpu : s.cpuCtrl &&& cpuCtrlRun = 0#32
  irq : s.irqRegistered = false
  handler : s.irqBusy = false

theorem shmemSlot_bit {endpoint : U32} (h : shmemSlot endpoint = some slot) :
    bufferBit endpoint = BitVec.twoPow 32 slot := by
  unfold shmemSlot at h
  split_ifs at h with h0 h1 h2 h3
  · obtain rfl := Option.some.inj h
    rw [h0]
    rfl
  · obtain rfl := Option.some.inj h
    rw [h1]
    rfl
  · obtain rfl := Option.some.inj h
    rw [h2]
    rfl
  · obtain rfl := Option.some.inj h
    rw [h3]
    rfl

theorem recordsAgree_of (ht : Ran guard s log) (hl : Lawful law log)
    (hc : current (own .irq log) = none) (hn : Uncleared (own .main log)) : RecordsAgree s := by
  intro endpoint slot hslot
  have hlt : slot.val < 32 := slot.isLt.trans (by decide)
  rw [shmemSlot_bit hslot, shmem_uncleared ht hl hn, ← (settled_of (hl.along .irq) hc).agree slot,
    ← buffers_eq ht hl, Ne, BitFields.and_twoPow_eq_zero_iff _ hlt, BitVec.getLsbD_eq_getElem hlt, Bool.not_eq_false]

theorem Custody.holds (hc : Custody s log) (hb : b ∈ s.dma) : ∃! k, Holds s log b k := by
  obtain ⟨hcpu,-,k,rfl⟩ := (hc.tallies.mem b).mp hb
  have hsame : (sized s.rb.shmem (pending (own .irq log)) k).cpu = (s.rb.shmem k).cpu := sized_cpu _ k
  refine ⟨k,?_,fun j hj => ?_⟩
  · unfold Holds
    cases hp : pending (own .irq log) with
    | none => exact ⟨rfl,rfl,.inl rfl⟩
    | some x =>
      obtain ⟨slot,size⟩ := x
      rw [sized, Function.update_apply]
      split_ifs with hk
      · subst hk
        exact ⟨rfl,rfl,.inr rfl⟩
      · exact ⟨rfl,rfl,.inl rfl⟩
  · have hj' : (s.rb.shmem j).cpu = (s.rb.shmem k).cpu := hj.1.trans hsame
    refine hc.distinct j k hj' ?_
    rw [hj', ← hsame]
    exact hcpu

theorem settle_of (ht : Ran guard s log) (hl : Lawful law log) (hs : Along strikeLaw (own .main log)) :
    settle [] (moves log) = some s.dma := by
  induction ht with
  | init h₀ => rw [h₀.dma]; rfl
  | @act s log i op r t ht _ hstep ih =>
    obtain ⟨ha,rfl⟩ := hstep
    have hs' : Along strikeLaw (own .main log) := by
      by_cases hi : i = .main
      · subst hi
        rw [own_cons_self] at hs
        exact hs.2
      · rwa [own_cons_ne hi] at hs
    have hpost : post s.dma (moveOf ⟨op,r⟩) = some (s.after op r).dma := by
      cases op with
      | dmaAlloc slot size =>
        by_cases hr : r.1 = 0
        · simp [moveOf, World.after, hr, post]
        · simp [moveOf, World.after, hr, post]
      | dmaFree b =>
        obtain rfl := eq_main hl.1 rfl
        have hmem := ((custody_of ht hl.2 hs').outstanding ht hl.2 hl.1).1
        exact if_pos hmem
      | _ => rfl
    rw [moves, List.map_cons, List.reverse_cons, settle_append]
    rw [← moves, ih hl.2 hs', Option.bind_some, settle, hpost]
    rfl

theorem Emptied.released (ha : Along mainLaw h) (he : Emptied slot h) : Released h := by
  obtain ⟨later,earlier,hr,rfl | ⟨x,rfl,-⟩⟩ := he
  · exact (hr.cons ha.of_append.1).append ha
  · exact (hr.cons ha.of_append.1).append ha

/-- A slot that remove has dealt with stays empty. -/
theorem emptied_cpu (ht : Ran guard s log) (hl : Lawful law log) (he : Emptied slot (own .main log)) :
    (s.rb.shmem slot).cpu = 0 := by
  induction ht with
  | init h₀ => rw [h₀.rb]; rfl
  | @act s log i op r t ht _ hstep ih =>
    obtain ⟨ha,rfl⟩ := hstep
    cases i with
    | main =>
      have hlaw : mainLaw (own .main log) op := hl.1
      have hkeep (hold : (s.rb.shmem slot).cpu = 0) : ((s.after op r).rb.shmem slot).cpu = 0 := by
        cases op with
        | dmaAlloc => exact hlaw.elim
        | store f =>
          cases f with
          | shmemSize => exact hlaw.elim
          | clearShmem k =>
            have hupd : (s.after (.store (.clearShmem k)) r).rb.shmem slot =
                if slot = k then ⟨0,0#64,0#64⟩ else s.rb.shmem slot := Function.update_apply ..
            rw [hupd]
            split_ifs
            · rfl
            · exact hold
          | _ => exact hold
        | _ => exact hold
      rw [own_cons_self] at he
      obtain ⟨later,earlier,hr,he⟩ := he
      cases later with
      | nil =>
        obtain he | ⟨x,he,hx⟩ := he
        · cases (List.cons.inj he).1
          have hupd : (s.after (.store (.clearShmem slot)) ()).rb.shmem slot = ⟨0,0#64,0#64⟩ :=
            Function.update_self ..
          rw [hupd]
        · cases (List.cons.inj he).1
          obtain rfl : x = s.rb := ha
          exact hx
      | cons a later =>
        refine hkeep (ih hl.2 ⟨later,earlier,hr,?_⟩)
        obtain he | ⟨x,he,hx⟩ := he
        · exact .inl (List.cons.inj he).2
        · exact .inr ⟨x,(List.cons.inj he).2,hx⟩
    | irq =>
      rw [own_cons_ne (by simp)] at he
      exact absurd (he.released (hl.2.along .main)) (irq_unreleased ht hl.2 hl.1 ha)
    | gpu | firmware =>
      rw [own_cons_ne (by simp)] at he
      have hold := ih hl.2 he
      have hlaw := hl.1
      cases op <;> first | exact hold | exact hlaw.elim

/-- What every run makes of the shared buffers. -/
structure BufferLifetime (guard : World → RunLog → Party → Op → Prop)
    (c : Config Party Op Res World) : Prop where
  /-- Between two messages and until remove clears a slot. -/
  agree : current (own .irq c.log) = none → Uncleared (own .main c.log) → RecordsAgree c.state
  /-- Only remove takes a buffer out of its slot, when it is handed out no longer. -/
  kept : ∀ d, driver.Step guard c d → ∀ k, (c.state.rb.shmem k).cpu ≠ 0 →
    (d.state.rb.shmem k).cpu = (c.state.rb.shmem k).cpu ∧
      (d.state.rb.shmem k).iova = (c.state.rb.shmem k).iova ∨
    d.log = (.main,⟨.store (.clearShmem k),()⟩) :: c.log ∧ c.state.rb.shmem k ∉ c.state.dma
  recorded : ∀ b ∈ c.state.dma, ∃! k, Holds c.state c.log b k
  /-- The frees match the allocations, and what is left is handed out. -/
  settled : settle [] (moves c.log) = some c.state.dma
  freed : ∀ d i b r, driver.Step guard c d → d.log = (i,⟨.dmaFree b,r⟩) :: c.log → AtRest c.state
  removed : (.main,(⟨.mark .removed,()⟩ : Ev)) ∈ c.log → c.state.dma = []

theorem atRest_of (ht : Ran guard s log) (hl : Lawful law log) (hr : Released (own .main log)) : AtRest s := by
  obtain ⟨ctrl,hc,h0⟩ := hr.cpu
  exact ⟨by rw [cpuCtrl_eq ht hl hc, h0],hr.irqRegistered ht hl,hr.irqBusy ht hl⟩

theorem kept_of (hc : driver.Reach guard c) (hs : driver.Step guard c d)
    (hk : (c.state.rb.shmem k).cpu ≠ 0) :
    (d.state.rb.shmem k).cpu = (c.state.rb.shmem k).cpu ∧
      (d.state.rb.shmem k).iova = (c.state.rb.shmem k).iova ∨
    d.log = (.main,⟨.store (.clearShmem k),()⟩) :: c.log ∧ c.state.rb.shmem k ∉ c.state.dma := by
  have ht := hc.trace
  have hl := reach_lawful hc
  have hl' := reach_lawful (hc.step hs)
  have hcust := custody_of ht hl (reach_strike hc)
  cases hs with
  | start => exact .inl ⟨rfl,rfl⟩
  | @act i op next r t _ _ hstep =>
    obtain ⟨ha,rfl⟩ := hstep
    have hlaw := hl'.1
    cases op with
    | dmaAlloc slot size =>
      obtain rfl := eq_irq hlaw rfl
      have hn := irq_unreleased ht hl hlaw ha
      have hempty := (hlaw.resolve_left (by simp)).2.1
      rw [← shmem_eq ht hl hn] at hempty
      have hne : k ≠ slot := by
        rintro rfl
        exact hk hempty
      have hupd : (c.state.after (.dmaAlloc slot size) r).rb.shmem k = c.state.rb.shmem k :=
        Function.update_of_ne hne ..
      exact .inl (by rw [hupd]; exact ⟨rfl,rfl⟩)
    | store f =>
      cases f with
      | shmemSize slot size =>
        have hupd : (c.state.after (.store (.shmemSize slot size)) r).rb.shmem k =
            if k = slot then { c.state.rb.shmem slot with size := size } else c.state.rb.shmem k :=
          Function.update_apply ..
        refine .inl ?_
        rw [hupd]
        split_ifs with hslot
        · rw [hslot]
          exact ⟨rfl,rfl⟩
        · exact ⟨rfl,rfl⟩
      | clearShmem slot =>
        by_cases hslot : k = slot
        · subst hslot
          obtain rfl := eq_main hlaw rfl
          exact .inr ⟨rfl,hcust.struck hlaw⟩
        · have hupd : (c.state.after (.store (.clearShmem slot)) r).rb.shmem k = c.state.rb.shmem k :=
            Function.update_of_ne hslot ..
          exact .inl (by rw [hupd]; exact ⟨rfl,rfl⟩)
      | _ => exact .inl ⟨rfl,rfl⟩
    | _ => exact .inl ⟨rfl,rfl⟩

/-- Remove leaves no buffer handed out. -/
theorem dma_removed (ht : Ran guard s log) (hl : Lawful law log)
    (hs : Along strikeLaw (own .main log)) (hm : (.main,(⟨.mark .removed,()⟩ : Ev)) ∈ log) :
    s.dma = [] := by
  refine (custody_of ht hl hs).tallies.eq_nil fun b hb => ?_
  obtain ⟨hcpu,-,k,rfl⟩ := hb
  rw [sized_cpu] at hcpu
  obtain ⟨later,earlier,hlog,hlaw⟩ := hl.mem hm
  have hsuffix : earlier <:+ log := hlog ▸ (List.suffix_cons ..).trans (List.suffix_append ..)
  exact hcpu (emptied_cpu ht hl ((hlaw k).mono (own_suffix .main hsuffix)))

/-- The records agree, buffers are in one slot each, and remove frees them all. -/
theorem buffer_lifetime (hc : driver.Reach guard c) : BufferLifetime guard c := by
  have ht := hc.trace
  have hl := reach_lawful hc
  have hcust := custody_of ht hl (reach_strike hc)
  refine ⟨recordsAgree_of ht hl,fun d hs k => kept_of hc hs,fun b => hcust.holds,
    settle_of ht hl (reach_strike hc),?_,?_⟩
  · intro d i b r hs hd
    have hl' := reach_lawful (hc.step hs)
    rw [hd] at hl'
    obtain rfl := eq_main hl'.1 rfl
    exact atRest_of ht hl hl'.1.1
  · exact dma_removed ht hl (reach_strike hc)

/-- The firmware asks for the buffers of two endpoints, and remove frees them
although its own messages time out. -/
def twoBuffers : Schedule :=
  goodBoot ++ delivers (bufferMsg 2#64) 2#64 ++ delivers (bufferMsg 1#64) 1#64 ++ interrupt 30 ++
    [.acts .main 29 false]

def freedPtrs (log : RunLog) : List Ptr := log.filterMap fun e =>
  match e.2 with
  | ⟨.dmaFree buffer,_⟩ => some buffer.cpu
  | _ => none

theorem buffer_lifetime_two : ∃ c : Config Party Op Res World,
    freedPtrs c.log = [1,2] ∧ c.state.dma = [] ∧ BufferLifetime (fun _ _ _ _ => True) c := by
  obtain ⟨c,hc,he⟩ := reach_of_schedule (fun _ _ _ _ => True) twoBuffers
    (fun c => freedPtrs c.log == [1,2] && c.state.dma == []) (by decide +kernel)
  simp only [Bool.and_eq_true, beq_iff_eq] at he
  exact ⟨c,he.1,he.2,buffer_lifetime hc⟩

end AgxOpen.Rtbuddy
