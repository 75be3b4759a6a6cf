import AgxOpen.Rtbuddy.BootCompletes
import AgxOpen.Rtbuddy.Buffers
import AgxOpen.Rtbuddy.CleanBoot

/-!
# Remove can always come to its end

Whatever happened so far, the boot thread can go on to the end of remove. It needs no answer
from the firmware and no GPU caller. A handler that was entered has to leave, and no other one
is entered for it.
-/
namespace AgxOpen.Rtbuddy

variable {guard : World → RunLog → Party → Op → Prop} {c d : Config Party Op Res World}
  {op : Op}

/-- Only the boot thread acts, and a handler that was entered before. -/
def winding (_ : World) (_ : RunLog) (i : Party) (op : Op) : Prop :=
  i = .main ∨ i = .irq ∧ op ≠ .irqEnter

abbrev Winds : Config Party Op Res World → Config Party Op Res World → Prop := driver.Leads winding

theorem reach_winds (hc : driver.Reachable c) (hw : Winds c d) : driver.Reachable d :=
  hc.leads (Relation.ReflTransGen.mono (fun _ _ hs => Threads.Step.mono hs fun _ _ _ _ _ => trivial)
    _ _ hw)

/-- A handler that was entered leaves. -/
theorem handler_leaves (hc : driver.Reachable c) :
    ∃ d, Winds c d ∧ d.thread .main = c.thread .main ∧ d.state.irqBusy = false := by
  refine Threads.leads_end .irq
    (I := fun d => driver.Reachable d ∧ d.thread .main = c.thread .main)
    (fun d op next ⟨hd,hmain⟩ hthread => ?_) (fun d ⟨hd,hmain⟩ hend => ?_) ⟨hc,rfl⟩
  · have hl := (hd.lawful disciplined).2 .irq
    rw [hthread] at hl
    by_cases hent : op = .irqEnter
    · obtain ⟨-,hout⟩ | ho := reach_entry hd
      · exact ⟨d,.refl,.inl ⟨hmain,irqBusy_outside hd hout⟩⟩
      · rw [hthread] at ho
        exact absurd hent ho.1
    · obtain ⟨r,ha,-⟩ := exists_answer d.state (blocks_irq hl.1 hent)
      have hw : Winds d (acted d .irq op r next) := .single (.act hthread (.inr ⟨rfl,hent⟩) ⟨ha,rfl⟩)
      refine ⟨_,hw,.inr ⟨⟨reach_winds hd hw,?_⟩,r,acted_thread⟩⟩
      exact (acted_other (by decide)).trans hmain
  · have hout := (hd.lawful disciplined).2 .irq
    rw [hend] at hout
    exact ⟨hmain,irqBusy_outside hd hout.1⟩

/-- Where the boot thread is at its end, remove returned. -/
theorem removed_of_end (hc : driver.Reach guard c) (hend : c.thread .main = .ret ()) :
    (⟨.mark .removed,()⟩ : Ev) ∈ own .main c.log := by
  have hfirst : Obeys (fun _ _ => True) (May guard .main) lifecycle
      (fun h _ => (⟨.mark .removed,()⟩ : Ev) ∈ h) [] := by
    refine (obeys_true boot).bind fun h₁ ret _ => .request trivial fun _ _ => ?_
    exact (obeys_true remove).bind fun h₂ _ _ => ⟨trivial,fun _ _ => List.mem_cons_self⟩
  have hlast := (hc.along disciplined .main _ hfirst nofun).2
  rwa [hend] at hlast

/-- Remove returns behind boot. -/
theorem booted_of_removed (hc : driver.Reach guard c)
    (hm : (.main,(⟨.mark .removed,()⟩ : Ev)) ∈ c.log) : ∃ ret, Booted ret (own .main c.log) := by
  obtain ⟨later,earlier,hlog,hlaw⟩ := (reach_lawful hc).mem hm
  have hl := reach_lawful hc
  rw [hlog] at hl
  obtain ⟨ret,hb⟩ := ((hlaw 0).released (hl.of_append.2.along .main)).booted
  refine ⟨ret,mem_own.mpr (hlog ▸ List.mem_append_right _ ?_)⟩
  exact List.mem_cons_of_mem _ (mem_own.mp hb)

theorem main_passes {next : Res op → Prog Unit} (hc : driver.Reachable c)
    (hthread : c.thread .main = .call op next) : ∃ d, Winds c d ∧ ∃ r, d.thread .main = next r := by
  have hnext {d : Config Party Op Res World} (hw : Winds c d)
      (hd : d.thread .main = c.thread .main) {r : Res op} (ha : d.state.allows op r) :
      ∃ e, Winds c e ∧ ∃ r, e.thread .main = next r :=
    ⟨_,hw.tail (.act (hd.trans hthread) (.inl rfl) ⟨ha,rfl⟩),r,acted_thread⟩
  have hfree (hop : blocks op = false) : ∃ d, Winds c d ∧ ∃ r, d.thread .main = next r := by
    obtain ⟨r,ha,-⟩ := exists_answer c.state hop
    exact hnext .refl rfl ha
  have hl := (hc.lawful disciplined).2 .main
  rw [hthread] at hl
  cases op with
  | wait stage =>
    exact hnext .refl rfl (r := (0 : ℕ)) (.inl rfl)
  | freeIrq =>
    obtain ⟨d,hw,hd,hbusy⟩ := handler_leaves hc
    exact hnext hw hd (r := ()) hbusy
  | irqEnter => exact hl.1.elim
  | _ => exact hfree rfl

theorem main_ends (hc : driver.Reachable c) : ∃ d, Winds c d ∧ d.thread .main = .ret () := by
  refine Threads.leads_end .main (I := driver.Reachable) (fun d op next hd hthread => ?_)
    (fun d _ hend => hend) hc
  obtain ⟨e,hw,hr⟩ := main_passes hd hthread
  exact ⟨e,hw,.inr ⟨reach_winds hd hw,hr⟩⟩

/-- Wherever the driver is, boot and remove can still return, without the firmware and without
the GPU callers. Then the interrupt is released, the CPU stopped and no buffer handed out. -/
theorem removal_completes (hc : driver.Reachable c) : ∃ d ret, Winds c d ∧
    d.thread .main = .ret () ∧ Booted ret (own .main d.log) ∧ RemovedClean ret d ∧
      d.state.dma = [] := by
  obtain ⟨d,hw,hend⟩ := main_ends hc
  have hd := reach_winds hc hw
  have hm := removed_of_end hd hend
  obtain ⟨ret,hb⟩ := booted_of_removed hd (mem_own.mp hm)
  exact ⟨d,ret,hw,hend,hb,removedClean_of hd hb fun hn => hn hm,
    dma_removed hd.trace (reach_lawful hd) (reach_strike hd) (mem_own.mp hm)⟩

/-- The boot thread waits for the handler. -/
def releases : Prog Unit → Bool
  | .call .freeIrq _ => true
  | _ => false

/-- Boot timed out, and remove is at the release of the interrupt while the handler is inside. -/
theorem removal_completes_busy : ∃ c d ret, c.state.irqBusy = true ∧
    releases (c.thread .main) = true ∧ Winds c d ∧ RemovedClean ret d ∧ d.state.dma = [] := by
  obtain ⟨c,hc,he⟩ := reach_of_schedule (fun _ _ _ _ => True)
    [.acts .main 10 true,.start .irq .interrupt,.acts .irq 1 true,.acts .main 11 false]
    (fun c => c.state.irqBusy && releases (c.thread .main)) (by decide +kernel)
  obtain ⟨hbusy,hrel⟩ := Bool.and_eq_true_iff.mp he
  obtain ⟨d,ret,hw,-,-,hclean,hdma⟩ := removal_completes hc
  exact ⟨c,d,ret,hbusy,hrel,hw,hclean,hdma⟩

end AgxOpen.Rtbuddy
