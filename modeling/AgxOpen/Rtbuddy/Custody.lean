import AgxOpen.Ledger
import AgxOpen.Rtbuddy.Kinds
import AgxOpen.Rtbuddy.Runs

/-!
# Who holds a buffer

The interrupt thread puts buffers into the slots and remove takes them out. The
slots are the live items of a ledger of the coherent memory, whose balance is
the list of buffers that are handed out.
-/
namespace AgxOpen.Rtbuddy
open Rtkit

variable {guard : World → RunLog → Party → Op → Prop} {h : Hist} {s t : World} {log : RunLog}
  {shmem : Fin 4 → Shmem} {slot k : Fin 4} {b : Shmem} {α : Type}

/-- The buffer the boot thread has just freed. -/
def freeing : Hist → Option Shmem
  | ⟨.dmaFree buffer,_⟩ :: _ => some buffer
  | _ => none

/-- Behind the free of a buffer its slot is cleared. -/
def strikeLaw (h : Hist) (op : Op) : Prop := freeing h ≠ none → ∃ slot, op = .store (.clearShmem slot)

abbrev StrikeObeys (guard : World → RunLog → Party → Op → Prop) (p : Prog α)
    (Q : Hist → α → Prop) (h : Hist) : Prop := Obeys strikeLaw (May guard .main) p Q h

def spares : Op → Bool
  | .dmaFree _ => false
  | _ => true

theorem freeing_spared {o : Op} {r : Res o} (ho : spares o = true) : freeing (⟨o,r⟩ :: h) = none := by
  cases o <;> first | rfl | contradiction

abbrev SparingProg (p : Prog α) : Prop := Program.Only (fun op => spares op = true) p

theorem strike_spared {p : Prog α} (hp : SparingProg p) (hf : freeing h = none) :
    StrikeObeys guard p (fun h' _ => freeing h' = none) h :=
  obeys_only hp (fun h => freeing h = none) hf (fun _ _ _ hf hn => absurd hf hn)
    fun _ _ _ ho _ _ => freeing_spared ho

theorem sparing_of_talk {p : Prog α} (hp : TalkProg p) : SparingProg p := by
  refine hp.mono fun op hop => ?_
  cases op <;> first | rfl | contradiction

theorem sparing_stopCpu : SparingProg stopCpu :=
  ⟨rfl,fun _ => Program.only_ite.mpr ⟨fun _ => trivial,fun _ => ⟨rfl,fun _ => ⟨rfl,fun _ =>
    ⟨rfl,fun _ => trivial⟩⟩⟩⟩⟩

theorem sparing_setPower (state : PowerState) : SparingProg (setPower state) := by
  refine ⟨rfl,fun s => Program.only_ite.mpr ⟨fun _ => trivial,fun _ => ⟨rfl,fun _ => ?_⟩⟩⟩
  exact Program.only_ite.mpr ⟨fun _ => ⟨rfl,fun _ => trivial⟩,fun _ => trivial⟩

theorem sparing_bootFail (ret : ℤ) : SparingProg (bootFail ret) :=
  sparing_stopCpu.bind fun _ => ⟨rfl,fun _ => ⟨rfl,fun _ => trivial⟩⟩

/-- A stage of boot that fails or goes on. -/
theorem sparing_stage {ret : ℤ} {p : Prog ℤ} (hp : SparingProg p) :
    SparingProg (if ret ≠ 0 then bootFail ret else p) :=
  Program.only_ite.mpr ⟨fun _ => sparing_bootFail ret,fun _ => hp⟩

theorem sparing_boot : SparingProg boot := by
  have hstart (endpoint : U32) : SparingProg (startEndpoint port endpoint) :=
    sparing_of_talk (talk_startEndpoint endpoint)
  have hwait (stage : Stage) : SparingProg (wait stage) := sparing_of_talk (talk_wait stage)
  have hendpoints : SparingProg bootEndpoints := by
    refine (hstart _).bind fun _ => sparing_stage ⟨rfl,fun _ => ?_⟩
    refine (hstart _).bind fun _ => sparing_stage ⟨rfl,fun _ => ?_⟩
    exact (sparing_setPower _).bind fun _ => trivial
  have hap : SparingProg bootApPower := by
    refine (sparing_of_talk (talk_setApPower _)).bind fun _ => sparing_stage ?_
    refine (hwait _).bind fun _ => sparing_stage ?_
    refine (sparing_of_talk talk_running).bind fun _ => ?_
    exact Program.only_ite.mpr ⟨fun _ => sparing_bootFail _,fun _ => hendpoints⟩
  have hroll : SparingProg bootRollCall := by
    refine (hwait _).bind fun _ => sparing_stage ?_
    refine (hwait _).bind fun _ => sparing_stage ⟨rfl,fun _ => ?_⟩
    exact Program.only_ite.mpr ⟨fun _ => sparing_bootFail _,fun _ => hap⟩
  refine ⟨rfl,fun _ => ⟨rfl,fun _ => ⟨rfl,fun _ => ⟨rfl,fun _ => ⟨rfl,fun _ => ?_⟩⟩⟩⟩⟩
  refine (sparing_of_talk (talk_setIopPower _)).bind fun _ => sparing_stage ?_
  exact (sparing_of_talk talk_requestIrq).bind fun _ => sparing_stage hroll

theorem strike_freeShmem (hf : freeing h = none) :
    StrikeObeys guard freeShmem (fun h' _ => freeing h' = none) h := by
  refine obeys_forRange (fun _ h' => freeing h' = none) 4 hf ?_
  intro k _ h1 hf1
  refine .request (fun hn => absurd hf1 hn) fun x _ => ?_
  change StrikeObeys guard (if _ then _ else _) _ _
  split_ifs
  · rfl
  · exact ⟨fun hn => absurd rfl hn,fun _ _ => ⟨fun _ => ⟨_,rfl⟩,fun _ _ => rfl⟩⟩

theorem strike_lifecycle : StrikeObeys guard lifecycle (fun _ _ => True) [] := by
  refine (strike_spared sparing_boot rfl).bind fun h1 ret hf1 => ?_
  refine .request (fun hn => absurd hf1 hn) fun _ _ => ?_
  have hf2 : freeing (⟨.mark (.booted ret),()⟩ :: h1) = none := rfl
  refine Obeys.bind (Q := fun h' _ => freeing h' = none) ?_ fun h3 _ hf3 =>
    ⟨fun hn => absurd hf3 hn,fun _ _ => trivial⟩
  refine (strike_spared (sparing_of_talk talk_shutdown) hf2).bind fun _ _ hf => ?_
  refine (strike_spared (sparing_of_talk talk_freeIrq) hf).bind fun _ _ hf => ?_
  refine (strike_spared sparing_stopCpu hf).bind fun _ _ hf => ?_
  refine (strike_freeShmem hf).bind fun _ _ hf => ?_
  exact strike_spared ⟨rfl,fun _ => ⟨rfl,fun _ => sparing_setPower .off⟩⟩ hf

theorem reach_strike {c : Config Party Op Res World} (hc : driver.Reach guard c) :
    Along strikeLaw (own .main c.log) :=
  (hc.along disciplined .main (fun _ => True) strike_lifecycle (by simp [driver, program])).1

theorem settled_of (ha : Along irqLaw h) (hc : current h = none) : Settled h := by
  induction h with
  | nil => exact settled_nil
  | cons a h ih =>
    obtain ⟨op,r⟩ := a
    obtain ⟨hl,hrest⟩ := ha
    have hstep (hn : op ≠ .irqEnter) : irqStep h op := (hl.resolve_left hn).2
    have hkeep (hcur : current h = none) (hp : allocates ⟨op,r⟩ = none)
        (hs : ∀ f, setsShmem f ⟨op,r⟩ = f) (hb : ∀ f, orsBuffers f ⟨op,r⟩ = f) :
        Settled (⟨op,r⟩ :: h) := by
      have hset := ih hrest hcur
      refine ⟨hc,?_,fun slot => ?_⟩
      · rw [pending, latest_cons, hp]
        exact hset.pending
      · rw [buffersOf, shmemOf, replay_cons, replay_cons, hs, hb]
        exact hset.agree slot
    cases op with
    | mark m =>
      cases m with
      | rx => cases hc
      | rxDone => exact ⟨hc,(hstep (by simp)).1,(hstep (by simp)).2⟩
      | booted | removed => exact hkeep hc rfl (fun _ => rfl) fun _ => rfl
    | dmaAlloc => exact absurd hc (hstep (by simp)).2.2
    | rtkit u =>
      cases u with
      | orBuffers => exact absurd hc (hstep (by simp))
      | _ => exact hkeep hc rfl (fun _ => rfl) fun _ => rfl
    | store f =>
      cases f with
      | shmemSize => exact absurd hc (hstep (by simp)).2
      | clearShmem => exact (hstep (by simp)).elim
      | _ => exact hkeep hc rfl (fun _ => rfl) fun _ => rfl
    | _ => exact hkeep hc rfl (fun _ => rfl) fun _ => rfl

/-- Outside the handler no message is being handled. -/
theorem current_outside (ha : Along irqLaw h) (hi : inside h = false) : current h = none := by
  induction h with
  | nil => rfl
  | cons a h ih =>
    obtain ⟨op,r⟩ := a
    obtain ⟨hl,hrest⟩ := ha
    obtain rfl | ⟨hin,hs⟩ := hl
    · cases hi
    · cases op with
      | irqEnter => exact hs.elim
      | irqExit => exact hs
      | _ =>
        have hout : inside h = false := hi
        rw [hin] at hout
        contradiction

/-- The slots with the size that an allocation has yet to store. -/
def sized (shmem : Fin 4 → Shmem) : Option (Fin 4 × U64) → Fin 4 → Shmem
  | some (slot,size) => Function.update shmem slot { shmem slot with size := size }
  | none => shmem

/-- The slots stand for the buffer. -/
structure Live (shmem : Fin 4 → Shmem) (free : Option Shmem) (b : Shmem) : Prop where
  cpu : b.cpu ≠ 0
  kept : free ≠ some b
  slot : ∃ k, shmem k = b

/-- No two slots have the same buffer. -/
def Distinct (shmem : Fin 4 → Shmem) : Prop :=
  ∀ j k, (shmem j).cpu = (shmem k).cpu → (shmem j).cpu ≠ 0 → j = k

/-- The structure the boot thread loaded last, with nothing or a free behind it. -/
def Loaded (x : Rtbuddy) (h : Hist) : Prop :=
  ∃ rest, h = ⟨.load,x⟩ :: rest ∨ ∃ b, h = ⟨.dmaFree b,()⟩ :: ⟨.load,x⟩ :: rest

/-- The buffers that are handed out are those of the slots. -/
structure Custody (s : World) (log : RunLog) : Prop where
  tallies : Tallies (Live (sized s.rb.shmem (pending (own .irq log))) (freeing (own .main log))) s.dma
  distinct : Distinct s.rb.shmem
  loaded : Released (own .main log) → ∀ x, Loaded x (own .main log) → s.rb.shmem = x.shmem

theorem sized_cpu (pend : Option (Fin 4 × U64)) (k : Fin 4) : (sized shmem pend k).cpu = (shmem k).cpu := by
  cases pend with
  | none => rfl
  | some x =>
    obtain ⟨slot,size⟩ := x
    rw [sized, Function.update_apply]
    split_ifs with hk
    · rw [hk]
    · rfl

/-- An empty slot takes a buffer. -/
theorem live_fill {free : Option Shmem} (he : (shmem slot).cpu = 0) (x : Shmem) (hx : x.cpu ≠ 0)
    (hf : free ≠ some x) :
    Live (Function.update shmem slot x) free b ↔ b = x ∨ Live shmem free b := by
  constructor
  · rintro ⟨hcpu,hkept,k,hk⟩
    rw [Function.update_apply] at hk
    split_ifs at hk
    · exact .inl hk.symm
    · exact .inr ⟨hcpu,hkept,k,hk⟩
  · rintro (rfl | ⟨hcpu,hkept,k,rfl⟩)
    · exact ⟨hx,hf,slot,Function.update_self ..⟩
    · have hne : k ≠ slot := by
        rintro rfl
        exact hcpu he
      exact ⟨hcpu,hkept,k,Function.update_of_ne hne ..⟩

/-- A slot without a buffer may get any other record of that. -/
theorem live_empty {free : Option Shmem} (he : (shmem slot).cpu = 0) (x : Shmem) (hx : x.cpu = 0) :
    Live (Function.update shmem slot x) free b ↔ Live shmem free b := by
  constructor
  · rintro ⟨hcpu,hkept,k,hk⟩
    rw [Function.update_apply] at hk
    split_ifs at hk
    · exact absurd (by rw [← hk, hx]) hcpu
    · exact ⟨hcpu,hkept,k,hk⟩
  · rintro ⟨hcpu,hkept,k,rfl⟩
    have hne : k ≠ slot := by
      rintro rfl
      exact hcpu he
    exact ⟨hcpu,hkept,k,Function.update_of_ne hne ..⟩

/-- A freed buffer leaves its slot. -/
theorem live_strike (hd : Distinct shmem) (hc : (shmem slot).cpu ≠ 0) (x : Shmem) (hx : x.cpu = 0) :
    Live (Function.update shmem slot x) none b ↔ Live shmem (some (shmem slot)) b := by
  constructor
  · rintro ⟨hcpu,-,k,hk⟩
    rw [Function.update_apply] at hk
    split_ifs at hk with hslot
    · exact absurd (by rw [← hk, hx]) hcpu
    · refine ⟨hcpu,?_,k,hk⟩
      intro he
      have hsame : shmem slot = shmem k := (Option.some.inj he).trans hk.symm
      exact hslot (hd slot k (by rw [hsame]) hc).symm
  · rintro ⟨hcpu,hkept,k,rfl⟩
    have hne : k ≠ slot := by
      rintro rfl
      exact hkept rfl
    exact ⟨hcpu,by simp,k,Function.update_of_ne hne ..⟩

theorem live_free (hb : Live shmem none b) :
    (Move.give b).Moves (Live shmem none) (Live shmem (some b)) := by
  refine ⟨hb,fun x => ⟨fun hx => ⟨?_,hx.cpu,by simp,hx.slot⟩,fun hx => ⟨hx.2.cpu,?_,hx.2.slot⟩⟩⟩
  · rintro rfl
    exact hx.kept rfl
  · exact fun he => hx.1 (Option.some.inj he).symm

theorem Distinct.update (hd : Distinct shmem) (x : Shmem)
    (hx : x.cpu ≠ 0 → ∀ k, (shmem k).cpu ≠ x.cpu) : Distinct (Function.update shmem slot x) := by
  intro j k he hne
  simp only [Function.update_apply] at he hne
  split_ifs at he hne with hj hk hk
  · exact hj.trans hk.symm
  · exact absurd he.symm (hx hne k)
  · exact absurd he (hx (he ▸ hne) j)
  · exact hd j k he hne

theorem custody_init (h₀ : Probed s) : Custody s [] := by
  have hshmem : s.rb.shmem = fun _ => ⟨0,0#64,0#64⟩ := by rw [h₀.rb]; rfl
  refine ⟨⟨by rw [h₀.dma]; exact List.nodup_nil,fun b => ?_⟩,?_,?_⟩
  · rw [h₀.dma, hshmem]
    refine ⟨fun hm => absurd hm List.not_mem_nil,?_⟩
    rintro ⟨hcpu,-,k,rfl⟩
    exact absurd rfl hcpu
  · intro j k _ hne
    rw [hshmem] at hne
    exact absurd rfl hne
  · rintro - x ⟨rest,hx | ⟨b,hx⟩⟩ <;> cases hx

theorem Custody.frame {log' : RunLog} (hc : Custody s log) (hs : t.rb.shmem = s.rb.shmem)
    (hd : t.dma = s.dma) (hp : pending (own .irq log') = pending (own .irq log))
    (hf : freeing (own .main log') = freeing (own .main log))
    (hload : Released (own .main log') → ∀ x, Loaded x (own .main log') → s.rb.shmem = x.shmem) :
    Custody t log' where
  tallies := by rw [hs, hd, hp, hf]; exact hc.tallies
  distinct := by rw [hs]; exact hc.distinct
  loaded := by rw [hs]; exact hload

theorem freeing_released (ha : Along mainLaw h) (hf : freeing h = some b) : Released h ∧ b.cpu ≠ 0 := by
  cases h with
  | nil => cases hf
  | cons a h =>
    obtain ⟨op,r⟩ := a
    cases op with
    | dmaFree buffer =>
      obtain rfl : buffer = b := Option.some.inj hf
      obtain ⟨⟨hr,-,-,-,-,-,hne⟩,-⟩ := id ha
      exact ⟨hr.cons ha.1,hne⟩
    | _ => cases hf

/-- An allocation for an empty slot. -/
theorem Custody.alloc {size : U64} {r : Ptr × U64} (hc : Custody s log)
    (hn : ¬ Released (own .main log)) (hfree : freeing (own .main log) = none)
    (hempty : (s.rb.shmem slot).cpu = 0) (hpend : pending (own .irq log) = none)
    (hnew : ∀ b ∈ s.dma, b.cpu ≠ r.1) :
    Custody (s.after (.dmaAlloc slot size) r) ((.irq,⟨.dmaAlloc slot size,r⟩) :: log) := by
  have hmain : own .main ((.irq,(⟨.dmaAlloc slot size,r⟩ : Ev)) :: log) = own .main log :=
    own_cons_ne (by simp) _ _
  have htall := hc.tallies
  rw [hpend, hfree, sized] at htall
  have hpend' : pending (own .irq ((.irq,(⟨.dmaAlloc slot size,r⟩ : Ev)) :: log)) =
      if r.1 = 0 then none else some (slot,size) := by
    rw [own_cons_self, pending, latest_cons]
    rfl
  have hdistinct : Distinct (s.after (.dmaAlloc slot size) r).rb.shmem := by
    refine hc.distinct.update _ fun hne k he => ?_
    refine hnew (s.rb.shmem k) ((htall.mem _).mpr ⟨?_,by simp,k,rfl⟩) he
    rw [he]
    exact hne
  refine ⟨?_,hdistinct,fun hr => absurd (hmain ▸ hr) hn⟩
  rw [hpend', hmain, hfree]
  by_cases hr : r.1 = 0
  · rw [if_pos hr, sized]
    have hdma : (s.after (.dmaAlloc slot size) r).dma = s.dma := if_pos hr
    rw [hdma]
    exact htall.congr fun b => live_empty hempty _ hr
  · rw [if_neg hr]
    have hdma : (s.after (.dmaAlloc slot size) r).dma = ⟨r.1,r.2,size⟩ :: s.dma := if_neg hr
    have hsized : sized (s.after (.dmaAlloc slot size) r).rb.shmem (some (slot,size)) =
        Function.update s.rb.shmem slot ⟨r.1,r.2,size⟩ := by
      simp only [sized, World.after, setShmem, Function.update_self, Function.update_idem]
    have hnlive : ¬ Live s.rb.shmem none ⟨r.1,r.2,size⟩ := fun hlive =>
      hnew _ ((htall.mem _).mpr hlive) rfl
    have hfill (b : Shmem) : Live (Function.update s.rb.shmem slot ⟨r.1,r.2,size⟩) none b ↔
        b = ⟨r.1,r.2,size⟩ ∨ Live s.rb.shmem none b := live_fill hempty _ hr (by simp)
    obtain ⟨held,hpost,ht⟩ := htall.post (e := .take ⟨r.1,r.2,size⟩) ⟨hnlive,hfill⟩
    obtain rfl := Option.some.inj hpost
    rw [hdma, hsized]
    exact ht

/-- The size of the buffer that was allocated last. -/
theorem Custody.size {size : U64} {r : Unit} (hc : Custody s log) (hn : ¬ Released (own .main log))
    (hpend : pending (own .irq log) = some (slot,size)) :
    Custody (s.after (.store (.shmemSize slot size)) r) ((.irq,⟨.store (.shmemSize slot size),r⟩) :: log) := by
  have hmain : own .main ((.irq,(⟨.store (.shmemSize slot size),r⟩ : Ev)) :: log) = own .main log :=
    own_cons_ne (by simp) _ _
  have hshmem : (s.after (.store (.shmemSize slot size)) r).rb.shmem =
      sized s.rb.shmem (pending (own .irq log)) := by
    rw [hpend]
    rfl
  have hpend' : pending (own .irq ((.irq,(⟨.store (.shmemSize slot size),r⟩ : Ev)) :: log)) = none := by
    rw [own_cons_self]
    rfl
  refine ⟨?_,?_,fun hr => absurd (hmain ▸ hr) hn⟩
  · rw [hpend', hmain, sized, hshmem]
    exact hc.tallies
  · intro j k he hne
    rw [hshmem, sized_cpu, sized_cpu] at he
    rw [hshmem, sized_cpu] at hne
    exact hc.distinct j k he hne

section Steps

variable {op : Op} {r : Res op} (ht : Ran guard s log) (hl : Lawful law log)
include ht hl

/-- While the interrupt thread acts remove is not past the interrupt. -/
theorem irq_unreleased (hlaw : irqLaw (own .irq log) op) (ha : s.allows op r) :
    ¬ Released (own .main log) := by
  obtain rfl | ⟨hi,-⟩ := hlaw
  · intro hr
    have hreg := hr.irqRegistered ht hl
    exact absurd (ha.1 : s.irqRegistered = true) (by simp [hreg])
  · exact not_released ht hl hi

theorem Custody.irq (hc : Custody s log) (hlaw : irqLaw (own .irq log) op) (ha : s.allows op r) :
    Custody (s.after op r) ((.irq,⟨op,r⟩) :: log) := by
  have hn := irq_unreleased ht hl hlaw ha
  have hfree : freeing (own .main log) = none := by
    by_contra hne
    obtain ⟨b,hb⟩ := Option.ne_none_iff_exists'.mp hne
    exact hn (freeing_released (hl.along .main) hb).1
  have hmain : own .main ((.irq,⟨op,r⟩) :: log) = own .main log := own_cons_ne (by simp) _ _
  have hirq : own .irq ((.irq,⟨op,r⟩) :: log) = ⟨op,r⟩ :: own .irq log := own_cons_self ..
  have hload : Released (own .main ((.irq,⟨op,r⟩) :: log)) → ∀ x,
      Loaded x (own .main ((.irq,⟨op,r⟩) :: log)) → s.rb.shmem = x.shmem := by
    intro hr
    rw [hmain] at hr
    exact absurd hr hn
  have hstay (hs : (s.after op r).rb.shmem = s.rb.shmem) (hd : (s.after op r).dma = s.dma)
      (hp : allocates ⟨op,r⟩ = none) : Custody (s.after op r) ((.irq,⟨op,r⟩) :: log) := by
    refine hc.frame hs hd ?_ (by rw [hmain]) hload
    rw [hirq, pending, latest_cons, hp]
    rfl
  cases op with
  | dmaAlloc slot size =>
    obtain ⟨hi,hempty,hpend,-⟩ := hlaw.resolve_left (by simp)
    rw [← shmem_eq ht hl hn] at hempty
    exact hc.alloc hn hfree hempty hpend ha
  | store f =>
    cases f with
    | shmemSize slot size => exact hc.size hn (hlaw.resolve_left (by simp)).2.1
    | clearShmem slot => exact (hlaw.resolve_left (by simp)).2.elim
    | _ => exact hstay rfl rfl rfl
  | dmaFree b => exact (hlaw.resolve_left (by simp)).2.elim
  | _ => exact hstay rfl rfl rfl

/-- Behind the release of the interrupt no allocation is under way. -/
theorem pending_released (hr : Released (own .main log)) : pending (own .irq log) = none := by
  have hout : inside (own .irq log) = false := (irqBusy_eq ht hl).symm.trans (hr.irqBusy ht hl)
  exact (settled_of (hl.along .irq) (current_outside (hl.along .irq) hout)).pending

/-- Remove frees a buffer that is handed out. -/
theorem Custody.outstanding (hc : Custody s log) (hlaw : mainLaw (own .main log) (.dmaFree b)) :
    b ∈ s.dma ∧ ∃ k, s.rb.shmem k = b := by
  obtain ⟨hr,slot,rest,x,hown,rfl,hcpu⟩ := hlaw
  have hshmem : s.rb.shmem = x.shmem := hc.loaded hr x ⟨rest,.inl hown⟩
  have htall := hc.tallies
  rw [pending_released ht hl hr, hown, sized, hshmem] at htall
  exact ⟨(htall.mem _).mpr ⟨hcpu,by simp [freeing],slot,rfl⟩,slot,by rw [hshmem]⟩

theorem Custody.free {r : Unit} (hc : Custody s log) (hlaw : mainLaw (own .main log) (.dmaFree b)) :
    Custody (s.after (.dmaFree b) r) ((.main,⟨.dmaFree b,r⟩) :: log) := by
  obtain ⟨hmem,-⟩ := hc.outstanding ht hl hlaw
  obtain ⟨hr,slot,rest,x,hown,rfl,hcpu⟩ := hlaw
  have hshmem : s.rb.shmem = x.shmem := hc.loaded hr x ⟨rest,.inl hown⟩
  have hirq : own .irq ((.main,(⟨.dmaFree (x.shmem slot),r⟩ : Ev)) :: log) = own .irq log :=
    own_cons_ne (by simp) _ _
  have htall := hc.tallies
  rw [hown] at htall
  refine ⟨?_,hc.distinct,fun _ y hy => ?_⟩
  · obtain ⟨held,hpost,ht'⟩ := htall.post (live_free ((htall.mem _).mp hmem))
    obtain rfl := Option.some.inj ((if_pos hmem).symm.trans hpost)
    rw [hirq, own_cons_self]
    exact ht'
  · rw [own_cons_self, hown] at hy
    obtain ⟨rest',hy | ⟨b,hy⟩⟩ := hy
    · cases hy
    · cases hy
      exact hshmem

omit ht hl in
/-- The slot that is cleared is the one of the buffer just freed. -/
theorem Custody.freeing_slot (hc : Custody s log)
    (hlaw : mainLaw (own .main log) (.store (.clearShmem slot))) :
    Released (own .main log) ∧ freeing (own .main log) = some (s.rb.shmem slot) := by
  have hclear : mainStore (own .main log) (.clearShmem slot) := hlaw
  obtain ⟨hr,rest,x,hown⟩ := hclear
  have hshmem : s.rb.shmem = x.shmem := hc.loaded hr x ⟨rest,.inr ⟨_,hown⟩⟩
  exact ⟨hr,by rw [hown, hshmem, freeing]⟩

omit ht hl in
theorem Custody.struck (hc : Custody s log)
    (hlaw : mainLaw (own .main log) (.store (.clearShmem slot))) : s.rb.shmem slot ∉ s.dma :=
  fun hm => ((hc.tallies.mem _).mp hm).kept (hc.freeing_slot hlaw).2

theorem Custody.clear {r : Unit} (hc : Custody s log)
    (hlaw : mainLaw (own .main log) (.store (.clearShmem slot))) :
    Custody (s.after (.store (.clearShmem slot)) r) ((.main,⟨.store (.clearShmem slot),r⟩) :: log) := by
  obtain ⟨hr,hfree⟩ := hc.freeing_slot hlaw
  have hcpu := (freeing_released (hl.along .main) hfree).2
  have hirq : own .irq ((.main,(⟨.store (.clearShmem slot),r⟩ : Ev)) :: log) = own .irq log :=
    own_cons_ne (by simp) _ _
  have htall := hc.tallies
  rw [pending_released ht hl hr, hfree] at htall
  refine ⟨?_,hc.distinct.update _ fun hne => absurd rfl hne,fun _ y hy => ?_⟩
  · rw [hirq, own_cons_self, pending_released ht hl hr]
    exact htall.congr fun b => live_strike hc.distinct hcpu _ rfl
  · rw [own_cons_self] at hy
    obtain ⟨rest',hy | ⟨b,hy⟩⟩ := hy <;> cases hy

theorem Custody.main (hc : Custody s log) (hlaw : mainLaw (own .main log) op)
    (hstrike : strikeLaw (own .main log) op) (ha : s.allows op r) :
    Custody (s.after op r) ((.main,⟨op,r⟩) :: log) := by
  have hirq : own .irq ((.main,⟨op,r⟩) :: log) = own .irq log := own_cons_ne (by simp) _ _
  have hstay (hspare : spares op = true) (hop : ∀ slot, op ≠ .store (.clearShmem slot))
      (hs : (s.after op r).rb.shmem = s.rb.shmem) (hd : (s.after op r).dma = s.dma)
      (hload : ∀ x, Loaded x (⟨op,r⟩ :: own .main log) → s.rb.shmem = x.shmem) :
      Custody (s.after op r) ((.main,⟨op,r⟩) :: log) := by
    have hfree : freeing (own .main log) = none := by
      by_contra hne
      obtain ⟨slot,he⟩ := hstrike hne
      exact hop slot he
    refine hc.frame hs hd (by rw [hirq]) ?_ fun _ x hx => hload x ?_
    · rw [own_cons_self, freeing_spared hspare, hfree]
    · rwa [own_cons_self] at hx
  have hother (hop : op ≠ .load) (hspare : spares op = true) (x : Rtbuddy)
      (hx : Loaded x (⟨op,r⟩ :: own .main log)) : s.rb.shmem = x.shmem := by
    obtain ⟨rest,hx | ⟨b,hx⟩⟩ := hx
    · cases (List.cons.inj hx).1
      exact absurd rfl hop
    · cases (List.cons.inj hx).1
      contradiction
  cases op with
  | dmaFree b => exact hc.free ht hl hlaw
  | dmaAlloc => exact hlaw.elim
  | load =>
    refine hstay rfl (by simp) rfl rfl fun x hx => ?_
    obtain ⟨rest,hx | ⟨b,hx⟩⟩ := hx
    · cases (List.cons.inj hx).1
      rw [show r = s.rb from ha]
    · cases (List.cons.inj hx).1
  | store f =>
    cases f with
    | clearShmem slot => exact hc.clear ht hl hlaw
    | shmemSize => exact hlaw.elim
    | _ => exact hstay rfl (by simp) rfl rfl (hother (by simp) rfl)
  | _ => exact hstay rfl (by simp) rfl rfl (hother (by simp) rfl)

end Steps

/-- The GPU callers and the firmware have nothing to do with buffers. -/
theorem Custody.other {i : Party} {op : Op} {r : Res op} (hc : Custody s log) (hm : i ≠ .main)
    (hi : i ≠ .irq) (hlaw : law i h op) : Custody (s.after op r) ((i,⟨op,r⟩) :: log) := by
  have hmain : own .main ((i,⟨op,r⟩) :: log) = own .main log := own_cons_ne hm _ _
  have hirq : own .irq ((i,⟨op,r⟩) :: log) = own .irq log := own_cons_ne hi _ _
  have hsame : (s.after op r).rb.shmem = s.rb.shmem ∧ (s.after op r).dma = s.dma := by
    cases i with
    | main | irq => contradiction
    | gpu | firmware => cases op <;> first | exact ⟨rfl,rfl⟩ | exact hlaw.elim
  exact hc.frame hsame.1 hsame.2 (by rw [hirq]) (by rw [hmain]) (by rw [hmain]; exact hc.loaded)

theorem custody_of (ht : Ran guard s log) (hl : Lawful law log) (hs : Along strikeLaw (own .main log)) :
    Custody s log := by
  induction ht with
  | init h₀ => exact custody_init h₀
  | @act s log i op r t ht hg hstep ih =>
    obtain ⟨ha,rfl⟩ := hstep
    cases i with
    | main =>
      rw [own_cons_self] at hs
      exact (ih hl.2 hs.2).main ht hl.2 hl.1 hs.1 ha
    | irq =>
      rw [own_cons_ne (by simp)] at hs
      exact (ih hl.2 hs).irq ht hl.2 hl.1 ha
    | gpu | firmware =>
      rw [own_cons_ne (by simp)] at hs
      exact (ih hl.2 hs).other (by simp) (by simp) hl.1

end AgxOpen.Rtbuddy
