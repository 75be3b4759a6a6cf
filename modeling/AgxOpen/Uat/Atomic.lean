import AgxOpen.Uat.Hardware

/-!
# Updates under a walking GPU

A map may publish three tables and a leaf in separate stores. Up to one store
the tables show the mapping before the call, from then on the mapping behind it,
and the two differ at no other page than the one addressed.
-/
namespace AgxOpen.Uat
open Program

variable {T T' : Tree} {m u : Memory} {M M' : Mapping} {k : Slot} {ctxId : U32} {va : U64}

/-- The calls that change one translation. -/
inductive Call.Updates : Call → Prop
  | mapPage (ctxId : U32) (iova phys flags : U64) : Updates (.mapPage ctxId iova phys flags)
  | unmapPage (ctxId : U32) (iova : U64) : Updates (.unmapPage ctxId iova)

/-- The slot of the page a call addresses. -/
def Call.slot : Call → Option Slot
  | .mapPage ctxId iova _ _ | .unmapPage ctxId iova | .lookup ctxId iova => slotOf ctxId iova
  | .freeContext _ => none

/-- A failed update changes nothing, a successful one at most its own page. -/
theorem Call.Updates.spec_other {c : Call} (hc : c.Updates) {refused : Bool} {r : Reply}
    (hs : (r,M') = c.spec M refused) (hk : r ≠ .status Status.ok ∨ c.slot ≠ some k) :
    M' k = M k := by
  obtain ⟨rfl,rfl⟩ := Prod.mk.inj hs
  cases hc with
  | mapPage ctxId iova phys flags =>
    simp only [Call.slot] at hk ⊢
    cases hslot : slotOf ctxId iova with
    | none => rfl
    | some k' =>
      simp only [hslot] at hk ⊢
      split_ifs at hk ⊢
      · rfl
      · rfl
      · have hne : k ≠ k' := fun he => hk.elim (fun h => h rfl) fun h => h (he ▸ rfl)
        simp [hne]
  | unmapPage ctxId iova =>
    simp only [Call.slot] at hk ⊢
    cases hslot : slotOf ctxId iova with
    | none => rfl
    | some k' =>
      simp only [hslot] at hk ⊢
      cases hM : M k' with
      | none => rfl
      | some phys =>
        simp only [hM] at hk ⊢
        have hne : k ≠ k' := fun he => hk.elim (fun h => h rfl) fun h => h (he ▸ rfl)
        simp [hne]

theorem Inv.updates (h : Inv true T m) {c : Call} (hc : c.Updates) :
    wp (step true) c.program (fun events r u => Served true T c events r u) m := by
  cases hc with
  | mapPage ctxId iova phys flags =>
    apply wp_bind
    refine wp_mono (mapPage_spec h ctxId iova phys flags) fun events r u hs => ?_
    simpa using hs
  | unmapPage ctxId iova =>
    apply wp_bind
    refine wp_mono (unmapPage_spec h ctxId iova) fun events r u hs => ?_
    simpa using hs

/-- Two memories that agree on a slot are walked alike there. -/
theorem Shows.walk_eq (h : Shows m M) (h' : Shows u M') (hk : slotOf ctxId va = some k)
    (he : M k = M' k) : m.walk ctxId.toNat va = u.walk ctxId.toNat va := by
  rw [h.walk hk, h'.walk hk, he]

/-- Every walk during a map or an unmap yields the translation before the call
up to one point and the one behind the call from then on. It is the same all
along for every other page, and for every page if the call fails. -/
theorem update_is_atomic (hm : Reached true m) {c : Call} (hc : c.Updates) :
    (∀ events q u, Partial (step true) c.program m events q u →
      ∃ events' r v, Exec (step true) q u events' r v) ∧
    ∀ events r u, Exec (step true) c.program m events r u →
      ∃ before after, events = before ++ after ∧
        ∀ (ctxId : U32) (va : U64), ctxId.toNat < contextCount → va < vaLimit →
          (∀ e ∈ before, e.state.walk ctxId.toNat va = m.walk ctxId.toNat va) ∧
          (∀ e ∈ after, e.state.walk ctxId.toNat va = u.walk ctxId.toNat va) ∧
          (r ≠ .status Status.ok ∨ c.slot ≠ slotOf ctxId va →
            u.walk ctxId.toNat va = m.walk ctxId.toNat va ∧
            ∀ e ∈ events, e.state.walk ctxId.toNat va = m.walk ctxId.toNat va) := by
  obtain ⟨T,hT⟩ := hm.inv
  have hw := hT.updates hc
  constructor
  · intro events q u hp
    obtain ⟨events',r,v,he,-⟩ := hp.complete hw
    exact ⟨events',r,v,he⟩
  · intro events r u he
    obtain ⟨T',hT',hs,hsw⟩ := he.post hw
    obtain ⟨before,after,rfl,hb,ha⟩ := hsw rfl
    refine ⟨before,after,rfl,fun ctxId va hctx hva => ?_⟩
    obtain ⟨k,hk⟩ := Option.ne_none_iff_exists'.mp (mt slotOf_eq_none.mp
      (not_or.mpr ⟨Nat.not_le.mpr hctx,BitVec.not_le.mpr hva⟩))
    have hbefore : ∀ e ∈ before, e.state.walk ctxId.toNat va = m.walk ctxId.toNat va :=
      fun e hmem => (hb e hmem).walk_eq hT.shows hk rfl
    have hafter : ∀ e ∈ after, e.state.walk ctxId.toNat va = u.walk ctxId.toNat va :=
      fun e hmem => (ha e hmem).walk_eq hT'.shows hk rfl
    refine ⟨hbefore,hafter,fun hother => ?_⟩
    rw [hk] at hother
    have hsame : u.walk ctxId.toNat va = m.walk ctxId.toNat va :=
      hT'.shows.walk_eq hT.shows hk (hc.spec_other hs hother)
    refine ⟨hsame,fun e hmem => ?_⟩
    obtain hmem | hmem := List.mem_append.mp hmem
    · exact hbefore e hmem
    · exact (hafter e hmem).trans hsame

/-- The first map of a context: three tables are published before the leaf. -/
theorem update_is_atomic_demo : ∃ m events u,
    Reached true m ∧
    Exec (step true) (Call.mapPage 3 0x40000000 0x300000000 0x3ff).program m events (.status 0) u ∧
    m.walk 3 0x40000010 = .fault ∧ u.walk 3 0x40000010 = .page 0x300000000 ∧
    ∃ before after, events = before ++ after ∧
      (∀ e ∈ before, e.state.walk 3 0x40000010 = .fault) ∧
      ∀ e ∈ after, e.state.walk 3 0x40000010 = .page 0x300000000 := by
  have hd : (runWith (step true) firstFit (Call.mapPage 3 0x40000000 0x300000000 0x3ff).program
      (init fun _ => 0#64)).map (fun x => (x.2.1,x.2.2.walk 3 0x40000010)) =
      some (.status 0,.page 0x300000000) := by decide +kernel
  obtain ⟨⟨events,r,u⟩,hrun,he⟩ := Option.map_eq_some_iff.mp hd
  obtain ⟨rfl,hu⟩ := Prod.mk.inj he
  have hm : Reached true (init fun _ => 0#64) := ⟨[],.nil _⟩
  have hexec := runWith_exec hrun
  have h0 : (init fun _ => 0#64).walk 3 0x40000010 = .fault := by decide
  obtain ⟨before,after,hsplit,hwalk⟩ :=
    (update_is_atomic hm (.mapPage 3 0x40000000 0x300000000 0x3ff)).2 events _ u hexec
  obtain ⟨hb,ha,-⟩ := hwalk 3 0x40000010 (by decide) (by decide)
  exact ⟨_,events,u,hm,hexec,h0,hu,before,after,hsplit,fun e h => (hb e h).trans h0,
    fun e h => (ha e h).trans hu⟩

end AgxOpen.Uat
