import AgxOpen.Uat.Runs

/-!
# The tables as the GPU sees them

The hardware knows the L0 array and the words of the tables, nothing of the host
structures. It starts at the slot that a context and bit 42 select.
-/
namespace AgxOpen.Uat
open Program

variable {trusted : Bool} {T : Tree} {m s u : Memory} {M M' : Mapping} {k : Slot} {ctxId : U32}
  {va : U64}

/-- The outcome of a hardware walk. -/
inductive Translation
  | fault
  | page (phys : U64)
  /-- An entry names an address where no table is. -/
  | dangling
  deriving DecidableEq, Repr

/-- `width` bits of an address, from bit `shift` on. -/
def vaField (va : U64) (shift width : ℕ) : ℕ := va.toNat/2^shift % 2^width

/-- The walk of an address: bit 42, then bits 41..36, 35..25 and 24..14. -/
def Memory.walk (m : Memory) (ctx : ℕ) (va : U64) : Translation :=
  let root := m.l0 (ctx*2+vaField va 42 1)
  if isValid root = false then .fault
  else match m.ram (ttbrBase root) with
    | none => .dangling
    | some t1 =>
      let e1 := t1.words (vaField va 36 6)
      if isValid e1 = false then .fault
      else match m.ram (tablePteAddr e1) with
        | none => .dangling
        | some t2 =>
          let e2 := t2.words (vaField va 25 11)
          if isValid e2 = false then .fault
          else match m.ram (tablePteAddr e2) with
            | none => .dangling
            | some t3 =>
              let e3 := t3.words (vaField va 14 11)
              if isValid e3 = false then .fault else .page (ptePhys e3)

theorem vaField_root (hk : slotOf ctxId va = some k) : ctxId.toNat*2+vaField va 42 1 = k.root := by
  obtain ⟨-,hv,hc,hp⟩ := slotOf_eq_some hk
  rw [lt_vaLimit_iff] at hv
  rw [Slot.root, hc, hp, pageOf, vaField]
  omega

theorem vaField_index1 (hk : slotOf ctxId va = some k) : vaField va 36 6 = k.index1 := by
  rw [Slot.index1, (slotOf_eq_some hk).2.2.2, pageOf, vaField, Nat.div_div_eq_div_mul]
  rfl

theorem vaField_index2 (hk : slotOf ctxId va = some k) : vaField va 25 11 = k.index2 := by
  rw [Slot.index2, (slotOf_eq_some hk).2.2.2, pageOf, vaField, Nat.div_div_eq_div_mul]
  rfl

theorem vaField_index3 (hk : slotOf ctxId va = some k) : vaField va 14 11 = k.index3 := by
  rw [Slot.index3, (slotOf_eq_some hk).2.2.2, pageOf, vaField]
  rfl

namespace Tree
variable {p : Path} {c : Cell}

theorem root_of_none {slot : ℕ} (h : T [slot] = none) : T.root slot = 0#64 := by simp [root, h]

theorem root_of_some {slot : ℕ} (h : T [slot] = some c) :
    T.root slot = ttbr c.node.phys (BitVec.ofNat 32 (slot/2)) := by simp [root, h]

theorem entry_of_none (h : T p = none) : T.entry p = 0#64 := by simp [entry, h]

theorem entry_of_some (h : T p = some c) : T.entry p = tablePte c.node.phys := by simp [entry, h]

theorem ram_of_some (hs : T.Stored m) (hf : T.Framed m) (h : T p = some c) :
    m.ram c.node.phys = some ⟨c.node.phys,T.words p c⟩ := by
  simp [Memory.ram, hf.frame h, hs.table h]

/-- Both encodings lead back to the table they were made for. -/
theorem tablePteAddr_entry (hf : T.Framed m) (h : T p = some c) :
    tablePteAddr (tablePte c.node.phys) = c.node.phys := by
  rw [tablePteAddr_tablePte, (hf.phys h).2]

end Tree

/-- A walk yields what the tables show. -/
theorem Shows.walk (h : Shows m M) (hk : slotOf ctxId va = some k) :
    m.walk ctxId.toNat va = match M k with
      | none => .fault
      | some phys => .page phys := by
  obtain ⟨T,hok,hs,hf,rfl⟩ := h
  have h0 : isValid 0#64 = false := rfl
  unfold Memory.walk
  rw [vaField_root hk, vaField_index1 hk, vaField_index2 hk, vaField_index3 hk, hs.l0]
  have hmiss (hn : T k.leaf = none) : T.mapping k = none := by simp [Tree.mapping, hn]
  cases h1 : T [k.root] with
  | none =>
    have hn := hok.none_below k.index1 (List.cons_ne_nil _ _) h1
    have hn := hok.none_below k.index2 (List.cons_ne_nil _ _) hn
    rw [hmiss hn, Tree.root_of_none h1]
    simp [h0]
  | some c1 =>
    simp only [Tree.root_of_some h1, isValid_ttbr (hf.phys h1), ttbrBase_ttbr (hf.phys h1),
      Tree.ram_of_some hs hf h1, Bool.true_eq_false, if_false]
    rw [show T.words [k.root] c1 k.index1 = T.entry [k.index1,k.root] from rfl]
    cases h2 : T [k.index1,k.root] with
    | none =>
      have hn := hok.none_below k.index2 (List.cons_ne_nil _ _) h2
      rw [hmiss hn, Tree.entry_of_none h2]
      simp [h0]
    | some c2 =>
      simp only [Tree.entry_of_some h2, isValid_tablePte, Tree.tablePteAddr_entry hf h2,
        Tree.ram_of_some hs hf h2, Bool.true_eq_false, if_false]
      rw [show T.words [k.index1,k.root] c2 k.index2 = T.entry k.leaf from rfl]
      cases h3 : T k.leaf with
      | none =>
        rw [hmiss h3, Tree.entry_of_none h3]
        simp [h0]
      | some c3 =>
        simp only [Tree.entry_of_some h3, isValid_tablePte, Tree.tablePteAddr_entry hf h3,
          Tree.ram_of_some hs hf h3, Bool.true_eq_false, if_false]
        rw [Tree.words_leaf, Tree.mapping_leaf h3]
        cases isValid (c3.data k.index3) <;> simp

/-- In every reached memory a hardware walk and `agx_uat_lookup` agree, a valid
L0 slot carries its own context, and a slot without an L1 table is zero. -/
theorem walk_agrees_with_lookup (h : Reached true m) :
    (∀ (ctxId : U32) (va : U64), ctxId.toNat < contextCount → va < vaLimit →
      (∃ events phys valid, Exec (step true) (lookup ctxId va) m events (phys,valid) m) ∧
      ∀ events phys valid u, Exec (step true) (lookup ctxId va) m events (phys,valid) u →
        m.walk ctxId.toNat va = if valid = true then .page phys else .fault) ∧
    (∀ slot < contextCount*2, isValid (m.l0 slot) = true →
      ttbrAsid (m.l0 slot) = BitVec.ofNat 64 (slot/2)) ∧
    ∀ ctx < contextCount, ∀ select < 2, m.l1 (ctx,select) = 0 → m.l0 (ctx*2+select) = 0#64 := by
  obtain ⟨T,hT⟩ := h.inv
  refine ⟨fun ctxId va hc hv => ⟨?_,?_⟩,fun slot hs hvalid => ?_,fun ctx _ select hs hl => ?_⟩
  · obtain ⟨events,⟨phys,valid⟩,u,he,rfl,-⟩ := wp_exec (lookup_spec hT ctxId va)
    exact ⟨events,phys,valid,he⟩
  · intro events phys valid u he
    obtain ⟨-,T',-,hr,-⟩ := he.post (lookup_spec hT ctxId va)
    obtain ⟨k,hk⟩ := Option.ne_none_iff_exists'.mp (mt slotOf_eq_none.mp
      (not_or.mpr ⟨Nat.not_le.mpr hc,BitVec.not_le.mpr hv⟩))
    rw [hT.shows.walk hk]
    simp only [Call.spec, hk, Option.bind_some] at hr
    cases hM : T.mapping k with
    | none =>
      simp only [hM, Prod.mk.injEq, Reply.found.injEq] at hr
      simp [hr.1.2]
    | some pa =>
      simp only [hM, Prod.mk.injEq, Reply.found.injEq] at hr
      simp [hr.1.1, hr.1.2]
  · have hlt : slot/2 < 64 := by unfold contextCount at hs; omega
    rw [hT.stored.l0] at hvalid ⊢
    cases hc : T [slot] with
    | none => simp [Tree.root_of_none hc, isValid] at hvalid
    | some c =>
      rw [Tree.root_of_some hc, ttbrAsid_ttbr ((hT.framed rfl).phys hc)
        (by rw [BitVec.toNat_ofNat]; omega)]
      apply BitVec.eq_of_toNat_eq
      simp only [BitVec.toNat_setWidth, BitVec.toNat_ofNat]
      omega
  · rw [hT.host.l1 ctx hs, Tree.ptr_eq_zero hT.host] at hl
    rw [hT.stored.l0, Tree.root_of_none hl]

theorem walk_agrees_with_lookup_demo : ∃ m, Reached true m ∧
    m.walk 3 0x40000010 = .page 0x300000000 ∧
    ∀ events phys valid u, Exec (step true) (lookup 3 0x40000010) m events (phys,valid) u →
      m.walk 3 0x40000010 = if valid = true then .page phys else .fault := by
  have hd : (simulate true (init fun _ => 0#64) [.mapPage 3 0x40000000 0x300000000 0x3ff]).map
      (fun x => x.2.walk 3 0x40000010) = some (.page 0x300000000) := by decide
  obtain ⟨⟨calls,m⟩,hs,hw⟩ := Option.map_eq_some_iff.mp hd
  have hm : Reached true m := ⟨calls,simulate_run hs⟩
  exact ⟨m,hm,hw,((walk_agrees_with_lookup hm).1 3 0x40000010 (by decide) (by decide)).2⟩

/-- A level 1, 2 or 3 table that valid entries lead to, by its physical address. -/
inductive GpuReach (m : Memory) : ℕ → U64 → Prop
  | root {slot : ℕ} (hs : slot < contextCount*2) (hv : isValid (m.l0 slot) = true) :
      GpuReach m 1 (ttbrBase (m.l0 slot))
  | next {level : ℕ} {pa : U64} {t : Table} {idx : ℕ} (h : GpuReach m level pa) (hl : level < 3)
      (ht : m.ram pa = some t) (hi : idx < if level = 1 then l1Count else l2Count)
      (hv : isValid (t.words idx) = true) : GpuReach m (level+1) (tablePteAddr (t.words idx))

/-- Every table in reach of the GPU is allocated. -/
def GpuSafe (m : Memory) : Prop := ∀ level pa, GpuReach m level pa → (m.ram pa).isSome

theorem Tree.of_gpuReach (hs : T.Stored m) (hf : T.Framed m) {level : ℕ} {pa : U64}
    (h : GpuReach m level pa) : ∃ p c, T p = some c ∧ p.length = level ∧ c.node.phys = pa := by
  induction h with
  | @root slot _ hv =>
    rw [hs.l0] at hv ⊢
    cases hc : T [slot] with
    | none => simp [Tree.root_of_none hc, isValid] at hv
    | some c =>
      exact ⟨_,c,hc,rfl,by rw [Tree.root_of_some hc, ttbrBase_ttbr (hf.phys hc)]⟩
  | @next level pa t idx _ hl ht _ hv ih =>
    obtain ⟨p,c,hc,hlen,rfl⟩ := ih
    obtain rfl := Option.some.inj ((Tree.ram_of_some hs hf hc).symm.trans ht)
    have hw : T.words p c idx = T.entry (idx :: p) := by
      simp only [Tree.words, if_neg (show p.length ≠ 3 by omega)]
    simp only [hw] at hv ⊢
    cases hd : T (idx :: p) with
    | none => simp [Tree.entry_of_none hd, isValid] at hv
    | some d =>
      exact ⟨_,d,hd,by simp [hlen],by rw [Tree.entry_of_some hd, Tree.tablePteAddr_entry hf hd]⟩

theorem Shows.safe (h : Shows m M) : GpuSafe m := by
  obtain ⟨T,-,hs,hf,-⟩ := h
  intro level pa hr
  obtain ⟨p,c,hc,-,rfl⟩ := Tree.of_gpuReach hs hf hr
  simp [Tree.ram_of_some hs hf hc]

/-- A root that is freed but still linked is in reach. -/
theorem Torn.not_safe (h : Torn true s) : ¬ GpuSafe s := by
  obtain ⟨T,m,slot,hT,hn,rfl⟩ := h
  obtain ⟨c,hc⟩ := Option.ne_none_iff_exists'.mp hn
  have hf := hT.framed rfl
  have hroot : (m.drop true T (below [slot])).l0 slot =
      ttbr c.node.phys (BitVec.ofNat 32 (slot/2)) := by
    rw [← Tree.root_of_some hc, ← hT.stored.l0]
    rfl
  intro hsafe
  have hslot : slot < contextCount*2 := (hT.ok.parent (i := slot) (p := []) hn).2.1
  have hr := hsafe _ _ (GpuReach.root hslot (by rw [hroot]; exact isValid_ttbr (hf.phys hc) _))
  rw [hroot, ttbrBase_ttbr (hf.phys hc)] at hr
  have hk : T.Keys (below [slot]) (fun c => c.node.phys) c.node.phys :=
    ⟨[slot],mem_below_self,c,hc,rfl⟩
  simp [Memory.ram, Memory.drop, erase, hk] at hr

theorem Switches.shows {events : Trace} (h : Switches M M' events) {e : Event Op Res Memory}
    (he : e ∈ events) : ∃ M, Shows e.state M := by
  obtain ⟨before,after,rfl,hb,ha⟩ := h
  rcases List.mem_append.mp he with he | he
  · exact ⟨M,hb e he⟩
  · exact ⟨M',ha e he⟩

/-- Every call but the release of a populated context keeps showing a mapping. -/
theorem Inv.call_shows (h : Inv true T m) (c : Call)
    (hc : ¬ ∃ ctxId, c = .freeContext ctxId ∧ m.Populated ctxId) :
    wp (step true) c.program (fun events _ _ => ∀ e ∈ events, ∃ M, Shows e.state M) m := by
  have served {events : Trace} {r : Reply} {u : Memory} (hs : Served true T c events r u) :
      ∀ e ∈ events, ∃ M, Shows e.state M := by
    obtain ⟨_,-,-,hsw⟩ := hs
    exact fun e he => (hsw rfl).shows he
  cases c with
  | mapPage ctxId iova phys flags =>
    apply wp_bind
    refine wp_mono (mapPage_spec h ctxId iova phys flags) fun events r u hs => ?_
    simpa using served hs
  | unmapPage ctxId iova =>
    apply wp_bind
    refine wp_mono (unmapPage_spec h ctxId iova) fun events r u hs => ?_
    simpa using served hs
  | lookup ctxId iova =>
    apply wp_bind
    refine wp_mono (lookup_spec h ctxId iova) fun events r u hs => ?_
    simpa using served hs.2
  | freeContext ctxId =>
    apply wp_bind
    refine wp_mono (freeContext_spec h ctxId) fun events r u hs => ?_
    have hstill := hs.2.1 fun hp => hc ⟨ctxId,rfl,hp⟩
    simpa using fun e he => ⟨_,hstill e he ▸ h.shows⟩

/-- The release of a populated context passes through a torn memory. -/
theorem Inv.free_torn (h : Inv true T m) (hp : m.Populated ctxId) :
    ∃ events q u, Partial (step true) (Call.freeContext ctxId).program m events q u ∧
      Torn true u := by
  have hw : wp (step true) (Call.freeContext ctxId).program
      (fun events _ _ => ∃ e ∈ events, Torn true e.state) m := by
    apply wp_bind
    refine wp_mono (freeContext_spec h ctxId) fun events r u hs => ?_
    simpa using hs.2.2 hp
  obtain ⟨events,r,u,he,e,hmem,ht⟩ := wp_exec hw
  obtain ⟨events',q,hpart⟩ := he.partial_of_mem hmem
  exact ⟨events',q,e.state,hpart,ht⟩

/-- The GPU stays within allocated tables at every point of a call exactly when
the call does not release a context that has tables. -/
theorem gpu_safe_iff (h : Reached true m) (c : Call) :
    (∀ events q u, Partial (step true) c.program m events q u → GpuSafe u) ↔
      ¬ ∃ ctxId, c = .freeContext ctxId ∧ m.Populated ctxId := by
  obtain ⟨T,hT⟩ := h.inv
  constructor
  · rintro hsafe ⟨ctxId,rfl,hp⟩
    obtain ⟨events,q,u,hpart,ht⟩ := hT.free_torn hp
    exact ht.not_safe (hsafe events q u hpart)
  · intro hc events q u hpart
    obtain ⟨events',_,_,-,hshow⟩ := hpart.complete (hT.call_shows c hc)
    rcases hpart.state_mem with rfl | ⟨e,he,rfl⟩
    · exact hT.shows.safe
    · obtain ⟨M,hM⟩ := hshow e (List.mem_append_left _ he)
      exact hM.safe

theorem gpu_safe_iff_demo : ∃ m, Reached true m ∧
    ((∀ events q u, Partial (step true) (Call.freeContext 7).program m events q u → GpuSafe u) ↔
      ¬ ∃ ctxId, Call.freeContext 7 = .freeContext ctxId ∧ m.Populated ctxId) ∧
    m.Populated 0 ∧ ¬ m.Populated 7 := by
  have hd : (simulate true (init fun _ => 0#64) [.mapPage 0 0 0x4000 0]).map
      (fun x => decide (x.2.Populated 0 ∧ ¬ x.2.Populated 7)) = some true := by decide
  obtain ⟨⟨calls,m⟩,hs,hp⟩ := Option.map_eq_some_iff.mp hd
  have hm : Reached true m := ⟨calls,simulate_run hs⟩
  exact ⟨m,hm,gpu_safe_iff hm (.freeContext 7),of_decide_eq_true hp⟩

/-- One mapped page, then `agx_uat_free_context`: the L0 slot still leads the
GPU to a table that was already freed. -/
theorem free_context_exposes_table : ∃ calls m events q u,
    simulate true (init fun _ => 0#64) [.mapPage 0 0 0x4000 0] = some (calls,m) ∧
    Reached true m ∧
    Partial (step true) (Call.freeContext 0).program m events q u ∧ ¬ GpuSafe u := by
  have hd : (simulate true (init fun _ => 0#64) [.mapPage 0 0 0x4000 0]).map
      (fun x => decide (x.2.Populated 0)) = some true := by decide
  obtain ⟨⟨calls,m⟩,hs,hp⟩ := Option.map_eq_some_iff.mp hd
  have hm : Reached true m := ⟨calls,simulate_run hs⟩
  obtain ⟨T,hT⟩ := hm.inv
  obtain ⟨events,q,u,hpart,ht⟩ := hT.free_torn (of_decide_eq_true hp)
  exact ⟨calls,m,events,q,u,hs,hm,hpart,ht.not_safe⟩

end AgxOpen.Uat
