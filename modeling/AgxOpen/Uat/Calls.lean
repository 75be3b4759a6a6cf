import AgxOpen.Uat.Create

/-!
# Mapping, unmapping and looking up a page

Each call walks three levels and touches one leaf word. The walk has one rule
that creates nodes on the way and one that does not.
-/
namespace AgxOpen.Uat
open Program
open Function (update)

variable {trusted : Bool} {T : Tree} {m s : Memory} {c d : Cell} {p q : Path} {i : ℕ} {α : Type}

/-- The events of a read: nothing changes and nothing is refused. -/
def Still (m : Memory) (events : Trace) : Prop :=
  (∀ e ∈ events, e.state = m) ∧ refused events = false

theorem still_nil : Still m [] := by simp [Still]

theorem Still.append {before after : Trace} (h : Still m before) (h' : Still m after) :
    Still m (before ++ after) := by
  refine ⟨fun e he => ?_,by simp [h.2, h'.2]⟩
  rcases List.mem_append.mp he with he | he
  · exact h.1 e he
  · exact h'.1 e he

theorem l1_find (h : T.Host m) {ctxId select asid : U32} (hc : ctxId.toNat < contextCount)
    (hs : select.toNat < 2) : wp (step trusted) (l1 ctxId select false asid) (fun events x u =>
      u = m ∧ x = T.ptr [ctxId.toNat*2+select.toNat] ∧ Still m events) m := by
  unfold l1
  apply wp_loadL1 hc hs
  simp [h.l1 _ hs, Still, refusal]

theorem child_find (h : T.Host m) (hd : T p = some d) {idx childCount : U32}
    (hi : idx.toNat < fanout p) :
    wp (step trusted) (child d.ptr idx childCount false) (fun events x u =>
      u = m ∧ x = T.ptr (idx.toNat :: p) ∧ Still m events) m := by
  unfold child
  apply wp_loadNode (h.node hd)
  apply wp_loadChild (h.array hd) hi
  simp [Still, refusal]

/-- A node that is there, by its pointer. -/
theorem Tree.of_ptr_ne_zero (hx : T.ptr q ≠ 0) : ∃ c, T q = some c ∧ T.ptr q = c.ptr := by
  cases hq : T q with
  | none => simp [Tree.ptr, hq] at hx
  | some c => exact ⟨c,rfl,by simp [Tree.ptr, hq]⟩

/-- Below a missing node nothing is found. -/
theorem Tree.Ok.none_below (h : T.Ok) (i : ℕ) (hp : p ≠ []) (hq : T p = none) : T (i :: p) = none := by
  by_contra hi
  exact (h.parent hi).2.2 hp hq

variable {ctxId : U32} {iova : U64} {k : Slot} {e : α} {body : Ptr → UatProgram α}
  {Q : Trace → α → Memory → Prop}

theorem index_bounds (iova : U64) :
    (l1Index iova).toNat < l1Count ∧ (l2Index iova).toNat < l2Count ∧
      (l3Index iova).toNat < tableWords := by
  rw [l1Index_toNat, l2Index_toNat, l3Index_toNat]
  exact ⟨Nat.mod_lt _ (by decide),Nat.mod_lt _ (by decide),Nat.mod_lt _ (by decide)⟩

/-- The walk without creation ends at the leaf of the slot, if there is one. -/
theorem wp_find (h : Inv trusted T m) (hk : slotOf ctxId iova = some k)
    (hmiss : T k.leaf = none → ∀ events, Still m events → Q events e m)
    (hleaf : ∀ c, T k.leaf = some c → ∀ events, Still m events →
      wp (step trusted) (body c.ptr) (fun events' a u => Q (events ++ events') a u) m) :
    wp (step trusted) (do
      let l1 ← l1 ctxId (ttbrSelect iova) false 0#32
      if l1 = 0 then return e
      else do
        let l2 ← child l1 (l1Index iova) 0#32 false
        if l2 = 0 then return e
        else do
          let l3 ← child l2 (l2Index iova) 0#32 false
          if l3 = 0 then return e else body l3) Q m := by
  obtain ⟨hc,-,-,-⟩ := slotOf_eq_some hk
  obtain ⟨hb1,hb2,-⟩ := index_bounds iova
  have hleafp : k.leaf =
      [(l2Index iova).toNat,(l1Index iova).toNat,ctxId.toNat*2+(ttbrSelect iova).toNat] := by
    rw [Slot.leaf, slotOf_index2 hk, slotOf_index1 hk, slotOf_root hk]
  rw [hleafp] at hmiss hleaf
  apply wp_bind
  refine wp_mono (l1_find h.host hc (ttbrSelect_lt iova)) ?_
  rintro ev1 x1 _ ⟨rfl,rfl,hs1⟩
  split_ifs with hx1
  · have hq := (Tree.ptr_eq_zero h.host).mp hx1
    have hq := h.ok.none_below (l1Index iova).toNat (List.cons_ne_nil _ _) hq
    have hq := h.ok.none_below (l2Index iova).toNat (List.cons_ne_nil _ _) hq
    simpa using hmiss hq ev1 hs1
  obtain ⟨c1,hc1,hp1⟩ := Tree.of_ptr_ne_zero hx1
  rw [hp1]
  apply wp_bind
  refine wp_mono (child_find h.host hc1 hb1) ?_
  rintro ev2 x2 _ ⟨rfl,rfl,hs2⟩
  split_ifs with hx2
  · have hq := (Tree.ptr_eq_zero h.host).mp hx2
    have hq := h.ok.none_below (l2Index iova).toNat (List.cons_ne_nil _ _) hq
    simpa using hmiss hq (ev1 ++ ev2) (hs1.append hs2)
  obtain ⟨c2,hc2,hp2⟩ := Tree.of_ptr_ne_zero hx2
  rw [hp2]
  apply wp_bind
  refine wp_mono (child_find h.host hc2 hb2) ?_
  rintro ev3 x3 _ ⟨rfl,rfl,hs3⟩
  split_ifs with hx3
  · have hq := (Tree.ptr_eq_zero h.host).mp hx3
    simpa using hmiss hq (ev1 ++ (ev2 ++ ev3)) (hs1.append (hs2.append hs3))
  obtain ⟨c3,hc3,hp3⟩ := Tree.of_ptr_ne_zero hx3
  rw [hp3]
  simpa [List.append_assoc] using hleaf c3 hc3 (ev1 ++ (ev2 ++ ev3)) (hs1.append (hs2.append hs3))

/-- The walk with creation reaches the leaf of the slot in a tree that shows the
same mapping, unless an allocation was refused. -/
theorem wp_ensure (h : Inv trusted T m) (hk : slotOf ctxId iova = some k)
    (hrefused : ∀ T' u events, Inv trusted T' u → T'.mapping = T.mapping →
      refused events = true → (trusted = true → ∀ e ∈ events, Shows e.state T.mapping) →
      Q events e u)
    (hleaf : ∀ T' u events c, Inv trusted T' u → T'.mapping = T.mapping → T' k.leaf = some c →
      refused events = false → (trusted = true → ∀ e ∈ events, Shows e.state T.mapping) →
      wp (step trusted) (body c.ptr) (fun events' a v => Q (events ++ events') a v) u) :
    wp (step trusted) (do
      let l1 ← l1 ctxId (ttbrSelect iova) true ctxId
      if l1 = 0 then return e
      else do
        let l2 ← child l1 (l1Index iova) (BitVec.ofNat 32 l2Count) true
        if l2 = 0 then return e
        else do
          let l3 ← child l2 (l2Index iova) (BitVec.ofNat 32 l3Count) true
          if l3 = 0 then return e else body l3) Q m := by
  obtain ⟨hc,-,-,-⟩ := slotOf_eq_some hk
  obtain ⟨hb1,hb2,-⟩ := index_bounds iova
  have hleafp : k.leaf =
      [(l2Index iova).toNat,(l1Index iova).toNat,ctxId.toNat*2+(ttbrSelect iova).toNat] := by
    rw [Slot.leaf, slotOf_index2 hk, slotOf_index1 hk, slotOf_root hk]
  rw [hleafp] at hleaf
  apply wp_bind
  refine wp_mono (l1_spec h hc (ttbrSelect_lt iova)) ?_
  rintro ev1 x1 u1 ⟨T1,h1,hm1,rfl,hr1,hs1⟩
  split_ifs with hx1
  · simpa using hrefused T1 u1 ev1 h1 hm1 (hr1.mp hx1) hs1
  have hr1 := Bool.eq_false_iff.mpr (mt hr1.mpr hx1)
  obtain ⟨c1,hc1,hp1⟩ := Tree.of_ptr_ne_zero hx1
  rw [hp1]
  apply wp_bind
  refine wp_mono (child_spec h1 hc1 (by simp) hb1 rfl (by decide)) ?_
  rintro ev2 x2 u2 ⟨T2,h2,hm2,rfl,hr2,hs2⟩
  rw [hm1] at hm2 hs2
  have hs12 : trusted = true → ∀ e ∈ ev1 ++ ev2, Shows e.state T.mapping := fun ht =>
    List.forall_mem_append.mpr ⟨hs1 ht,hs2 ht⟩
  split_ifs with hx2
  · simpa using hrefused T2 u2 (ev1 ++ ev2) h2 hm2 (by simp [hr2.mp hx2]) hs12
  have hr2 := Bool.eq_false_iff.mpr (mt hr2.mpr hx2)
  obtain ⟨c2,hc2,hp2⟩ := Tree.of_ptr_ne_zero hx2
  rw [hp2]
  apply wp_bind
  refine wp_mono (child_spec h2 hc2 (by simp) hb2 rfl (by decide)) ?_
  rintro ev3 x3 u3 ⟨T3,h3,hm3,rfl,hr3,hs3⟩
  rw [hm2] at hm3 hs3
  have hs13 : trusted = true → ∀ e ∈ ev1 ++ ev2 ++ ev3, Shows e.state T.mapping := fun ht =>
    List.forall_mem_append.mpr ⟨hs12 ht,hs3 ht⟩
  split_ifs with hx3
  · simpa using hrefused T3 u3 (ev1 ++ ev2 ++ ev3) h3 hm3 (by simp [hr3.mp hx3]) hs13
  have hr3 := Bool.eq_false_iff.mpr (mt hr3.mpr hx3)
  obtain ⟨c3,hc3,hp3⟩ := Tree.of_ptr_ne_zero hx3
  rw [hp3]
  have hw := hleaf T3 u3 (ev1 ++ ev2 ++ ev3) c3 h3 hm3 hc3 (by simp [hr1, hr2, hr3]) hs13
  simpa [List.append_assoc] using hw

def Tree.setData (T : Tree) (q : Path) (c : Cell) (i : ℕ) (v : U64) : Tree :=
  update T q (some ⟨c.ptr,c.node,update c.data i v⟩)

namespace Tree

variable {v : U64}

theorem setData_cases {q' : Path} (h : T.setData q c i v q' = some d) :
    q' = q ∧ d = ⟨c.ptr,c.node,update c.data i v⟩ ∨ q' ≠ q ∧ T q' = some d := by
  by_cases hq : q' = q
  · subst hq
    exact .inl ⟨rfl,by simpa [setData] using h.symm⟩
  · exact .inr ⟨hq,by simpa [setData, hq] using h⟩

/-- Only the words change. -/
theorem setData_node {q' : Path} (hc : T q = some c) (h : T.setData q c i v q' = some d) :
    ∃ d', T q' = some d' ∧ d.ptr = d'.ptr ∧ d.node = d'.node := by
  rcases setData_cases h with ⟨rfl,rfl⟩ | ⟨-,h⟩
  · exact ⟨c,hc,rfl,rfl⟩
  · exact ⟨d,h,rfl,rfl⟩

theorem setData_isSome (hc : T q = some c) {q' : Path} :
    T.setData q c i v q' ≠ none ↔ T q' ≠ none := by
  by_cases hq : q' = q
  · subst hq; simp [setData, hc]
  · simp [setData, hq]

theorem ptr_setData (hc : T q = some c) : (T.setData q c i v).ptr = T.ptr := by
  funext q'
  by_cases hq : q' = q
  · subst hq; simp [ptr, setData, hc]
  · simp [ptr, setData, hq]

theorem entry_setData (hc : T q = some c) : (T.setData q c i v).entry = T.entry := by
  funext q'
  by_cases hq : q' = q
  · subst hq; simp [entry, setData, hc]
  · simp [entry, setData, hq]

theorem root_setData (hc : T q = some c) : (T.setData q c i v).root = T.root := by
  funext slot
  by_cases hq : [slot] = q
  · subst hq; simp [root, setData, hc]
  · simp [root, setData, hq]

theorem mapping_leaf (hc : T k.leaf = some c) : T.mapping k =
    if isValid (c.data k.index3) = true then some (ptePhys (c.data k.index3)) else none := by
  simp [mapping, hc]

theorem words_leaf : T.words k.leaf c = c.data := rfl

theorem mapping_setData (hc : T k.leaf = some c) : (T.setData k.leaf c k.index3 v).mapping =
    update T.mapping k (if isValid v = true then some (ptePhys v) else none) := by
  funext s
  by_cases hs : s.leaf = k.leaf
  · by_cases hi : s.index3 = k.index3
    · obtain rfl := Slot.ext_indices hs hi
      simp [mapping, setData]
    · have hne : s ≠ k := by rintro rfl; exact hi rfl
      simp [mapping, setData, hs, hi, hne, hc]
  · have hne : s ≠ k := by rintro rfl; exact hs rfl
    simp [mapping, setData, hs, hne]

theorem Ok.setData (h : T.Ok) (hc : T q = some c) (hv : v = 0#64 ∨ isValid v = true) :
    (T.setData q c i v).Ok where
  nil := by
    by_contra hn
    exact (setData_isSome hc).mp hn h.nil
  parent hq := by
    have hp := h.parent ((setData_isSome hc).mp hq)
    exact ⟨hp.1,hp.2.1,fun hn => (setData_isSome hc).mpr (hp.2.2 hn)⟩
  sep ha hb he := by
    obtain ⟨a,ha,hap,han⟩ := setData_node hc ha
    obtain ⟨b,hb,hbp,hbn⟩ := setData_node hc hb
    rw [hap, hbp, han, hbn] at he
    exact h.sep ha hb he
  leaf {q' d} j hd hl := by
    rcases setData_cases hd with ⟨rfl,rfl⟩ | ⟨-,hd⟩
    · by_cases hj : j = i
      · subst hj; simpa using hv
      · simpa [hj] using h.leaf j hc hl
    · exact h.leaf j hd hl

end Tree

/-- The invariant after a store to a leaf word. -/
theorem Inv.setData (h : Inv trusted T m) (hc : T q = some c) (hl : q.length = 3) {v : U64}
    (hv : v = 0#64 ∨ isValid v = true) : Inv trusted (T.setData q c i v)
      (m.setEntry c.node.cpu ⟨c.node.phys,T.words q c⟩ i v) where
  ok := h.ok.setData hc hv
  host := by
    refine ⟨?_,?_,?_,?_,?_,?_⟩
    · rw [Tree.ptr_setData hc]; exact h.host.l1
    all_goals
      intro q' d hd
      obtain ⟨d',hd,hp,hn⟩ := Tree.setData_node hc hd
      simp only [hp, hn, Tree.ptr_setData hc]
    · exact h.host.ptr hd
    · exact h.host.node hd
    · exact h.host.children hd
    · exact h.host.count hd
    · exact h.host.array hd
  stored := by
    refine ⟨(Tree.root_setData hc).symm ▸ h.stored.l0,?_⟩
    intro q' d hd
    rcases Tree.setData_cases hd with ⟨rfl,rfl⟩ | ⟨hq,hd⟩
    · simp [Memory.setEntry, Tree.words, hl]
    · have hne : d.node.cpu ≠ c.node.cpu := fun he => hq (h.ok.sep hd hc (by simp [he]))
      simp only [Memory.setEntry, Function.update_of_ne hne, h.stored.table hd, Tree.words,
        Tree.entry_setData hc]
  framed ht := by
    refine ⟨?_,?_⟩
    all_goals
      intro q' d hd
      obtain ⟨d',hd,hp,hn⟩ := Tree.setData_node hc hd
      simp only [hn]
    · exact (h.framed ht).phys hd
    · exact (h.framed ht).frame hd
  owns := by
    have keep {q' : Path} {d : Cell} (hd : T q' = some d) :
        ∃ d', T.setData q c i v q' = some d' ∧ d'.ptr = d.ptr ∧ d'.node = d.node := by
      obtain ⟨d',hd'⟩ := Option.ne_none_iff_exists'.mp
        ((Tree.setData_isSome (v := v) (i := i) hc).mpr (Option.ne_none_iff_exists'.mpr ⟨d,hd⟩))
      obtain ⟨e,he,hp,hn⟩ := Tree.setData_node hc hd'
      obtain rfl := Option.some.inj (hd.symm.trans he)
      exact ⟨d',hd',hp,hn⟩
    refine ⟨fun hx => ?_,fun hx => ?_,fun {x} hx => ?_⟩
    · obtain ⟨q',d,hd,rfl⟩ := h.owns.node hx
      obtain ⟨d',hd',hp,-⟩ := keep hd
      exact ⟨q',d',hd',hp⟩
    · obtain ⟨q',d,hd,rfl⟩ := h.owns.array hx
      obtain ⟨d',hd',-,hn⟩ := keep hd
      exact ⟨q',d',hd',by rw [hn]⟩
    · have hx : m.tables x ≠ none := by
        rcases Tree.ne_none_of_update hx with rfl | hx
        · simp [h.stored.table hc]
        · exact hx
      obtain ⟨q',d,hd,rfl⟩ := h.owns.table hx
      obtain ⟨d',hd',-,hn⟩ := keep hd
      exact ⟨q',d',hd',by rw [hn]⟩

/-- A call serves its abstract counterpart. -/
def Served (trusted : Bool) (T : Tree) (call : Call) (events : Trace) (reply : Reply)
    (u : Memory) : Prop :=
  ∃ T' : Tree, Inv trusted T' u ∧
    (reply,T'.mapping) = call.spec T.mapping (refused events) ∧
    (trusted = true → Switches T.mapping T'.mapping events)

theorem Inv.served_same {call : Call} {r : Reply} (h : Inv trusted T m) (events : Trace)
    (hr : (r,T.mapping) = call.spec T.mapping (refused events))
    (he : trusted = true → ∀ e ∈ events, Shows e.state T.mapping) :
    Served trusted T call events r m :=
  ⟨T,h,hr,fun ht => ⟨events,[],by simp,he ht,by simp⟩⟩

/-- A call whose last step is the only visible one. -/
theorem served_last {call : Call} {events : Trace} {r : Reply} {last : Event Op Res Memory}
    {T' : Tree} (h : Inv trusted T' last.state)
    (hr : (r,T'.mapping) = call.spec T.mapping (refused (events ++ [last])))
    (he : trusted = true → ∀ e ∈ events, Shows e.state T.mapping) :
    Served trusted T call (events ++ [last]) r last.state := by
  refine ⟨T',h,hr,fun ht => ⟨events,[last],rfl,he ht,?_⟩⟩
  subst ht
  simpa using h.shows

theorem mapPage_spec (h : Inv trusted T m) (ctxId : U32) (iova phys flags : U64) :
    wp (step trusted) (mapPage ctxId iova phys flags) (fun events r u =>
      Served trusted T (.mapPage ctxId iova phys flags) events (.status r) u) m := by
  have hsame (hr : (Reply.status Status.einval,T.mapping) =
      Call.spec T.mapping false (.mapPage ctxId iova phys flags)) := h.served_same [] hr
  unfold mapPage
  split_ifs with hc ho hv
  · refine hsame ?_ (by simp)
    simp [Call.spec, slotOf_eq_none.mpr (.inl hc)]
  · refine hsame ?_ (by simp)
    cases hk : slotOf ctxId iova <;> simp [Call.spec, hk, ho]
  · refine hsame ?_ (by simp)
    simp [Call.spec, slotOf_eq_none.mpr (.inr hv)]
  · obtain ⟨k,hk⟩ := Option.ne_none_iff_exists'.mp (mt slotOf_eq_none.mp (not_or.mpr ⟨hc,hv⟩))
    apply wp_ensure h hk
    · intro T' u events h' hM hr hs
      rw [← hM] at hs
      have hspec : (Reply.status Status.enomem,T'.mapping) =
          Call.spec T'.mapping (refused events) (.mapPage ctxId iova phys flags) := by
        simp [Call.spec, hk, ho, hr]
      simpa only [Served, hM] using h'.served_same events hspec hs
    · intro T' u events c h' hM hleaf hr hs
      have hn := h'.setData (i := k.index3) hleaf rfl (.inr (isValid_pte phys flags))
      have hi := (index_bounds iova).2.2
      rw [← slotOf_index3 hk] at hi ⊢
      apply wp_loadNode (h'.host.node hleaf)
      apply wp_storeEntry (h'.stored.table hleaf) hi
      simp only [pure_eq, wp_ret]
      rw [List.append_cons]
      refine served_last hn ?_ fun ht => ?_
      · rw [Tree.mapping_setData hleaf, isValid_pte, ptePhys_pte, hM]
        simp [Call.spec, hk, ho, hr, refusal]
      · subst ht
        rw [List.forall_mem_append]
        exact ⟨hs rfl,by simpa [hM] using h'.shows⟩

theorem lookup_spec (h : Inv trusted T m) (ctxId : U32) (iova : U64) :
    wp (step trusted) (lookup ctxId iova) (fun events r u =>
      u = m ∧ Served trusted T (.lookup ctxId iova) events (.found r.1 r.2) u) m := by
  have hm {events : Trace} (he : Still m events) :
      trusted = true → ∀ e ∈ events, Shows e.state T.mapping := by
    intro ht e hmem
    subst ht
    exact he.1 e hmem ▸ h.shows
  unfold lookup
  split_ifs with hc
  · refine ⟨rfl,h.served_same _ ?_ (hm still_nil)⟩
    simp [Call.spec, slotOf_eq_none.mpr hc]
  · obtain ⟨k,hk⟩ := Option.ne_none_iff_exists'.mp (mt slotOf_eq_none.mp hc)
    apply wp_find h hk
    · intro hmiss events hs
      refine ⟨rfl,h.served_same _ ?_ (hm hs)⟩
      simp [Call.spec, hk, Tree.mapping, hmiss]
    · intro c hleaf events hs
      have hi := (index_bounds iova).2.2
      rw [← slotOf_index3 hk] at hi ⊢
      apply wp_loadNode (h.host.node hleaf)
      apply wp_loadEntry (h.stored.table hleaf) hi
      refine ⟨rfl,h.served_same _ ?_ (hm (hs.append (by simp [Still, refusal])))⟩
      have hmap := Tree.mapping_leaf hleaf
      rcases h.ok.leaf k.index3 hleaf rfl with hw | hw
      · simp [Call.spec, hk, hmap, Tree.words_leaf, hw, isValid, ptePhys]
      · simp [Call.spec, hk, hmap, Tree.words_leaf, hw]

theorem unmapPage_spec (h : Inv trusted T m) (ctxId : U32) (iova : U64) :
    wp (step trusted) (unmapPage ctxId iova) (fun events r u =>
      Served trusted T (.unmapPage ctxId iova) events (.status r) u) m := by
  have hm {events : Trace} (he : Still m events) :
      trusted = true → ∀ e ∈ events, Shows e.state T.mapping := by
    intro ht e hmem
    subst ht
    exact he.1 e hmem ▸ h.shows
  unfold unmapPage
  split_ifs with hc
  · refine h.served_same _ ?_ (hm still_nil)
    simp [Call.spec, slotOf_eq_none.mpr hc]
  · obtain ⟨k,hk⟩ := Option.ne_none_iff_exists'.mp (mt slotOf_eq_none.mp hc)
    apply wp_find h hk
    · intro hmiss events hs
      refine h.served_same _ ?_ (hm hs)
      simp [Call.spec, hk, Tree.mapping, hmiss]
    · intro c hleaf events hs
      have hi := (index_bounds iova).2.2
      have hn := h.setData (i := k.index3) hleaf rfl (v := 0#64) (.inl rfl)
      rw [← slotOf_index3 hk] at hi ⊢
      apply wp_loadNode (h.host.node hleaf)
      apply wp_loadEntry (h.stored.table hleaf) hi
      have hmap := Tree.mapping_leaf hleaf
      rw [Tree.words_leaf]
      split_ifs with hv
      · refine h.served_same _ ?_ (hm (hs.append (by simp [Still, refusal])))
        simp [Call.spec, hk, hmap, hv]
      · apply wp_storeEntry (h.stored.table hleaf) hi
        simp only [pure_eq, wp_ret]
        rw [List.append_cons, List.append_cons]
        refine served_last hn ?_ (hm ?_)
        · rw [Tree.mapping_setData hleaf]
          rw [Bool.not_eq_false] at hv
          simp [Call.spec, hk, hmap, hv, show isValid 0#64 = false from rfl]
        · exact (hs.append (by simp [Still, refusal])).append (by simp [Still, refusal])

end AgxOpen.Uat
