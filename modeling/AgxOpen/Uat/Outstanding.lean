import AgxOpen.Ledger
import AgxOpen.Uat.Runs

/-!
# Every block is accounted for

The callbacks of a run are the moves of a ledger. What is outstanding behind a
call is what the `l1` array leads to, and nothing once every context that was
mapped into has been released.
-/
namespace AgxOpen.Uat
open Program
open Function (update)

variable {trusted : Bool} {T : Tree} {m m' t u : Memory} {op : Op} {r : Res op}

/-- A table or a block of bookkeeping memory, with everything its free callback
is told: the address and the physical address of a table, the address and the
size of a block. -/
inductive Block
  | table (cpu : Ptr) (phys : U64)
  | node (ptr : Ptr)
  | children (ptr : Ptr) (count : ℕ)
  deriving DecidableEq

/-- What a callback does to the outstanding blocks. -/
def move : (op : Op) → Res op → Move Block
  | .allocTable, some (cpu,phys) => .take (.table cpu phys)
  | .allocNode, p => if p = 0 then .keep else .take (.node p)
  | .allocChildren count, p => if p = 0 then .keep else .take (.children p count)
  | .freeTable cpu phys, _ => .give (.table cpu phys)
  | .freeNode p, _ => .give (.node p)
  | .freeChildren p count, _ => .give (.children p count)
  | _, _ => .keep

def moves (events : Trace) : List (Move Block) := events.map fun e => move e.op e.answer

/-- All callbacks of a sequence of calls, oldest first. -/
def callbacks (calls : List Done) : List (Move Block) := moves (calls.flatMap Done.events)

def Memory.Live (m : Memory) : Block → Prop
  | .table cpu phys => (m.tables cpu).map Table.phys = some phys
  | .node p => (m.nodes p).isSome
  | .children p count => (m.arrays p).map Children.count = some count

theorem isSome_update {α β : Type} [DecidableEq α] {f : α → Option β} {x y : α} {v : β} :
    (update f x (some v) y).isSome ↔ y = x ∨ (f y).isSome := by
  by_cases h : y = x
  · simp [h]
  · simp [h]

theorem isSome_update_none {α β : Type} [DecidableEq α] {f : α → Option β} {x y : α} :
    (update f x none y).isSome ↔ y ≠ x ∧ (f y).isSome := by
  by_cases h : y = x
  · simp [h]
  · simp [h]

/-- A key of a partial function behind an update of it. -/
theorem map_update {α β γ : Type} [DecidableEq α] {f : α → Option β} {key : β → γ} {x y : α}
    {v : Option β} {k : γ} : (update f x v y).map key = some k ↔
      y = x ∧ v.map key = some k ∨ y ≠ x ∧ (f y).map key = some k := by
  by_cases h : y = x
  · simp [h]
  · simp [h]

/-- A store that keeps the key of the block it writes to. -/
theorem map_update_same {α β γ : Type} [DecidableEq α] {f : α → Option β} {key : β → γ} {x y : α}
    {v w : β} (hx : f x = some v) (hk : key w = key v) :
    (update f x (some w) y).map key = (f y).map key := by
  by_cases h : y = x
  · simp [h, hx, hk]
  · simp [h]

theorem step_moves (h : step trusted m op r = some t) : (move op r).Moves m.Live t.Live := by
  cases op with
  | allocTable =>
    match r, h with
    | none, h =>
      obtain rfl := Option.some.inj h
      exact fun _ => Iff.rfl
    | some (cpu,phys), h =>
      obtain ⟨hf,h⟩ := Option.ite_none_right_eq_some.mp h
      obtain rfl := Option.some.inj h
      have hn : m.tables cpu = none := Option.isNone_iff_eq_none.mp hf.1
      refine ⟨by simp [Memory.Live, hn],fun b => ?_⟩
      cases b with
      | table cpu' phys' =>
        simp only [Memory.Live, map_update, Option.map_some, Option.some.injEq, Block.table.injEq]
        constructor
        · rintro (⟨rfl,rfl⟩ | ⟨-,h⟩)
          · exact .inl ⟨rfl,rfl⟩
          · exact .inr h
        · rintro (⟨rfl,rfl⟩ | h)
          · exact .inl ⟨rfl,rfl⟩
          · refine .inr ⟨fun he => ?_,h⟩
            simp [he, hn] at h
      | _ => simp [Memory.Live]
  | allocNode =>
    simp only [step, Option.isNone_iff_eq_none] at h
    simp only [move]
    split_ifs at h ⊢ with h0 hf
    · obtain rfl := Option.some.inj h
      exact fun _ => Iff.rfl
    · obtain rfl := Option.some.inj h
      refine ⟨by simp [Memory.Live, hf.1],fun b => ?_⟩
      cases b with
      | node p => simp only [Memory.Live, isSome_update, Block.node.injEq]
      | _ => simp [Memory.Live]
  | allocChildren count =>
    simp only [step, Option.isNone_iff_eq_none] at h
    simp only [move]
    split_ifs at h ⊢ with h0 hf
    · obtain rfl := Option.some.inj h
      exact fun _ => Iff.rfl
    · obtain rfl := Option.some.inj h
      refine ⟨by simp [Memory.Live, hf.2],fun b => ?_⟩
      cases b with
      | children p n =>
        simp only [Memory.Live, map_update, Option.map_some, Option.some.injEq,
          Block.children.injEq]
        constructor
        · rintro (⟨rfl,rfl⟩ | ⟨-,h⟩)
          · exact .inl ⟨rfl,rfl⟩
          · exact .inr h
        · rintro (⟨rfl,rfl⟩ | h)
          · exact .inl ⟨rfl,rfl⟩
          · refine .inr ⟨fun he => ?_,h⟩
            simp [he, hf.2] at h
      | _ => simp [Memory.Live]
  | freeTable cpu phys =>
    obtain ⟨hf,h⟩ := Option.ite_none_right_eq_some.mp h
    obtain rfl := Option.some.inj h
    refine ⟨hf,fun b => ?_⟩
    cases b with
    | table cpu' phys' =>
      simp only [Memory.Live, map_update, Option.map_none, reduceCtorEq, and_false, false_or, ne_eq,
        Block.table.injEq]
      refine and_congr_left fun hb => ?_
      constructor
      · exact fun hne he => hne he.1
      · rintro hne rfl
        rw [hf, Option.some.injEq] at hb
        exact hne ⟨rfl,hb.symm⟩
    | _ => simp [Memory.Live]
  | freeNode p =>
    simp only [step] at h
    split_ifs at h with hf
    obtain rfl := Option.some.inj h
    refine ⟨hf,fun b => ?_⟩
    cases b with
    | node q => simp only [Memory.Live, isSome_update_none, ne_eq, Block.node.injEq]
    | _ => simp [Memory.Live]
  | freeChildren p count =>
    simp only [step] at h
    split_ifs at h with hf
    obtain rfl := Option.some.inj h
    refine ⟨hf,fun b => ?_⟩
    cases b with
    | children q n =>
      simp only [Memory.Live, map_update, Option.map_none, reduceCtorEq, and_false, false_or, ne_eq,
        Block.children.injEq]
      refine and_congr_left fun hb => ?_
      constructor
      · exact fun hne he => hne he.1
      · rintro hne rfl
        rw [hf, Option.some.injEq] at hb
        exact hne ⟨rfl,hb.symm⟩
    | _ => simp [Memory.Live]
  | storeNode p n =>
    simp only [step] at h
    split_ifs at h with hf
    obtain rfl := Option.some.inj h
    intro b
    cases b with
    | node q =>
      simp only [Memory.Live, isSome_update, or_iff_right_iff_imp]
      rintro rfl
      exact hf
    | _ => exact Iff.rfl
  | storeChild p idx child =>
    simp only [step] at h
    split at h
    · rename_i a ha
      split_ifs at h
      obtain rfl := Option.some.inj h
      intro b
      cases b with
      | children q n =>
        rw [Memory.Live, Memory.Live]
        exact Iff.of_eq (congrArg (· = some n) (map_update_same ha rfl))
      | _ => exact Iff.rfl
    · contradiction
  | storeEntry cpu idx value =>
    simp only [step] at h
    split at h
    · rename_i a ha
      split_ifs at h
      obtain rfl := Option.some.inj h
      intro b
      cases b with
      | table q n =>
        rw [Memory.Live, Memory.Live]
        exact Iff.of_eq (congrArg (· = some n) (map_update_same ha rfl))
      | _ => exact Iff.rfl
    · contradiction
  | loadChild p idx =>
    simp only [step] at h
    split at h
    · split_ifs at h
      obtain rfl := Option.some.inj h
      exact fun _ => Iff.rfl
    · contradiction
  | loadEntry cpu idx =>
    simp only [step] at h
    split at h
    · split_ifs at h
      obtain rfl := Option.some.inj h
      exact fun _ => Iff.rfl
    · contradiction
  | fault => contradiction
  | _ =>
    simp only [step] at h
    split_ifs at h
    obtain rfl := Option.some.inj h
    exact fun b => by cases b <;> exact Iff.rfl

theorem Exec.tallies {p : UatProgram Reply} {events : Trace} {a : Reply} {held : List Block}
    (h : Exec (step trusted) p m events a u) (hm : Tallies m.Live held) :
    ∃ held', settle held (moves events) = some held' ∧ Tallies u.Live held' := by
  induction h generalizing held with
  | ret a s => exact ⟨held,rfl,hm⟩
  | call h rest ih =>
    obtain ⟨held₁,h₁,ht₁⟩ := hm.post (step_moves h)
    obtain ⟨held₂,h₂,ht₂⟩ := ih ht₁
    refine ⟨held₂,?_,ht₂⟩
    rw [moves, List.map_cons, settle, h₁, Option.bind_some]
    exact h₂

/-- Every run balances, whatever was held before, as long as it was what is live. -/
theorem Run.tallies {calls : List Done} {held : List Block} (h : Run trusted m calls m')
    (hm : Tallies m.Live held) :
    ∃ held', settle held (callbacks calls) = some held' ∧ Tallies m'.Live held' := by
  induction h generalizing held with
  | nil m => exact ⟨held,rfl,hm⟩
  | @cons m m' m'' c events r rest hexec tail ih =>
    obtain ⟨held₁,h₁,ht₁⟩ := Exec.tallies hexec hm
    obtain ⟨held₂,h₂,ht₂⟩ := ih ht₁
    refine ⟨held₂,?_,ht₂⟩
    rw [callbacks, List.flatMap_cons, moves, List.map_append, settle_append]
    change (settle held (moves events)).bind _ = _
    rw [h₁, Option.bind_some]
    exact h₂

theorem tallies_init (l0 : ℕ → U64) : Tallies (init l0).Live [] :=
  ⟨List.nodup_nil,fun b => by cases b <;> simp [Memory.Live, init]⟩

/-- A node that the host structures lead to. -/
inductive Memory.Linked (m : Memory) : Ptr → Prop
  | root {ctx select : ℕ} (hc : ctx < contextCount) (hs : select < 2)
      (h : m.l1 (ctx,select) ≠ 0) : Linked m (m.l1 (ctx,select))
  | child {p : Ptr} {n : Node} {a : Children} {idx : ℕ} (h : Linked m p) (hn : m.nodes p = some n)
      (ha : m.arrays n.children = some a) (hi : idx < a.count) (hx : a.slots idx ≠ 0) :
      Linked m (a.slots idx)

/-- The blocks of the nodes in reach, with what the nodes say about them. -/
def Memory.Reachable (m : Memory) : Block → Prop
  | .table cpu phys => ∃ p n, m.Linked p ∧ m.nodes p = some n ∧ n.cpu = cpu ∧ n.phys = phys
  | .node p => m.Linked p
  | .children q count => ∃ p n, m.Linked p ∧ m.nodes p = some n ∧ n.children = q ∧
    n.childCount.toNat = count

theorem Tree.linked {p : Path} {c : Cell} (hok : T.Ok) (hh : T.Host m) (hc : T p = some c) :
    m.Linked c.ptr := by
  induction p generalizing c with
  | nil => simp [hok.nil] at hc
  | cons i p ih =>
    have hne : T (i :: p) ≠ none := by simp [hc]
    obtain ⟨-,hi,hp⟩ := hok.parent hne
    have hptr : T.ptr (i :: p) = c.ptr := by simp [Tree.ptr, hc]
    cases p with
    | nil =>
      have hi : i < contextCount*2 := hi
      have hl := hh.l1 (i/2) (Nat.mod_lt i (show 0 < 2 by omega))
      rw [show i/2*2+i%2 = i by omega, hptr] at hl
      rw [← hl]
      exact .root (by omega) (Nat.mod_lt _ (by omega)) (hl ▸ hh.ptr hc)
    | cons j p =>
      obtain ⟨d,hd⟩ := Option.ne_none_iff_exists'.mp (hp (List.cons_ne_nil _ _))
      have ha := hh.array hd
      have hx : T.ptr (i :: j :: p) ≠ 0 := by
        rw [hptr]
        exact hh.ptr hc
      rw [← hptr]
      exact .child (ih hd) (hh.node hd) ha hi hx

theorem Tree.of_linked {x : Ptr} (hh : T.Host m) (hx : m.Linked x) :
    ∃ p c, T p = some c ∧ c.ptr = x := by
  induction hx with
  | @root ctx select _ hs h =>
    rw [hh.l1 ctx hs] at h ⊢
    obtain ⟨c,hc,hp⟩ := Tree.of_ptr_ne_zero h
    exact ⟨_,c,hc,hp.symm⟩
  | @child p n a idx _ hn ha _ hx ih =>
    obtain ⟨q,d,hd,rfl⟩ := ih
    obtain rfl := Option.some.inj (hn.symm.trans (hh.node hd))
    obtain rfl := Option.some.inj (ha.symm.trans (hh.array hd))
    obtain ⟨c,hc,hp⟩ := Tree.of_ptr_ne_zero (T := T) (q := idx :: q) hx
    exact ⟨_,c,hc,hp.symm⟩

/-- Whatever is live is linked, and the node in front knows its address and size. -/
theorem Inv.live_iff_reachable (h : Inv trusted T m) (b : Block) : m.Live b ↔ m.Reachable b := by
  cases b with
  | table cpu phys =>
    constructor
    · intro hb
      obtain ⟨t,ht,rfl⟩ := Option.map_eq_some_iff.mp hb
      obtain ⟨p,c,hc,rfl⟩ := h.owns.table (x := cpu) (by simp [ht])
      obtain rfl := Option.some.inj (ht.symm.trans (h.stored.table hc))
      exact ⟨c.ptr,c.node,Tree.linked h.ok h.host hc,h.host.node hc,rfl,rfl⟩
    · rintro ⟨x,n,hx,hn,rfl,rfl⟩
      obtain ⟨p,c,hc,rfl⟩ := Tree.of_linked h.host hx
      obtain rfl := Option.some.inj (hn.symm.trans (h.host.node hc))
      simp [Memory.Live, h.stored.table hc]
  | node x =>
    constructor
    · intro hb
      obtain ⟨p,c,hc,rfl⟩ := h.owns.node (Option.isSome_iff_ne_none.mp hb)
      exact Tree.linked h.ok h.host hc
    · intro hx
      obtain ⟨p,c,hc,rfl⟩ := Tree.of_linked h.host hx
      simp [Memory.Live, h.host.node hc]
  | children x count =>
    constructor
    · intro hb
      obtain ⟨a,ha,rfl⟩ := Option.map_eq_some_iff.mp hb
      obtain ⟨p,c,hc,rfl⟩ := h.owns.array (x := x) (by simp [ha])
      obtain rfl := Option.some.inj (ha.symm.trans (h.host.array hc))
      exact ⟨c.ptr,c.node,Tree.linked h.ok h.host hc,h.host.node hc,rfl,h.host.count hc⟩
    · rintro ⟨y,n,hy,hn,rfl,rfl⟩
      obtain ⟨p,c,hc,rfl⟩ := Tree.of_linked h.host hy
      obtain rfl := Option.some.inj (hn.symm.trans (h.host.node hc))
      simp [Memory.Live, h.host.array hc, h.host.count hc]

/-- The operation links no root but those of the context. -/
def LinksOnly (ctx : ℕ) (op : Op) : Prop := ∀ ctx' select p, op = .storeL1 ctx' select p → ctx' = ctx

/-- The operation links no root at all. -/
def LinksNone (op : Op) : Prop := ∀ ctx select p, op ≠ .storeL1 ctx select p

theorem LinksNone.only (ctx : ℕ) (h : LinksNone op) : LinksOnly ctx op :=
  fun ctx' select p he => absurd he (h ctx' select p)

theorem step_l1 (h : step trusted m op r = some t) {ctx select : ℕ}
    (ho : ∀ p, op ≠ .storeL1 ctx select p) : t.l1 (ctx,select) = m.l1 (ctx,select) := by
  cases op with
  | storeL1 ctx' select' p =>
    obtain ⟨-,h⟩ := Option.ite_none_right_eq_some.mp h
    obtain rfl := Option.some.inj h
    have hne : (ctx,select) ≠ (ctx',select') := by
      intro he
      obtain ⟨rfl,rfl⟩ := Prod.mk.inj he
      exact ho p rfl
    simp [hne]
  | allocTable =>
    match r, h with
    | none, h =>
      obtain rfl := Option.some.inj h
      rfl
    | some _, h =>
      obtain ⟨-,h⟩ := Option.ite_none_right_eq_some.mp h
      obtain rfl := Option.some.inj h
      rfl
  | fault => contradiction
  | _ =>
    simp only [step] at h
    repeat' split at h
    all_goals first | contradiction | (obtain rfl := Option.some.inj h; rfl)

theorem Exec.l1_eq {α : Type} {p : UatProgram α} {events : Trace} {a : α} {ctx ctx' select : ℕ}
    (h : Exec (step trusted) p m events a u) (hp : Only (LinksOnly ctx) p) (hne : ctx' ≠ ctx) :
    u.l1 (ctx',select) = m.l1 (ctx',select) := by
  induction h with
  | ret a s => rfl
  | call h rest ih =>
    rw [ih (hp.2 _)]
    exact step_l1 h fun p he => hne (hp.1 _ _ _ he)

theorem Exec.l1_same {α : Type} {p : UatProgram α} {events : Trace} {a : α}
    (h : Exec (step trusted) p m events a u) (hp : Only LinksNone p) : u.l1 = m.l1 := by
  induction h with
  | ret a s => rfl
  | call h rest ih =>
    rw [ih (hp.2 _)]
    exact funext fun x => step_l1 h fun p => hp.1 _ _ p

theorem linksNone_newNode (childCount : U32) : Only LinksNone (newNode childCount) := by
  simp [newNode, allocNodeBlock, allocTable, freeNodeBlock, storeNode, allocChildren, freeTable,
    LinksNone, Option.forall]

theorem linksNone_child (parent : Ptr) (idx childCount : U32) (create : Bool) :
    Only LinksNone (child parent idx childCount create) := by
  simp only [child, loadNode, loadChild, request_bind, pure_eq, only_call, only_ite]
  refine ⟨by simp [LinksNone],fun n => ⟨by simp [LinksNone],fun node => ⟨fun _ => only_ret _,fun _ => ?_⟩⟩⟩
  refine (linksNone_newNode childCount).bind fun node => ?_
  simp [storeChild, storeEntry, LinksNone]

theorem linksNone_l1 (ctxId select asid : U32) : Only LinksNone (l1 ctxId select false asid) := by
  simp [l1, loadL1, LinksNone]

theorem linksOnly_l1 (ctxId select asid : U32) (create : Bool) :
    Only (LinksOnly ctxId.toNat) (l1 ctxId select create asid) := by
  simp only [l1, loadL1, request_bind, pure_eq, only_call, only_ite]
  refine ⟨by simp [LinksOnly],fun node => ⟨fun _ => only_ret _,fun _ => ?_⟩⟩
  refine ((linksNone_newNode _).mono fun op => LinksNone.only _).bind fun node => ?_
  simp [storeL1, loadNode, l0Write, storeL0, LinksOnly]

/-- The walk without creation links no root. -/
theorem linksNone_find {α : Type} {ctxId : U32} {iova : U64} {e : α} {body : Ptr → UatProgram α}
    (hbody : ∀ p, Only LinksNone (body p)) : Only LinksNone (do
      let l1 ← l1 ctxId (ttbrSelect iova) false 0#32
      if l1 = 0 then return e
      else do
        let l2 ← child l1 (l1Index iova) 0#32 false
        if l2 = 0 then return e
        else do
          let l3 ← child l2 (l2Index iova) 0#32 false
          if l3 = 0 then return e else body l3) := by
  refine (linksNone_l1 _ _ _).bind fun l1 => only_ite.mpr ⟨fun _ => only_ret _,fun _ => ?_⟩
  refine (linksNone_child _ _ _ _).bind fun l2 => only_ite.mpr ⟨fun _ => only_ret _,fun _ => ?_⟩
  refine (linksNone_child _ _ _ _).bind fun l3 => only_ite.mpr ⟨fun _ => only_ret _,fun _ => ?_⟩
  exact hbody l3

theorem linksOnly_mapPage (ctxId : U32) (iova phys flags : U64) :
    Only (LinksOnly ctxId.toNat) (mapPage ctxId iova phys flags) := by
  have hchild (parent : Ptr) (idx childCount : U32) (create : Bool) :
      Only (LinksOnly ctxId.toNat) (child parent idx childCount create) :=
    (linksNone_child parent idx childCount create).mono fun op => LinksNone.only _
  simp only [mapPage, pure_eq, only_ite, only_ret, implies_true, true_and]
  intro _ _ _
  refine (linksOnly_l1 _ _ _ _).bind fun l1 => only_ite.mpr ⟨fun _ => only_ret _,fun _ => ?_⟩
  refine (hchild _ _ _ _).bind fun l2 => only_ite.mpr ⟨fun _ => only_ret _,fun _ => ?_⟩
  refine (hchild _ _ _ _).bind fun l3 => only_ite.mpr ⟨fun _ => only_ret _,fun _ => ?_⟩
  simp [loadNode, storeEntry, LinksOnly]

theorem linksNone_unmapPage (ctxId : U32) (iova : U64) :
    Only LinksNone (unmapPage ctxId iova) := by
  refine only_ite.mpr ⟨fun _ => only_ret _,fun _ => linksNone_find fun p => ?_⟩
  simp [loadNode, loadEntry, storeEntry, LinksNone]

theorem linksNone_lookup (ctxId : U32) (iova : U64) : Only LinksNone (lookup ctxId iova) := by
  refine only_ite.mpr ⟨fun _ => only_ret _,fun _ => linksNone_find fun p => ?_⟩
  simp [loadNode, loadEntry, LinksNone]

theorem linksOnly_freeNode (ctx fuel : ℕ) (node : Ptr) : Only (LinksOnly ctx) (freeNode fuel node) := by
  induction fuel generalizing node with
  | zero => simp [freeNode, fault, LinksOnly]
  | succ fuel ih =>
    simp only [freeNode, loadNode, request_bind, pure_eq, only_call, only_ite]
    refine ⟨fun _ => only_ret _,fun _ => ⟨by simp [LinksOnly],fun n => ⟨fun _ => ?_,fun _ => ?_⟩⟩⟩
    · simp [freeTable, freeNodeBlock, LinksOnly]
    · refine (Only.forRange _ fun i => ?_).bind fun _ => ?_
      · simp only [loadChild, request_bind, only_call]
        exact ⟨by simp [LinksOnly],fun child => ih child⟩
      · simp [freeChildren, freeTable, freeNodeBlock, LinksOnly]

theorem linksOnly_freeContext (ctxId : U32) :
    Only (LinksOnly ctxId.toNat) (freeContext ctxId) := by
  refine only_ite.mpr ⟨fun _ => only_ret _,fun _ => Only.forRange _ fun select => ?_⟩
  simp only [freeHalf, loadL1, request_bind, only_call]
  refine ⟨by simp [LinksOnly],fun node => (linksOnly_freeNode _ _ _).bind fun _ => ?_⟩
  simp [storeL1, l0Write, storeL0, LinksOnly]

theorem freeContext_l1 (h : Inv trusted T m) {ctxId : U32} (hc : ctxId.toNat < contextCount) :
    wp (step trusted) (freeContext ctxId) (fun _ _ u =>
      ∀ select < 2, u.l1 (ctxId.toNat,select) = 0) m := by
  unfold freeContext
  rw [if_neg (Nat.not_le.mpr hc)]
  change wp _ ((ret () >>= fun _ => freeHalf ctxId 0) >>= fun _ => freeHalf ctxId 1) _ _
  apply wp_bind
  refine wp_mono (freeHalf_spec h hc (by omega)) ?_
  rintro ev1 _ u1 ⟨h1,-⟩
  refine wp_mono (freeHalf_spec h1 hc (by omega)) ?_
  rintro ev2 _ u2 ⟨h2,-⟩ select hs
  rw [h2.host.l1 _ hs, Tree.ptr_eq_zero h2.host]
  obtain rfl | rfl : select = 0 ∨ select = 1 := by omega
  · by_cases hb : [ctxId.toNat*2+0] ∈ below [ctxId.toNat*2+1]
    · exact Tree.prune_of_mem hb
    · rw [Tree.prune_of_not hb, Tree.prune_of_mem mem_below_self]
  · exact Tree.prune_of_mem mem_below_self

def Call.frees (ctx : ℕ) : Call → Bool
  | .freeContext ctxId => ctxId.toNat == ctx
  | _ => false

/-- Where a root that a call leaves linked comes from. -/
theorem Inv.l1_call (h : Inv trusted T m) {c : Call} {events : Trace} {r : Reply}
    (he : Exec (step trusted) c.program m events r u) {ctx select : ℕ} (hc : ctx < contextCount)
    (hs : select < 2) (hl : u.l1 (ctx,select) ≠ 0) :
    (m.l1 (ctx,select) ≠ 0 ∧ c.frees ctx = false) ∨
      ∃ ctxId iova phys flags, ctxId.toNat = ctx ∧ c = .mapPage ctxId iova phys flags := by
  cases c with
  | mapPage ctxId iova phys flags =>
    by_cases hctx : ctxId.toNat = ctx
    · exact .inr ⟨ctxId,iova,phys,flags,hctx,rfl⟩
    · refine .inl ⟨?_,rfl⟩
      have hp : Only (LinksOnly ctxId.toNat) (Call.mapPage ctxId iova phys flags).program :=
        (linksOnly_mapPage ctxId iova phys flags).bind fun _ => only_ret _
      rwa [← Exec.l1_eq he hp (Ne.symm hctx)]
  | unmapPage ctxId iova =>
    have hp : Only LinksNone (Call.unmapPage ctxId iova).program :=
      (linksNone_unmapPage ctxId iova).bind fun _ => only_ret _
    exact .inl ⟨by rwa [← Exec.l1_same he hp],rfl⟩
  | lookup ctxId iova =>
    have hp : Only LinksNone (Call.lookup ctxId iova).program :=
      (linksNone_lookup ctxId iova).bind fun _ => only_ret _
    exact .inl ⟨by rwa [← Exec.l1_same he hp],rfl⟩
  | freeContext ctxId =>
    by_cases hctx : ctxId.toNat = ctx
    · subst hctx
      have hw : wp (step trusted) (Call.freeContext ctxId).program
          (fun _ _ u => ∀ select < 2, u.l1 (ctxId.toNat,select) = 0) m := by
        apply wp_bind
        exact wp_mono (freeContext_l1 h hc) fun _ _ _ hu => hu
      exact absurd (he.post hw select hs) hl
    · have hp : Only (LinksOnly ctxId.toNat) (Call.freeContext ctxId).program :=
        (linksOnly_freeContext ctxId).bind fun _ => only_ret _
      exact .inl ⟨by rwa [← Exec.l1_eq he hp (Ne.symm hctx)],by simpa [Call.frees] using hctx⟩

/-- Some call maps into the context, and no later one releases it. -/
def inUse (ctx : ℕ) : List Call → Bool
  | [] => false
  | .mapPage ctxId _ _ _ :: rest =>
    inUse ctx rest || ctxId.toNat == ctx && !rest.any (Call.frees ctx)
  | _ :: rest => inUse ctx rest

theorem inUse_cons {ctx : ℕ} (c : Call) {rest : List Call} (h : inUse ctx rest = true) :
    inUse ctx (c :: rest) = true := by
  cases c with
  | mapPage => simp [inUse, h]
  | _ => exact h

theorem Run.l1_inUse {calls : List Done} (h : Run trusted m calls m') (hm : Inv trusted T m)
    {ctx select : ℕ} (hc : ctx < contextCount) (hs : select < 2) (hl : m'.l1 (ctx,select) ≠ 0) :
    (m.l1 (ctx,select) ≠ 0 ∧ (calls.map Done.call).any (Call.frees ctx) = false) ∨
      inUse ctx (calls.map Done.call) = true := by
  induction h generalizing T with
  | nil m => exact .inl ⟨hl,rfl⟩
  | @cons m m' m'' c events r rest hexec tail ih =>
    obtain ⟨T₁,h₁,-⟩ := hexec.post (hm.call c)
    obtain ⟨hl₁,hfree⟩ | hu := ih h₁ hl
    · obtain ⟨hl₀,hne⟩ | ⟨ctxId,iova,phys,flags,hctx,rfl⟩ := hm.l1_call hexec hc hs hl₁
      · exact .inl ⟨hl₀,by simp [hfree, hne]⟩
      · exact .inr (by simp [inUse, hctx, hfree])
    · exact .inr (inUse_cons c hu)

/-- Behind every sequence of calls the callbacks balance, the outstanding blocks
are those the `l1` array leads to, and none once every context that was mapped
into was released. No call from there gets stuck on a free. -/
theorem memory_conserved {calls : List Done} (h : Run false (init fun _ => 0#64) calls m) :
    (∃ held, settle [] (callbacks calls) = some held ∧ held.Nodup ∧
      ∀ b, b ∈ held ↔ m.Reachable b) ∧
    ((∀ ctx < contextCount, inUse ctx (calls.map Done.call) = false) →
      settle [] (callbacks calls) = some []) ∧
    ∀ (c : Call) (events : Trace) (q : UatProgram Reply) (u : Memory),
      Partial (step false) c.program m events q u →
      ∃ events' r u', Exec (step false) q u events' r u' := by
  obtain ⟨T,hT,-⟩ := h.refines (inv_init false)
  obtain ⟨held,hheld,ht⟩ := h.tallies (tallies_init _)
  have hr := ht.congr fun b => (hT.live_iff_reachable b).symm
  refine ⟨⟨held,hheld,hr.nodup,hr.mem⟩,fun hfree => ?_,fun c events q u hp => ?_⟩
  · have hl1 : ∀ ctx < contextCount, ∀ select < 2, m.l1 (ctx,select) = 0 := by
      intro ctx hc select hs
      by_contra hl
      obtain ⟨h0,-⟩ | hu := h.l1_inUse (inv_init false) hc hs hl
      · exact h0 rfl
      · exact absurd hu (by simp [hfree ctx hc])
    have hlinked : ∀ x, ¬ m.Linked x := by
      intro x hx
      induction hx with
      | root hc hs hl => exact hl (hl1 _ hc _ hs)
      | child _ _ _ _ _ ih => exact ih
    rw [hheld, hr.eq_nil fun b hb => ?_]
    cases b with
    | node p => exact hlinked p hb
    | _ =>
      obtain ⟨p,-,hp,-⟩ := hb
      exact hlinked p hp
  · obtain ⟨events',r,u',he,-⟩ := hp.complete (hT.call c)
    exact ⟨events',r,u',he⟩

/-- Two contexts are mapped into, then both are released. -/
theorem memory_conserved_demo : ∃ calls m, Run false (init fun _ => 0#64) calls m ∧
    calls.map Done.call = [.mapPage 0 0 0x4000 0,.mapPage 5 0x40000000000 0x8000 0,
      .freeContext 0,.freeContext 5] ∧ settle [] (callbacks calls) = some [] := by
  have hd : (simulate false (init fun _ => 0#64) [.mapPage 0 0 0x4000 0,
      .mapPage 5 0x40000000000 0x8000 0]).map (fun x => x.1.map Done.reply) =
      some [.status 0,.status 0] := by decide +kernel
  obtain ⟨⟨calls,m⟩,hs,-⟩ := Option.map_eq_some_iff.mp hd
  have hrun := simulate_run hs
  obtain ⟨T,hT,-⟩ := hrun.refines (inv_init false)
  obtain ⟨ev1,r1,m1,he1,T1,hT1,-⟩ := wp_exec (hT.call (.freeContext 0))
  obtain ⟨ev2,r2,m2,he2,-⟩ := wp_exec (hT1.call (.freeContext 5))
  have hall := hrun.append (.cons he1 (.cons he2 (.nil m2)))
  have hcalls : (calls ++ [(⟨.freeContext 0,ev1,r1⟩ : Done),⟨.freeContext 5,ev2,r2⟩]).map
      Done.call = [.mapPage 0 0 0x4000 0,.mapPage 5 0x40000000000 0x8000 0,.freeContext 0,.freeContext 5] := by
    rw [List.map_append, simulate_calls hs]
    rfl
  refine ⟨_,m2,hall,hcalls,(memory_conserved hall).2.1 ?_⟩
  rw [hcalls]
  decide

end AgxOpen.Uat
