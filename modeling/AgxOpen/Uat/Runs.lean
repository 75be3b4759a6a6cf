import AgxOpen.Uat.Free

/-!
# Whole sequences of calls

Every reachable memory is some tree, and the replies of a sequence are those of
the abstract mapping.
-/
namespace AgxOpen.Uat
open Program

variable {trusted : Bool} {T : Tree} {m m' : Memory}

/-- One call, against its abstract counterpart. -/
theorem Inv.call (h : Inv trusted T m) (c : Call) :
    wp (step trusted) c.program (fun events r u => ∃ T' : Tree, Inv trusted T' u ∧
      (r,T'.mapping) = c.spec T.mapping (refused events)) m := by
  have served {events : Trace} {r : Reply} {u : Memory} (hs : Served trusted T c events r u) :
      ∃ T' : Tree, Inv trusted T' u ∧ (r,T'.mapping) = c.spec T.mapping (refused events) := by
    obtain ⟨T',hi,hr,-⟩ := hs
    exact ⟨T',hi,hr⟩
  cases c with
  | mapPage ctxId iova phys flags =>
    apply wp_bind
    refine wp_mono (mapPage_spec h ctxId iova phys flags) fun events r u hs => ?_
    simpa using served hs
  | unmapPage ctxId iova =>
    apply wp_bind
    refine wp_mono (unmapPage_spec h ctxId iova) fun events r u hs => ?_
    simpa using served hs
  | lookup ctxId iova =>
    apply wp_bind
    refine wp_mono (lookup_spec h ctxId iova) fun events r u hs => ?_
    simpa using served hs.2
  | freeContext ctxId =>
    apply wp_bind
    refine wp_mono (freeContext_spec h ctxId) fun events r u hs => ?_
    simpa using hs.1

theorem Run.refines {calls : List Done} (h : Run trusted m calls m') (hm : Inv trusted T m) :
    ∃ T' : Tree, Inv trusted T' m' ∧ (calls.map Done.reply,T'.mapping) =
      specRun T.mapping (calls.map fun d => (d.call,refused d.events)) := by
  induction h generalizing T with
  | nil m => exact ⟨T,hm,rfl⟩
  | @cons m m' m'' c events r rest hexec tail ih =>
    obtain ⟨T₁,h₁,hr⟩ := hexec.post (hm.call c)
    obtain ⟨T₂,h₂,hrest⟩ := ih h₁
    refine ⟨T₂,h₂,?_⟩
    simp only [List.map_cons, specRun, ← hr, ← hrest]

theorem Reached.inv (h : Reached trusted m) : ∃ T, Inv trusted T m := by
  obtain ⟨calls,hrun⟩ := h
  obtain ⟨T,hT,-⟩ := hrun.refines (inv_init trusted)
  exact ⟨T,hT⟩

theorem Run.append {calls calls' : List Done} {m'' : Memory} (h : Run trusted m calls m')
    (h' : Run trusted m' calls' m'') : Run trusted m (calls ++ calls') m'' := by
  induction h with
  | nil m => exact h'
  | cons hexec tail ih => exact .cons hexec (ih h')

/-- The first free address, up to a small bound. -/
def firstFree (free : ℕ → Bool) : ℕ := 1+(List.range 32).findIdx fun i => free (1+i)

/-- An environment that never refuses and answers every read. -/
def firstFit (m : Memory) : (op : Op) → Res op
  | .allocTable =>
    let cpu := firstFree fun i => (m.tables i).isNone
    some (cpu,BitVec.ofNat 64 (cpu*2^14))
  | .allocNode | .allocChildren _ =>
    firstFree fun i => (m.nodes i).isNone && (m.arrays i).isNone
  | .loadL1 ctx select => m.l1 (ctx,select)
  | .loadNode p => (m.nodes p).getD ⟨0,0#64,0,0#32⟩
  | .loadChild p idx => ((m.arrays p).map fun a => a.slots idx).getD 0
  | .loadEntry cpu idx => ((m.tables cpu).map fun t => t.words idx).getD 0#64
  | .freeTable _ _ | .freeNode _ | .freeChildren _ _ | .storeL1 _ _ _ | .storeL0 _ _
  | .storeNode _ _ | .storeChild _ _ _ | .storeEntry _ _ _ | .fault => ()

/-- Run a list of calls in that environment. -/
def simulate (trusted : Bool) (m : Memory) : List Call → Option (List Done × Memory)
  | [] => some ([],m)
  | c :: rest => do
    let (events,r,m') ← runWith (step trusted) firstFit c.program m
    let (calls,m'') ← simulate trusted m' rest
    return (⟨c,events,r⟩ :: calls,m'')

theorem simulate_run {cs : List Call} {calls : List Done} (h : simulate trusted m cs = some (calls,m')) :
    Run trusted m calls m' := by
  induction cs generalizing m calls with
  | nil =>
    obtain ⟨rfl,rfl⟩ : _ ∧ m = m' := by simpa [simulate] using h
    exact .nil m
  | cons c rest ih =>
    simp only [simulate, Option.pure_def, Option.bind_eq_bind, Option.bind_eq_some_iff] at h
    obtain ⟨⟨events,r,m₁⟩,hrun,⟨tail,m₂⟩,hrest,he⟩ := h
    obtain ⟨rfl,rfl⟩ : _ ∧ m₂ = m' := by simpa using he
    exact .cons (runWith_exec hrun) (ih hrest)

theorem simulate_calls {cs : List Call} {calls : List Done}
    (h : simulate trusted m cs = some (calls,m')) : calls.map Done.call = cs := by
  induction cs generalizing m calls with
  | nil =>
    obtain ⟨rfl,-⟩ : [] = calls ∧ m = m' := by simpa [simulate] using h
    rfl
  | cons c rest ih =>
    simp only [simulate, Option.pure_def, Option.bind_eq_bind, Option.bind_eq_some_iff] at h
    obtain ⟨⟨events,r,m₁⟩,-,⟨tail,m₂⟩,hrest,he⟩ := h
    obtain ⟨rfl,rfl⟩ : _ ∧ m₂ = m' := by simpa using he
    rw [List.map_cons, ih hrest]

/-- The replies of every sequence of calls are those of the abstract mapping,
whatever the allocator refuses, and no call from a reached memory gets stuck. -/
theorem run_agrees_with_mapping {calls : List Done} (h : Run false (init fun _ => 0#64) calls m) :
    calls.map Done.reply =
      (specRun (fun _ => none) (calls.map fun d => (d.call,refused d.events))).1 ∧
    ∀ (c : Call) (events : Trace) (q : UatProgram Reply) (u : Memory),
      Partial (step false) c.program m events q u →
      ∃ events' r u', Exec (step false) q u events' r u' := by
  obtain ⟨T,hT,hr⟩ := h.refines (inv_init false)
  refine ⟨congrArg Prod.fst hr,fun c events q u hp => ?_⟩
  obtain ⟨events',r,u',he,-⟩ := hp.complete (hT.call c)
  exact ⟨events',r,u',he⟩

def demoCalls : List Call :=
  [.mapPage 3 0x40000000 0x300000000 0x3ff, .lookup 3 0x40000010, .unmapPage 3 0x40000000,
    .unmapPage 3 0x40000000, .lookup 3 0x40000000]

theorem run_agrees_with_mapping_demo : ∃ calls m, Run false (init fun _ => 0#64) calls m ∧
    calls.map Done.reply = [.status 0,.found 0x300000000 true,.status 0,.status (-61),.found 0 false] ∧
    calls.map Done.reply =
      (specRun (fun _ => none) (calls.map fun d => (d.call,refused d.events))).1 := by
  have hd : (simulate false (init fun _ => 0#64) demoCalls).map (fun x => x.1.map Done.reply) =
      some [.status 0,.found 0x300000000 true,.status 0,.status (-61),.found 0 false] := by decide
  obtain ⟨⟨calls,m⟩,hs,hr⟩ := Option.map_eq_some_iff.mp hd
  have hrun := simulate_run hs
  exact ⟨calls,m,hrun,hr,(run_agrees_with_mapping hrun).1⟩

end AgxOpen.Uat
