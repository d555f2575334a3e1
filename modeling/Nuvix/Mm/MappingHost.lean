import Nuvix.Mm.MappingIdentity

/-!
# The references of the page cache to its hosts

`mapping_hold` takes a reference to the object a mapping belongs to: one for each page
that has something to write, and one for each page a collection has picked up. Each is
returned by `mapping_release` after all mutexes have been dropped, so a task can owe some
for a while. The calls are counted beside the state of `mm/mapping.c`. What the host does
in a release (an inode may be evicted, and its mapping purged) is work of its own, done
by a task without pages in hand.
-/

namespace Nuvix.Mapping

open Transition Function

variable {N : ℕ} {hasMutex : ℕ → Bool} {s s' : State N} {t : Fin N} {a : Action} {c m : ℕ}

/-! ### Holds and releases -/

/-- The mappings on which a step at this place calls `mapping_hold`. -/
def Pc.holds (k : Cache N) : Pc → Action → List ℕ
  | .idle, .dirty c =>
    if c ∈ k.table ∧ (k.page c).state.dirty = false then [(k.page c).mapping] else []
  | .flushCollect m, .run => (k.collect (some m)).map fun c => (k.page c).mapping
  | .flusherCollect, .run => (k.collect none).map fun c => (k.page c).mapping
  | _, _ => []

/-- The mappings on which the task has to call `mapping_release` after the step. -/
def Pc.owes (k : Cache N) : Pc → Action → List ℕ
  | .wbDone c _ _, .run => [(k.page c).mapping]
  | .put _ (.flush m _ _), .run | .put _ (.flusher m _), .run => [m]
  | .purgeRemove v m _ _, .remove _ => if (k.page v).state.dirty then [m] else []
  | _, _ => []

def holds (s : State N) (t : Fin N) (a : Action) : List ℕ := (s.task t).pc.holds s.cache a

def owes (s : State N) (t : Fin N) (a : Action) : List ℕ := (s.task t).pc.owes s.cache a

/-- The task still has a mutex to drop, or a page to put, before it releases. -/
def Pc.unlocking : Pc → Bool
  | .wbUnlock .. | .purgeUnlock .. | .put _ (.purge ..) => true
  | _ => false

/-- A state of the cache, the calls of `get` and `put` of the hosts so far, and the
releases each task has to make. -/
structure Hosted (N : ℕ) where
  s : State N
  gets : ℕ → ℕ
  puts : ℕ → ℕ
  due : Fin N → List ℕ

/-- A step of `mm/mapping.c`, or a call of `mapping_release`. -/
inductive Call
  | op (a : Action)
  | release
  deriving DecidableEq, Repr

namespace Hosted

/-- One step of a task; `hasGet` are the mappings whose `m_ops` have `get` and `put`. -/
def step (hasMutex hasGet : ℕ → Bool) (x : Hosted N) (b : Fin N × Call) : Option (Hosted N) :=
  let t := b.1
  match b.2 with
  | .op a =>
    if x.due t = [] ∨ (x.s.task t).pc.unlocking then
      (Mapping.step hasMutex x.s (t, a)).map fun s =>
        { s := s
          gets := fun m => x.gets m + if hasGet m then (holds x.s t a).count m else 0
          puts := x.puts
          due := update x.due t (x.due t ++ owes x.s t a) }
    else none
  | .release =>
    if x.s.panic ≠ none ∨ (x.s.task t).pc.unlocking then none
    else
      match x.due t with
      | [] => none
      | m :: rest => some { x with
          puts := fun m' => x.puts m' + if hasGet m' ∧ m' = m then 1 else 0
          due := update x.due t rest }

/-- An empty cache, which has no reference. -/
def start (N : ℕ) : Hosted N :=
  { s := boot N, gets := fun _ => 0, puts := fun _ => 0, due := fun _ => [] }

end Hosted

/-! ### What the references are for -/

/-- The mapping of every page. -/
def State.mapping (s : State N) (c : ℕ) : ℕ := (s.cache.page c).mapping

/-- The references a continuation has taken for collected pages. -/
def Cont.hosts (mapping : ℕ → ℕ) : Cont → List ℕ
  | .flush m _ rest => m :: List.replicate rest.length m
  | .flusher m rest => m :: rest.map mapping
  | .client | .purge .. => []

/-- The references a collector has taken for the pages it has not put yet. -/
def Pc.hosts (mapping : ℕ → ℕ) : Pc → List ℕ
  | .flushSample m pages | .flushNext m _ pages => List.replicate pages.length m
  | .flusherNext pages => pages.map mapping
  | .flusherUnlock _ m rest => m :: rest.map mapping
  | .put _ k | .wbLock _ k | .wbTest _ k | .wbWrite _ k | .wbDone _ _ k | .wbUnlock _ _ k =>
    k.hosts mapping
  | _ => []

/-- The references of the collection a task works on. -/
def State.hosts (s : State N) (t : Fin N) : List ℕ := (s.task t).pc.hosts s.mapping

/-- The pages of a mapping that are dirty or under writeback. -/
def State.busy (s : State N) (m : ℕ) : Finset ℕ :=
  (Finset.range s.cache.next).filter fun c =>
    (s.cache.page c).mapping = m ∧ (s.cache.page c).state ≠ .clean

/-- The references to `m` that tasks have still to release. -/
def Hosted.pending (x : Hosted N) (m : ℕ) : ℕ :=
  ∑ t, ((x.s.hosts t).count m + (x.due t).count m)

theorem Inv.born_of_busy (h : Inv s) (hc : (s.cache.page c).state ≠ .clean) : c < s.cache.next := by
  by_contra hle
  exact ((h.page c).unborn (not_lt.mp hle)).1 ((h.page c).busy hc)

theorem Inv.mem_busy (h : Inv s) :
    c ∈ s.busy m ↔ (s.cache.page c).mapping = m ∧ (s.cache.page c).state ≠ .clean := by
  rw [State.busy, Finset.mem_filter, Finset.mem_range]
  exact ⟨And.right, fun hc => ⟨h.born_of_busy hc.2, hc⟩⟩

/-- Only the state of page `c` changes. -/
theorem Inv.card_busy (h : Inv s) (h' : Inv s')
    (hmapping : ∀ d < s.cache.next, (s'.cache.page d).mapping = (s.cache.page d).mapping)
    (hstate : ∀ d ≠ c, (s'.cache.page d).state = (s.cache.page d).state) :
    (s'.busy m).card + (if c ∈ s.busy m then 1 else 0) =
      (s.busy m).card + if c ∈ s'.busy m then 1 else 0 := by
  have herase : (s'.busy m).erase c = (s.busy m).erase c := by
    ext d
    rw [Finset.mem_erase, Finset.mem_erase, h.mem_busy, h'.mem_busy]
    refine and_congr_right fun hd => ?_
    rw [hstate d hd]
    refine and_congr_left fun hbusy => ?_
    rw [hmapping d (h.born_of_busy hbusy)]
  have hcard : ∀ S : Finset ℕ, S.card = (S.erase c).card + if c ∈ S then 1 else 0 := by
    intro S
    split_ifs with hc
    · exact (Finset.card_erase_add_one hc).symm
    · rw [Finset.erase_eq_of_notMem hc, Nat.add_zero]
  rw [hcard (s'.busy m), hcard (s.busy m), herase]
  omega

/-- The page a purge has selected, with its mapping. -/
def Pc.victim : Pc → Option (ℕ × ℕ)
  | .purgeLock v m .. | .purgeRemove v m .. => some (v, m)
  | _ => none

/-! ### What one step can do to the states of pages -/

/-- What one step can do to the states of pages and to the references of its task. -/
inductive Mark (s : State N) (t : Fin N) (a : Action) (s' : State N) : Prop
  /-- No state changes; a collector may take references, or make one due. -/
  | quiet (hstate : ∀ c, (s'.cache.page c).state = (s.cache.page c).state)
      (hhosts : ∀ m, (holds s t a).count m + (s.hosts t).count m =
        (s'.hosts t).count m + (owes s t a).count m)
      (hwriting : (s'.task t).pc.writing = (s.task t).pc.writing)
      (hvictim : ∀ v m, (s'.task t).pc.victim = some (v, m) → (s.task t).pc.victim = some (v, m) ∨
        v ∈ s.cache.table ∧ (s.cache.page v).mapping = m)
  /-- `mapping_dirty`. -/
  | dirty (c : ℕ) (ha : a = .dirty c) (hmem : c ∈ s.cache.table)
      (hholder : (s.cache.page c).holder = some t)
      (hself : (s'.cache.page c).state = ⟨true, (s.cache.page c).state.writeback⟩)
      (hother : ∀ d ≠ c, (s'.cache.page d).state = (s.cache.page d).state)
      (hpc : (s.task t).pc = .idle) (hpc' : (s'.task t).pc = .idle)
  /-- `mapping_writeback` finds the page dirty and calls `write_page`. -/
  | begin (c : ℕ) (k : Cont) (hdirty : (s.cache.page c).state.dirty = true)
      (hself : (s'.cache.page c).state = ⟨false, true⟩)
      (hother : ∀ d ≠ c, (s'.cache.page d).state = (s.cache.page d).state)
      (hmapping : s'.mapping = s.mapping) (hpc : (s.task t).pc = .wbTest c k)
      (hpc' : (s'.task t).pc = .wbWrite c k)
  /-- `mapping_writeback` ends, and owes the reference of the page. -/
  | finish (c : ℕ) (ret : ℤ) (k : Cont) (ha : a = .run)
      (hself : (s'.cache.page c).state = .clean)
      (hother : ∀ d ≠ c, (s'.cache.page d).state = (s.cache.page d).state)
      (hmapping : s'.mapping = s.mapping) (hpc : (s.task t).pc = .wbDone c ret k)
      (hpc' : (s'.task t).pc = .wbUnlock c ret k)
  /-- `mapping_purge` removes a page. -/
  | purge (v m first last : ℕ) (ha : a = .remove v)
      (hwriteback : (s.cache.page v).state.writeback = false)
      (hself : (s'.cache.page v).state = .clean)
      (hother : ∀ d ≠ v, (s'.cache.page d).state = (s.cache.page d).state)
      (hpc : (s.task t).pc = .purgeRemove v m first last)
      (hpc' : (s'.task t).pc = .purgeUnlock v m first last)

theorem Cache.setRefs_mapping (k : Cache N) (c refs d : ℕ) :
    ((k.setRefs c refs).page d).mapping = (k.page d).mapping := by
  unfold setRefs
  exact setPage_field CachePage.mapping (by rfl) d

theorem Cache.setState_mapping (k : Cache N) (c : ℕ) (st : PageState) (d : ℕ) :
    ((k.setState c st).page d).mapping = (k.page d).mapping := by
  unfold setState
  exact setPage_field CachePage.mapping (by rfl) d

theorem Cache.setHolder_mapping (k : Cache N) (c : ℕ) (o : Option (Fin N)) (d : ℕ) :
    ((k.setHolder c o).page d).mapping = (k.page d).mapping := by
  unfold setHolder
  exact setPage_field CachePage.mapping (by rfl) d

theorem Cache.finish_mapping (k : Cache N) (c : ℕ) (ret : ℤ) (d : ℕ) :
    ((k.finish c ret).page d).mapping = (k.page d).mapping := by
  unfold finish
  rw [link_page, setRefs_mapping, setState_mapping]
  split_ifs <;> rfl

theorem Cache.finish_state_self (k : Cache N) (c : ℕ) (ret : ℤ) :
    ((k.finish c ret).page c).state = .clean := by
  unfold finish
  rw [link_page, setRefs, setState, setPage_page, setPage_page, update_self,
    update_self]

theorem Cache.finish_state_of_ne (k : Cache N) {d : ℕ} (ret : ℤ) (hd : d ≠ c) :
    ((k.finish c ret).page d).state = (k.page d).state := by
  unfold finish
  rw [link_page, setRefs, setState, setPage_page, setPage_page, update_of_ne hd,
    update_of_ne hd]
  split_ifs <;> rfl

/-- The states of all pages are unchanged. -/
def SameStates (k k' : Cache N) : Prop := ∀ c, (k'.page c).state = (k.page c).state

namespace SameStates

variable {k k' k'' : Cache N} {c : ℕ}

theorem refl (k : Cache N) : SameStates k k := fun _ => rfl

theorem trans (h : SameStates k k') (h' : SameStates k' k'') : SameStates k k'' :=
  fun c => (h' c).trans (h c)

theorem setPage {pg : CachePage N} (hstate : pg.state = (k.page c).state) :
    SameStates k (k.setPage c pg) :=
  Cache.setPage_field CachePage.state hstate

theorem link : SameStates k (k.link c) := fun d => by rw [Cache.link_page]

theorem setRefs {refs : ℕ} : SameStates k (k.setRefs c refs) := setPage rfl

theorem setHolder {o : Option (Fin N)} : SameStates k (k.setHolder c o) := setPage rfl

theorem hold : SameStates k (k.hold c) := setRefs.trans link

theorem destroy (hclean : (k.page c).state = .clean) : SameStates k (k.destroy c) :=
  setPage hclean.symm

theorem create {index : ℕ} (hclean : (k.page k.next).state = .clean) :
    SameStates k (k.create t m index) := by
  have hset : SameStates k (k.setPage k.next ⟨m, index, 1, .clean, 0, some t⟩) :=
    setPage hclean.symm
  exact hset

theorem insert : SameStates k (k.insert c) := by
  have hset : SameStates k (k.setRefs c ((k.page c).refs + 1)) := setRefs
  exact hset

theorem unhash : SameStates k (k.unhash c) := by
  have hset : SameStates k (k.setRefs c
      (if (k.page c).refs ≤ 1 then (k.page c).refs else (k.page c).refs - 1)) := setRefs
  exact hset

theorem makeRoom (hroom : k.makeRoom = .room k') : SameStates k k' := by
  unfold Cache.makeRoom at hroom
  split_ifs at hroom
  · cases hroom
    exact refl k
  · split at hroom
    · cases hroom
    · next victim rest hlru =>
      dsimp only at hroom
      split_ifs at hroom with hbusy
      cases hroom
      have hclean : (k.page victim).state = .clean := by
        by_contra hne
        exact hbusy (.inr hne)
      have hdestroy : SameStates k (k.destroy victim) := destroy hclean
      exact hdestroy

end SameStates

/-- A step without holds and releases, to a place with the same references. -/
theorem Mark.of_pc {pc pc' : Pc} (hpc : (s.task t).pc = pc) (hpc' : (s'.task t).pc = pc')
    (hstate : SameStates s.cache s'.cache)
    (hsame : (pc.holds s.cache a, pc.owes s.cache a, pc'.hosts s'.mapping, pc'.writing) =
      ([], [], pc.hosts s.mapping, pc.writing))
    (hvictim : ∀ v m, pc'.victim = some (v, m) → pc.victim = some (v, m) ∨
      v ∈ s.cache.table ∧ (s.cache.page v).mapping = m) : Mark s t a s' := by
  simp only [Prod.mk.injEq] at hsame
  obtain ⟨hholds, howes, hhosts, hwriting⟩ := hsame
  refine .quiet hstate (fun m => ?_) (by rw [hpc, hpc', hwriting]) (by rwa [hpc, hpc'])
  rw [holds, owes, State.hosts, State.hosts, hpc, hpc', hhosts, hholds, howes]
  exact Nat.add_comm _ _

/-- The same, to a place that has no victim. -/
theorem Mark.of_plain {pc pc' : Pc} (hpc : (s.task t).pc = pc) (hpc' : (s'.task t).pc = pc')
    (hstate : SameStates s.cache s'.cache)
    (hsame : (pc.holds s.cache a, pc.owes s.cache a, pc'.hosts s'.mapping, pc'.writing) =
      ([], [], pc.hosts s.mapping, pc.writing)) (hvictim : pc'.victim = none) : Mark s t a s' := by
  refine .of_pc hpc hpc' hstate hsame fun v m hv => ?_
  rw [hvictim] at hv
  cases hv

/-- What the caller of `mapping_put` releases was among the references of its collection. -/
theorem Mark.of_put {k : Cont} {k' : Cache N} (hpc : (s.task t).pc = .put c k)
    (hstate : SameStates s.cache k')
    (hmapping : ∀ d, (k'.page d).mapping = (s.cache.page d).mapping) :
    Mark s t .run ((s.setCache k').setPc t k.afterPut) := by
  have hmapping' : ((s.setCache k').setPc t k.afterPut).mapping = s.mapping := funext hmapping
  refine .quiet hstate (fun m => ?_) ?_ fun v m hv => ?_
  · rw [State.hosts, State.hosts, hmapping', setPc_pc, hpc]
    cases k <;> simp [holds, owes, hpc, Pc.holds, Pc.owes, Pc.hosts, Cont.hosts, Cont.afterPut,
      List.count_cons]
  · rw [setPc_pc, hpc]
    cases k <;> rfl
  · rw [setPc_pc] at hv
    cases k <;> cases hv

/-- A collection takes a reference for each of its pages. -/
theorem Mark.of_collect {pages : List ℕ} {pc pc' : Pc} (hpc : (s.task t).pc = pc)
    (hcount : ∀ m, (pc.holds s.cache a).count m = (pc'.hosts s.mapping).count m)
    (hsame : (pc.owes s.cache a, pc.hosts s.mapping, pc'.writing, pc'.victim) =
      ([], [], pc.writing, none)) :
    Mark s t a ((s.setCache (s.cache.holdAll pages)).setPc t pc') := by
  simp only [Prod.mk.injEq] at hsame
  obtain ⟨howes, hhosts, hwriting, hvictim⟩ := hsame
  have hmapping : ((s.setCache (s.cache.holdAll pages)).setPc t pc').mapping = s.mapping := rfl
  refine .quiet (fun _ => rfl) (fun m => ?_) (by rw [setPc_pc, hpc, hwriting]) fun v m hv => ?_
  · rw [holds, owes, State.hosts, State.hosts, hmapping, setPc_pc, hpc, hhosts, howes, hcount]
  · rw [setPc_pc, hvictim] at hv
    cases hv

theorem Cache.count_collect (k : Cache N) (m m' : ℕ) :
    ((k.collect (some m)).map fun c => (k.page c).mapping).count m' =
      (List.replicate (k.collect (some m)).length m).count m' := by
  congr 1
  refine List.eq_replicate_iff.mpr ⟨List.length_map _, fun b hb => ?_⟩
  obtain ⟨c, hc, rfl⟩ := List.mem_map.mp hb
  have hmapping := (List.mem_filter.mp hc).2
  simp only [Option.some_beq_none, Bool.false_or, beq_iff_eq, Option.some_inj] at hmapping
  exact hmapping.symm

theorem Cache.remove_state_self (k : Cache N) (v : ℕ) : ((k.remove v).page v).state = .clean := by
  simp [remove, unhash, setRefs, setState]

theorem Cache.remove_state_of_ne (k : Cache N) {v d : ℕ} (hd : d ≠ v) :
    ((k.remove v).page d).state = (k.page d).state := by
  simp [remove, unhash, setRefs, setState, update_of_ne hd]

/-- A page that a purge has locked is not under writeback: its writer would hold the mutex. -/
theorem Inv.not_writeback_of_purge {v first last : ℕ} (h : Inv s)
    (hpc : (s.task t).pc = .purgeRemove v m first last) :
    (s.cache.page v).state.writeback ≠ true := by
  intro hwriteback
  obtain ⟨u, hu⟩ := (h.page v).writing hwriteback
  have hholder := (h.page v).locked t (by simp [hpc, Pc.locked])
  rw [(h.page v).locked u (((s.task u).role v).writing_locked hu)] at hholder
  cases hholder
  simp [hpc, Pc.writing] at hu

/-- Every step is one of the marks. -/
theorem step_mark (h : Inv s) (hstep : step hasMutex s (t, a) = some s') : Mark s t a s' := by
  obtain ⟨pc, hpc, hmove⟩ := step_move hstep
  have hholder : ∀ c o, (s.setCache (s.cache.setHolder c o)).mapping = s.mapping :=
    fun c o => funext (s.cache.setHolder_mapping c o)
  cases hmove with
  | lockMapping | unlockMapping | insertPanic =>
    exact .of_pc hpc hpc (.refl _) rfl
      fun _ _ => .inl
  | dirtyDetached hc =>
    -- the assertion fails before the reference is taken
    exact .of_plain hpc hpc (.refl _) (by simp [Pc.holds, Pc.owes, hc]; rfl) rfl
  | getMiss | flush | flusher | purge | allocFail | wbClean | writePage | flushAlloc
  | flushAllocFail | flushSample | flushNext | flushReturn | flusherLock | flusherNext | flusherEnd
  | flusherUnlock | flusherPut | purgeReturn | purgeGone =>
    exact .of_plain hpc setPc_pc (.refl _) rfl rfl
  | put | writeback =>
    exact .of_plain hpc setThread_pc (.refl _) rfl
      rfl
  | lock | unlock =>
    exact .of_plain hpc hpc .setHolder rfl rfl
  | getHit =>
    exact .of_plain hpc setPc_pc .hold rfl rfl
  | @dirty c hcall hc =>
    refine .dirty c rfl hc hcall.2.1 ?_ (fun d hd => ?_) hpc hpc
    · change (((s.cache.setState c _).link c).page c).state = _
      rw [Cache.link_page, Cache.setState, Cache.setPage_page, update_self]
    · change (((s.cache.setState c _).link c).page d).state = _
      rw [Cache.link_page, Cache.setState, Cache.setPage_page, update_of_ne hd]
  | alloc =>
    exact .of_plain hpc setPc_pc (.create (h.clean_of_notMem ((h.page _).unborn le_rfl).1))
      rfl rfl
  | @insertHit c cached =>
    have hhold : SameStates s.cache (s.cache.hold cached) := .hold
    refine .of_plain hpc setPc_pc (hhold.trans (.destroy ?_)) rfl rfl
    rw [hhold]
    exact (h.of_getInsert hpc).2
  | insertFull =>
    exact .of_plain hpc setPc_pc (.destroy (h.of_getInsert hpc).2) rfl rfl
  | insert hfind hroom =>
    exact .of_plain hpc setPc_pc ((SameStates.makeRoom hroom).trans .insert) rfl rfl
  | readPage =>
    refine .of_plain hpc setPc_pc (.setPage rfl) ?_ ?_
    all_goals split_ifs <;> rfl
  | getFail =>
    exact .of_plain hpc setPc_pc .unhash rfl rfl
  | getUnlock | readyUnlock =>
    exact .of_plain hpc setThread_pc .setHolder rfl
      rfl
  | getUnlockFail | readyLock | readyUnlockFail | purgeUnlock =>
    exact .of_plain hpc setPc_pc .setHolder rfl rfl
  | @putPanic c k p hcond =>
    have hrefs : 0 < ((s.task t).role c).refs := by
      rw [Thread.role_refs, hpc]
      simp [Pc.refs]
    have hcount := (h.page c).count
    have hle := refs_le_sum (fun u => (s.task u).role c) t
    rcases hcond with hzero | ⟨hone, hmem⟩
    · omega
    · rw [if_pos hmem] at hcount
      omega
  | @putLast c k hone hc =>
    exact .of_put hpc (.destroy (h.clean_of_notMem hc)) (Cache.destroy_mapping _ c)
  | putRef =>
    refine .of_put hpc (SameStates.setRefs.trans .link) fun d => ?_
    rw [Cache.link_page, Cache.setRefs_mapping]
  | @wbLock c k =>
    exact .of_plain hpc setPc_pc .setHolder
      (congrArg (fun f => ([], [], k.hosts f, none)) (hholder c (some t))) rfl
  | @wbBegin c k hdirty =>
    refine .begin c k hdirty ?_ (fun d hd => ?_) (funext fun d => ?_) hpc setPc_pc
    · change ((Cache.link _ c).page c).state = _
      simp [Cache.setRefs, Cache.setState]
    · change ((Cache.link _ c).page d).state = _
      simp [Cache.setRefs, Cache.setState, update_of_ne hd]
    · change ((Cache.link _ c).page d).mapping = _
      rw [Cache.link_page, Cache.setRefs_mapping, Cache.setState_mapping]
      rfl
  | @wbDone c ret k =>
    exact .finish c ret k rfl (Cache.finish_state_self _ c ret)
      (fun d hd => Cache.finish_state_of_ne _ ret hd) (funext (Cache.finish_mapping _ c ret)) hpc
      setPc_pc
  | @wbUnlock c ret k =>
    refine .of_plain hpc setThread_pc .setHolder
      (Eq.trans ?_ (congrArg (fun f => ([], [], k.hosts f, none)) (hholder c none))) ?_
    all_goals cases k <;> rfl
  | @flushCollect m =>
    exact .of_collect hpc (Cache.count_collect s.cache m) rfl
  | flusherCollect =>
    exact .of_collect hpc (fun _ => rfl) rfl
  | purgeSelect hmatch =>
    refine .of_pc hpc setPc_pc .setRefs rfl
      fun v' m' hv => ?_
    cases hv
    exact .inr ⟨hmatch.1, hmatch.2.1⟩
  | purgeLock =>
    exact .of_pc hpc setPc_pc .setHolder rfl
      fun _ _ => .inl
  | purgePanic hwriteback => exact absurd hwriteback (h.not_writeback_of_purge hpc)
  | @purgeRemove v m first last hc hwriteback =>
    exact .purge v m first last rfl hwriteback (s.cache.remove_state_self v)
      (fun d hd => s.cache.remove_state_of_ne hd) hpc setPc_pc

/-! ### The balance -/

/-- The references of a task concern pages that have been created. -/
theorem Pc.hosts_congr {pc : Pc} {f g : ℕ → ℕ} (h : ∀ c, 0 < pc.refs c → f c = g c) :
    pc.hosts f = pc.hosts g := by
  have hmap : ∀ pages : List ℕ, (∀ c ∈ pages, f c = g c) → pages.map f = pages.map g :=
    fun pages hpages => List.map_congr_left hpages
  have hcont : ∀ k : Cont, (∀ c, 0 < k.refs c → f c = g c) → k.hosts f = k.hosts g := by
    intro k hk
    cases k with
    | flusher m rest =>
      exact congrArg (m :: ·) (hmap rest fun c hc => hk c (List.count_pos_iff.mpr hc))
    | client | flush m ret rest | purge m first last => rfl
  cases pc with
  | flusherNext pages => exact hmap pages fun c hc => h c (List.count_pos_iff.mpr hc)
  | flusherUnlock c m rest =>
    refine congrArg (m :: ·) (hmap rest fun d hd => h d ?_)
    have := List.count_pos_iff.mpr hd
    simp only [Pc.refs]
    omega
  | put c k | wbLock c k | wbTest c k | wbUnlock c ret k | wbWrite c k | wbDone c ret k =>
    exact hcont k fun d hd => h d (by simp only [Pc.refs]; omega)
  | _ => rfl

namespace Hosted

variable {hasGet : ℕ → Bool} {x y : Hosted N} {m : ℕ}

/-- The invariant of a state with counts. -/
structure Inv (hasGet : ℕ → Bool) (x : Hosted N) : Prop where
  base : Mapping.Inv x.s
  writing : ∀ t c, (x.s.task t).pc.writing = some c → (x.s.cache.page c).state = ⟨false, true⟩
  victim : ∀ t v m, (x.s.task t).pc.victim = some (v, m) → (x.s.cache.page v).mapping = m
  balance : ∀ m, hasGet m = true → x.gets m = x.puts m + (x.s.busy m).card + x.pending m
  unused : ∀ m, hasGet m = false → x.gets m = 0 ∧ x.puts m = 0

theorem inv_start : Inv hasGet (start N) where
  base := inv_boot
  writing t c hc := by cases hc
  victim t v m hv := by cases hv
  balance m _ := by
    have hbusy : ((start N).s.busy m) = ∅ := rfl
    rw [hbusy]
    simp [start, pending, boot, State.hosts, Pc.hosts]
  unused m _ := ⟨rfl, rfl⟩

section

variable (h : Inv hasGet x)
include h

/-- A page is written by the task that holds its mutex. -/
theorem Inv.eq_of_writing {u : Fin N} (hholder : (x.s.cache.page c).holder = some t)
    (hu : (x.s.task u).pc.writing = some c) : u = t := by
  have hrole : ((x.s.task u).role c).writing = true := by simp [hu]
  have hu' := (h.base.page c).locked u (((x.s.task u).role c).writing_locked hrole)
  rw [hholder] at hu'
  exact (Option.some.inj hu').symm

theorem Inv.holder_of_locked (hc : (x.s.task t).pc.locked = some c) :
    (x.s.cache.page c).holder = some t :=
  (h.base.page c).locked t (by simp [hc])

/-- What one step of a task takes is what it still has for busy pages and for its
collection, together with what it owes. -/
theorem Inv.balance_step (h' : Mapping.Inv s')
    (hstep : Mapping.step hasMutex x.s (t, a) = some s') (m : ℕ) :
    (holds x.s t a).count m + (x.s.busy m).card + (x.s.hosts t).count m =
      (s'.busy m).card + (s'.hosts t).count m + (owes x.s t a).count m := by
  obtain ⟨lost, hkeeps, -⟩ := (step_keeps h.base hstep).cache
  have hmapping := hkeeps.mapping
  have hcard : ∀ c, (∀ d ≠ c, (s'.cache.page d).state = (x.s.cache.page d).state) →
      (s'.busy m).card + (if c ∈ x.s.busy m then 1 else 0) =
        (x.s.busy m).card + if c ∈ s'.busy m then 1 else 0 :=
    fun c hstate => h.base.card_busy h' hmapping hstate
  cases step_mark h.base hstep with
  | quiet hstate hhosts hwriting hvictim =>
    have hc := hcard 0 fun d _ => hstate d
    have hmem : 0 ∈ x.s.busy m ↔ 0 ∈ s'.busy m := by
      rw [h.base.mem_busy, h'.mem_busy, hstate]
      refine and_congr_left fun hbusy => ?_
      rw [hmapping 0 (h.base.born_of_busy hbusy)]
    simp only [hmem] at hc
    have := hhosts m
    omega
  | dirty c ha hmem hholder hself hother hpc hpc' =>
    have hwriteback : (x.s.cache.page c).state.writeback = false := by
      by_contra hwb
      obtain ⟨u, hu⟩ := (h.base.page c).writing (Bool.eq_true_of_not_eq_false hwb)
      have hwriting : (x.s.task u).pc.writing = some c := beq_iff_eq.mp hu
      rw [h.eq_of_writing hholder hwriting, hpc] at hwriting
      cases hwriting
    have hc := hcard c hother
    simp only [h.base.mem_busy, h'.mem_busy, hself, hmapping c (h.base.lt_next_of_mem hmem)] at hc
    subst ha
    simp only [holds, owes, State.hosts, hpc, hpc', Pc.holds, Pc.owes, Pc.hosts]
    rcases hst : (x.s.cache.page c).state with ⟨_ | _, wb⟩ <;>
      simp_all [PageState.clean, List.count_singleton] <;> split_ifs at hc ⊢ <;> omega
  | begin c k hdirty hself hother hmap hpc hpc' =>
    have hbusy : (x.s.cache.page c).state ≠ .clean := by
      intro hclean
      rw [hclean] at hdirty
      cases hdirty
    have hc := hcard c hother
    simp only [h.base.mem_busy, h'.mem_busy, hself, hmapping c (h.base.born_of_busy hbusy)] at hc
    have hwb : (⟨false, true⟩ : PageState) ≠ .clean := by decide
    simp only [hbusy, hwb, ne_eq, not_false_eq_true, and_true] at hc
    simp only [holds, owes, State.hosts, hmap, hpc, hpc', Pc.holds, Pc.owes, Pc.hosts,
      List.count_nil]
    omega
  | finish c ret k ha hself hother hmap hpc hpc' =>
    have hstate := h.writing t c (by rw [hpc]; rfl)
    have hc := hcard c hother
    simp only [h.base.mem_busy, h'.mem_busy, hself, hstate] at hc
    simp only [holds, owes, State.hosts, hmap, hpc, hpc', ha, Pc.holds, Pc.owes, Pc.hosts]
    simp [PageState.clean, List.count_singleton] at hc ⊢
    split_ifs at hc ⊢ <;> omega
  | purge v m' first last ha hwriteback hself hother hpc hpc' =>
    have hvictim := h.victim t v m' (by rw [hpc]; rfl)
    have hc := hcard v hother
    simp only [h.base.mem_busy, h'.mem_busy, hself, hvictim] at hc
    simp only [holds, owes, State.hosts, hpc, hpc', ha, Pc.holds, Pc.owes, Pc.hosts]
    rcases hst : (x.s.cache.page v).state with ⟨_ | _, wb⟩ <;>
      simp_all [PageState.clean, List.count_singleton]

section

variable (hstep : Mapping.step hasMutex x.s (t, a) = some s')
include hstep

/-- A page under `write_page` stays under writeback. -/
theorem Inv.writing_step (u : Fin N) (c : ℕ) (hc : (s'.task u).pc.writing = some c) :
    (s'.cache.page c).state = ⟨false, true⟩ := by
  have htask := (step_keeps h.base hstep).task
  -- a step that changes the state of a page is inside the mutex of the page
  have hkeep : ∀ d, (x.s.cache.page d).holder = some t →
      (∀ e ≠ d, (s'.cache.page e).state = (x.s.cache.page e).state) → u ≠ t →
      (s'.cache.page c).state = ⟨false, true⟩ := by
    intro d hholder hother hne
    rw [htask u hne] at hc
    rw [hother c, h.writing u c hc]
    rintro rfl
    exact hne (h.eq_of_writing hholder hc)
  cases step_mark h.base hstep with
  | quiet hstate hhosts hwriting hvictim =>
    rw [hstate]
    rcases eq_or_ne u t with rfl | hne
    · exact h.writing u c (hwriting ▸ hc)
    · rw [htask u hne] at hc
      exact h.writing u c hc
  | dirty d ha hmem hholder hself hother hpc hpc' =>
    refine hkeep d hholder hother ?_
    rintro rfl
    rw [hpc'] at hc
    cases hc
  | begin d k hdirty hself hother hmap hpc hpc' =>
    rcases eq_or_ne u t with rfl | hne
    · rw [hpc'] at hc
      cases hc
      exact hself
    · exact hkeep d (h.holder_of_locked (by rw [hpc]; rfl)) hother hne
  | finish d ret k ha hself hother hmap hpc hpc' =>
    refine hkeep d (h.holder_of_locked (by rw [hpc]; rfl)) hother ?_
    rintro rfl
    rw [hpc'] at hc
    cases hc
  | purge v m first last ha hwriteback hself hother hpc hpc' =>
    refine hkeep v (h.holder_of_locked (by rw [hpc]; rfl)) hother ?_
    rintro rfl
    rw [hpc'] at hc
    cases hc

/-- A page selected by a purge stays in its mapping. -/
theorem Inv.victim_step (u : Fin N) (v m : ℕ) (hv : (s'.task u).pc.victim = some (v, m)) :
    (s'.cache.page v).mapping = m := by
  have hsteps := step_keeps h.base hstep
  obtain ⟨lost, hkeeps, -⟩ := hsteps.cache
  have hold : (x.s.task u).pc.victim = some (v, m) → (s'.cache.page v).mapping = m := by
    intro hv
    have hpos : 0 < (x.s.task u).pc.refs v := by
      cases hpc : (x.s.task u).pc <;> rw [hpc] at hv <;> cases hv <;> simp [Pc.refs]
    rw [hkeeps.mapping v (h.base.lt_next hpos)]
    exact h.victim u v m hv
  rcases eq_or_ne u t with rfl | hne
  · cases step_mark h.base hstep with
    | quiet hstate hhosts hwriting hvictim =>
      rcases hvictim v m hv with hv | ⟨hmem, hmapping⟩
      · exact hold hv
      · rwa [hkeeps.mapping v (h.base.lt_next_of_mem hmem)]
    | dirty d ha hmem hholder hself hother hpc hpc'
    | begin d k hdirty hself hother hmap hpc hpc'
    | finish d ret k ha hself hother hmap hpc hpc'
    | purge v m first last ha hwriteback hself hother hpc hpc' =>
      rw [hpc'] at hv
      cases hv
  · rw [hsteps.task u hne] at hv
    exact hold hv

/-- A step of `mm/mapping.c` keeps the invariant. -/
theorem Inv.op :
    Inv hasGet { s := s'
                 gets := fun m => x.gets m + if hasGet m then (holds x.s t a).count m else 0
                 puts := x.puts
                 due := update x.due t (x.due t ++ owes x.s t a) } := by
  have hbase := h.base.step hstep
  have hsteps := step_keeps h.base hstep
  obtain ⟨lost, hkeeps, -⟩ := hsteps.cache
  refine ⟨hbase, h.writing_step hstep, h.victim_step hstep, fun m hm => ?_, fun m hm => ?_⟩
  · -- the references of the other tasks are for pages whose mapping does not change
    have hother : ∀ u ≠ t, s'.hosts u = x.s.hosts u := by
      intro u hu
      rw [State.hosts, hsteps.task u hu]
      exact Pc.hosts_congr fun c hc => hkeeps.mapping c (h.base.lt_next hc)
    have hsum := SumUpdate.sum_add_of_ne
      (f := fun u => (x.s.hosts u).count m + (x.due u).count m)
      (g := fun u => (s'.hosts u).count m +
        (update x.due t (x.due t ++ owes x.s t a) u).count m) t fun u hu => by
          rw [hother u hu, update_of_ne hu]
    have hstep := h.balance_step hbase hstep m
    have hbalance := h.balance m hm
    unfold pending at hbalance ⊢
    dsimp only at hsum ⊢
    rw [update_self, List.count_append] at hsum
    rw [if_pos hm]
    omega
  · obtain ⟨hgets, hputs⟩ := h.unused m hm
    refine ⟨?_, hputs⟩
    simp [hgets, hm]

end

/-- A release returns one of the references that were due. -/
theorem Inv.release {rest : List ℕ} (hdue : x.due t = m :: rest) :
    Inv hasGet { x with
      puts := fun m' => x.puts m' + if hasGet m' ∧ m' = m then 1 else 0
      due := update x.due t rest } := by
  refine ⟨h.base, h.writing, h.victim, fun m' hm => ?_, fun m' hm => ?_⟩
  · have hsum := SumUpdate.sum_add_of_ne
      (f := fun u => (x.s.hosts u).count m' + (x.due u).count m')
      (g := fun u => (x.s.hosts u).count m' + (update x.due t rest u).count m') t
      fun u hu => by rw [update_of_ne hu]
    have hbalance := h.balance m' hm
    unfold pending at hbalance ⊢
    dsimp only at hsum ⊢
    rw [update_self, hdue, List.count_cons] at hsum
    simp only [hm, true_and]
    rcases eq_or_ne m' m with rfl | hne
    · simp only [beq_self_eq_true, if_true] at hsum ⊢
      omega
    · simp only [beq_iff_eq, hne, hne.symm, if_false] at hsum ⊢
      omega
  · obtain ⟨hgets, hputs⟩ := h.unused m' hm
    exact ⟨hgets, by simp [hputs, hm]⟩

theorem Inv.step {b : Fin N × Call} (hstep : Hosted.step hasMutex hasGet x b = some y) :
    Inv hasGet y := by
  obtain ⟨t, call⟩ := b
  cases call with
  | op a =>
    simp only [Hosted.step] at hstep
    split_ifs at hstep
    obtain ⟨s', hs', rfl⟩ := Option.map_eq_some_iff.mp hstep
    exact h.op hs'
  | release =>
    simp only [Hosted.step] at hstep
    split_ifs at hstep
    split at hstep
    · cases hstep
    · next m rest hdue =>
      cases hstep
      exact h.release hdue

end

end Hosted

end Nuvix.Mapping
