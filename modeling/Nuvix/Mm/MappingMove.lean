import Nuvix.Mm.Mapping

/-!
# The steps of the page cache, one by one

What a task can do in one step, read off the code once: where it stands, what it does, under which
condition, and the state it leaves. Everything that is proved about single steps goes by these
cases.
-/

namespace Nuvix.Mapping

variable {N : ℕ} {hasMutex : ℕ → Bool} {s s' : State N} {t u : Fin N} {a : Action} {pc : Pc}

section

variable (hasMutex s t)

/-- One step of task `t`, which stands at the place given first. -/
inductive Move : Pc → Action → State N → Prop
  | lockMapping {m : ℕ} (h : hasMutex m ∧ s.owner m = none) :
      Move .idle (.lockMapping m) (s.setOwner m (some t))
  | unlockMapping {m : ℕ} (h : s.owner m = some t) :
      Move .idle (.unlockMapping m) (s.setOwner m none)
  | getHit {m index c : ℕ} (h : AssertLocked hasMutex s t m)
      (hfind : s.cache.find m index = some c) :
      Move .idle (.get m index) ((s.setCache (s.cache.hold c)).setPc t (.readyLock c))
  | getMiss {m index : ℕ} (h : AssertLocked hasMutex s t m)
      (hfind : s.cache.find m index = none) :
      Move .idle (.get m index) (s.setPc t (.getAlloc m index))
  | put {c : ℕ} (h : c ∈ (s.task t).held) :
      Move .idle (.put c) (s.setThread t ⟨(s.task t).held.erase c, .put c .client⟩)
  | lock {c : ℕ} (h : c ∈ (s.task t).held ∧ (s.cache.page c).holder = none) :
      Move .idle (.lock c) (s.setCache (s.cache.setHolder c (some t)))
  | unlock {c : ℕ} (h : c ∈ (s.task t).held ∧ (s.cache.page c).holder = some t) :
      Move .idle (.unlock c) (s.setCache (s.cache.setHolder c none))
  | dirty {c : ℕ} (h : c ∈ (s.task t).held ∧ (s.cache.page c).holder = some t ∧
        AssertLocked hasMutex s t (s.cache.page c).mapping) (hc : c ∈ s.cache.table) :
      Move .idle (.dirty c) (s.setCache
        ((s.cache.setState c ⟨true, (s.cache.page c).state.writeback⟩).link c))
  | dirtyDetached {c : ℕ} (hc : c ∉ s.cache.table) :
      Move .idle (.dirty c) (s.fail .dirtyDetached)
  | writeback {c : ℕ} (h : c ∈ (s.task t).held ∧
        AssertLocked hasMutex s t (s.cache.page c).mapping) :
      Move .idle (.writeback c) (s.setThread t ⟨(s.task t).held.erase c, .wbLock c .client⟩)
  | flush {m : ℕ} (h : AssertLocked hasMutex s t m) :
      Move .idle (.flush m) (s.setPc t (.flushAlloc m))
  | flusher (h : s.cache.dirty ≠ []) : Move .idle .flusher (s.setPc t .flusherCollect)
  | purge {m start stop : ℕ} (h : AssertLocked hasMutex s t m) :
      Move .idle (.purge m start stop) (s.setPc t (.purgeSelect m start stop))
  | alloc {m index : ℕ} : Move (.getAlloc m index) (.alloc true)
      ((s.setCache (s.cache.create t m index)).setPc t (.getInsert s.cache.next))
  | allocFail {m index : ℕ} : Move (.getAlloc m index) (.alloc false) (s.setPc t .idle)
  | insertHit {c cached : ℕ}
      (hfind : s.cache.find (s.cache.page c).mapping (s.cache.page c).index = some cached) :
      Move (.getInsert c) .run
        ((s.setCache ((s.cache.hold cached).destroy c)).setPc t (.readyLock cached))
  | insertPanic {c : ℕ}
      (hfind : s.cache.find (s.cache.page c).mapping (s.cache.page c).index = none)
      (hroom : s.cache.makeRoom = .panic) : Move (.getInsert c) .run (s.fail .busyVictim)
  | insertFull {c : ℕ}
      (hfind : s.cache.find (s.cache.page c).mapping (s.cache.page c).index = none)
      (hroom : s.cache.makeRoom = .full) :
      Move (.getInsert c) .run ((s.setCache (s.cache.destroy c)).setPc t .idle)
  | insert {c : ℕ} {k : Cache N}
      (hfind : s.cache.find (s.cache.page c).mapping (s.cache.page c).index = none)
      (hroom : s.cache.makeRoom = .room k) :
      Move (.getInsert c) .run ((s.setCache (k.insert c)).setPc t (.getRead c))
  | readPage {c : ℕ} {ret : ℤ} : Move (.getRead c) (.readPage ret)
      ((s.setCache (s.cache.setRead c ret)).setPc t
        (if ret = 0 then .getUnlock c else .getFail c))
  | getFail {c : ℕ} :
      Move (.getFail c) .run ((s.setCache (s.cache.unhash c)).setPc t (.getUnlock c))
  | getUnlock {c : ℕ} (h : (s.cache.page c).error = 0) : Move (.getUnlock c) .run
      ((s.setCache (s.cache.setHolder c none)).setThread t ⟨c :: (s.task t).held, .idle⟩)
  | getUnlockFail {c : ℕ} (h : (s.cache.page c).error ≠ 0) : Move (.getUnlock c) .run
      ((s.setCache (s.cache.setHolder c none)).setPc t (.put c .client))
  | readyLock {c : ℕ} (h : (s.cache.page c).holder = none) : Move (.readyLock c) .run
      ((s.setCache (s.cache.setHolder c (some t))).setPc t (.readyUnlock c))
  | readyUnlock {c : ℕ} (h : (s.cache.page c).error = 0) : Move (.readyUnlock c) .run
      ((s.setCache (s.cache.setHolder c none)).setThread t ⟨c :: (s.task t).held, .idle⟩)
  | readyUnlockFail {c : ℕ} (h : (s.cache.page c).error ≠ 0) : Move (.readyUnlock c) .run
      ((s.setCache (s.cache.setHolder c none)).setPc t (.put c .client))
  | putPanic {c : ℕ} {k : Cont} {p : Panic}
      (h : (s.cache.page c).refs = 0 ∨ (s.cache.page c).refs = 1 ∧ c ∈ s.cache.table) :
      Move (.put c k) .run (s.fail p)
  | putLast {c : ℕ} {k : Cont} (hone : (s.cache.page c).refs = 1) (hc : c ∉ s.cache.table) :
      Move (.put c k) .run ((s.setCache (s.cache.destroy c)).setPc t k.afterPut)
  | putRef {c : ℕ} {k : Cont} (hzero : (s.cache.page c).refs ≠ 0)
      (hone : (s.cache.page c).refs ≠ 1) : Move (.put c k) .run ((s.setCache
        ((s.cache.setRefs c ((s.cache.page c).refs - 1)).link c)).setPc t k.afterPut)
  | wbLock {c : ℕ} {k : Cont} (h : (s.cache.page c).holder = none) : Move (.wbLock c k) .run
      ((s.setCache (s.cache.setHolder c (some t))).setPc t (.wbTest c k))
  | wbClean {c : ℕ} {k : Cont} (h : (s.cache.page c).state.dirty = false) :
      Move (.wbTest c k) .run (s.setPc t (.wbUnlock c 0 k))
  | wbBegin {c : ℕ} {k : Cont} (h : (s.cache.page c).state.dirty = true) :
      Move (.wbTest c k) .run ((s.setCache (((s.cache.setState c ⟨false, true⟩).setRefs c
        ((s.cache.page c).refs + 1)).link c)).setPc t (.wbWrite c k))
  | writePage {c : ℕ} {ret : ℤ} {k : Cont} :
      Move (.wbWrite c k) (.writePage c ret) (s.setPc t (.wbDone c ret k))
  | wbDone {c : ℕ} {ret : ℤ} {k : Cont} : Move (.wbDone c ret k) .run
      ((s.setCache (s.cache.finish c ret)).setPc t (.wbUnlock c ret k))
  | wbUnlock {c : ℕ} {ret : ℤ} {k : Cont} : Move (.wbUnlock c ret k) .run
      ((s.setCache (s.cache.setHolder c none)).setThread t
        (k.afterWriteback c ret (s.task t).held))
  | flushAlloc {m : ℕ} : Move (.flushAlloc m) (.alloc true) (s.setPc t (.flushCollect m))
  | flushAllocFail {m : ℕ} : Move (.flushAlloc m) (.alloc false)
      (s.setPc t (.flushNext m (-Errno.enomem.code) []))
  | flushCollect {m : ℕ} : Move (.flushCollect m) .run
      ((s.setCache (s.cache.holdAll (s.cache.collect (some m)))).setPc t
        (.flushSample m (s.cache.collect (some m))))
  | flushSample {m : ℕ} {pages : List ℕ} : Move (.flushSample m pages) .run
      (s.setPc t (.flushNext m (s.cache.mError m) pages))
  | flushNext {m c : ℕ} {ret : ℤ} {rest : List ℕ} : Move (.flushNext m ret (c :: rest)) .run
      (s.setPc t (.wbLock c (.flush m ret rest)))
  | flushReturn {m : ℕ} {ret : ℤ} :
      Move (.flushNext m ret []) (.flushReturn ret) (s.setPc t .idle)
  | flusherCollect : Move .flusherCollect .run
      ((s.setCache (s.cache.holdAll (s.cache.collect none))).setPc t
        (.flusherNext (s.cache.collect none)))
  | flusherLock {c : ℕ} {rest : List ℕ} (h : s.owner (s.cache.page c).mapping = none) :
      Move (.flusherNext (c :: rest)) .run ((s.setOwner (s.cache.page c).mapping (some t)).setPc t
        (.wbLock c (.flusher (s.cache.page c).mapping rest)))
  | flusherNext {c : ℕ} {rest : List ℕ} (h : hasMutex (s.cache.page c).mapping = false) :
      Move (.flusherNext (c :: rest)) .run
        (s.setPc t (.wbLock c (.flusher (s.cache.page c).mapping rest)))
  | flusherEnd : Move (.flusherNext []) .run (s.setPc t .idle)
  | flusherUnlock {c m : ℕ} {rest : List ℕ} (h : hasMutex m = true) :
      Move (.flusherUnlock c m rest) .run ((s.setOwner m none).setPc t (.put c (.flusher m rest)))
  | flusherPut {c m : ℕ} {rest : List ℕ} :
      Move (.flusherUnlock c m rest) .run (s.setPc t (.put c (.flusher m rest)))
  | purgeSelect {v m start stop : ℕ} (h : Purges s m start stop v) :
      Move (.purgeSelect m start stop) (.select (some v))
        ((s.setCache (s.cache.setRefs v ((s.cache.page v).refs + 1))).setPc t
          (.purgeLock v m start stop))
  | purgeReturn {m start stop : ℕ} (h : ∀ c ∈ s.cache.table, ¬ Purges s m start stop c) :
      Move (.purgeSelect m start stop) (.select none) (s.setPc t .idle)
  | purgeLock {v m start stop : ℕ} (h : (s.cache.page v).holder = none) :
      Move (.purgeLock v m start stop) .run
        ((s.setCache (s.cache.setHolder v (some t))).setPc t (.purgeRemove v m start stop))
  | purgePanic {v m start stop : ℕ} (h : (s.cache.page v).state.writeback = true) :
      Move (.purgeRemove v m start stop) (.remove v) (s.fail .purgeWriteback)
  | purgeRemove {v m start stop : ℕ} (hc : v ∈ s.cache.table)
      (h : (s.cache.page v).state.writeback = false) :
      Move (.purgeRemove v m start stop) (.remove v)
        ((s.setCache (s.cache.remove v)).setPc t (.purgeUnlock v m start stop))
  | purgeGone {v m start stop : ℕ} (hc : v ∉ s.cache.table) :
      Move (.purgeRemove v m start stop) .run (s.setPc t (.purgeUnlock v m start stop))
  | purgeUnlock {v m start stop : ℕ} : Move (.purgeUnlock v m start stop) .run
      ((s.setCache (s.cache.setHolder v none)).setPc t (.put v (.purge m start stop)))

end

theorem of_guard {σ : Type*} {p : Prop} [Decidable p] {x y : σ}
    (h : (if p then some x else none) = some y) : p ∧ x = y := by
  simpa using h

theorem start_move (hstep : start hasMutex s t a = some s') : Move hasMutex s t .idle a s' := by
  cases a with
  | lockMapping m =>
    obtain ⟨h, rfl⟩ := of_guard hstep
    exact .lockMapping h
  | unlockMapping m =>
    obtain ⟨h, rfl⟩ := of_guard hstep
    exact .unlockMapping h
  | get m index =>
    simp only [start] at hstep
    split_ifs at hstep with h
    split at hstep <;> cases hstep
    · exact .getHit h ‹_›
    · exact .getMiss h ‹_›
  | put c =>
    obtain ⟨h, rfl⟩ := of_guard hstep
    exact .put h
  | lock c =>
    obtain ⟨h, rfl⟩ := of_guard hstep
    exact .lock h
  | unlock c =>
    obtain ⟨h, rfl⟩ := of_guard hstep
    exact .unlock h
  | dirty c =>
    simp only [start] at hstep
    split_ifs at hstep with h hc <;> cases hstep
    · exact .dirty h hc
    · exact .dirtyDetached hc
  | writeback c =>
    obtain ⟨h, rfl⟩ := of_guard hstep
    exact .writeback h
  | flush m =>
    obtain ⟨h, rfl⟩ := of_guard hstep
    exact .flush h
  | flusher =>
    obtain ⟨h, rfl⟩ := of_guard hstep
    exact .flusher h
  | purge m start stop =>
    obtain ⟨h, rfl⟩ := of_guard hstep
    exact .purge h
  | _ => cases hstep

theorem stepGet_move (hstep : stepGet s t pc a = some s') : Move hasMutex s t pc a s' := by
  unfold stepGet at hstep
  split at hstep
  · split_ifs at hstep with h <;> cases hstep
    · rw [h]
      exact .alloc
    · rw [Bool.eq_false_of_not_eq_true h]
      exact .allocFail
  · dsimp only at hstep
    split at hstep
    · cases hstep
      exact .insertHit ‹_›
    · split at hstep <;> cases hstep
      · exact .insertPanic ‹_› ‹_›
      · exact .insertFull ‹_› ‹_›
      · exact .insert ‹_› ‹_›
  · cases hstep
    exact .readPage
  · cases hstep
    exact .getFail
  · dsimp only at hstep
    split_ifs at hstep with h <;> cases hstep
    · exact .getUnlock h
    · exact .getUnlockFail h
  · obtain ⟨h, rfl⟩ := of_guard hstep
    exact .readyLock h
  · dsimp only at hstep
    split_ifs at hstep with h <;> cases hstep
    · exact .readyUnlock h
    · exact .readyUnlockFail h
  · cases hstep

theorem stepPut_move (hstep : stepPut s t pc a = some s') : Move hasMutex s t pc a s' := by
  unfold stepPut at hstep
  split at hstep
  · dsimp only at hstep
    split_ifs at hstep with hzero hone hc <;> cases hstep
    · exact .putPanic (.inl hzero)
    · exact .putPanic (.inr ⟨hone, hc⟩)
    · exact .putLast hone hc
    · exact .putRef hzero hone
  · cases hstep

theorem stepWriteback_move (hstep : stepWriteback s t pc a = some s') :
    Move hasMutex s t pc a s' := by
  unfold stepWriteback at hstep
  split at hstep
  · obtain ⟨h, rfl⟩ := of_guard hstep
    exact .wbLock h
  · dsimp only at hstep
    split_ifs at hstep with h <;> cases hstep
    · exact .wbClean h
    · exact .wbBegin (Bool.eq_true_of_not_eq_false h)
  · obtain ⟨rfl, rfl⟩ := of_guard hstep
    exact .writePage
  · cases hstep
    exact .wbDone
  · cases hstep
    exact .wbUnlock
  · cases hstep

theorem stepFlush_move (hstep : stepFlush hasMutex s t pc a = some s') :
    Move hasMutex s t pc a s' := by
  unfold stepFlush at hstep
  split at hstep
  · split_ifs at hstep with h <;> cases hstep
    · rw [h]
      exact .flushAlloc
    · rw [Bool.eq_false_of_not_eq_true h]
      exact .flushAllocFail
  · cases hstep
    exact .flushCollect
  · cases hstep
    exact .flushSample
  · cases hstep
    exact .flushNext
  · obtain ⟨rfl, rfl⟩ := of_guard hstep
    exact .flushReturn
  · cases hstep
    exact .flusherCollect
  · dsimp only at hstep
    split_ifs at hstep with hmutex h <;> cases hstep
    · exact .flusherLock h
    · exact .flusherNext (Bool.eq_false_of_not_eq_true hmutex)
  · cases hstep
    exact .flusherEnd
  · split_ifs at hstep with h <;> cases hstep
    · exact .flusherUnlock h
    · exact .flusherPut
  · cases hstep

theorem stepPurge_move (hstep : stepPurge s t pc a = some s') : Move hasMutex s t pc a s' := by
  unfold stepPurge at hstep
  split at hstep
  · obtain ⟨h, rfl⟩ := of_guard hstep
    exact .purgeSelect h
  · obtain ⟨h, rfl⟩ := of_guard hstep
    exact .purgeReturn h
  · obtain ⟨h, rfl⟩ := of_guard hstep
    exact .purgeLock h
  · split_ifs at hstep with hc h <;> cases hstep <;> obtain ⟨rfl, hc⟩ := hc
    · exact .purgePanic h
    · exact .purgeRemove hc (Bool.eq_false_of_not_eq_true h)
  · split_ifs at hstep with hc
    cases hstep
    exact .purgeGone hc
  · cases hstep
    exact .purgeUnlock
  · cases hstep

/-- Every step is one of the moves. -/
theorem step_move (hstep : step hasMutex s (t, a) = some s') :
    ∃ pc, (s.task t).pc = pc ∧ Move hasMutex s t pc a s' := by
  obtain ⟨-, hstep⟩ := Option.ite_none_left_eq_some.mp hstep
  split at hstep
  · next hpc => exact ⟨_, hpc, start_move hstep⟩
  all_goals first
    | exact ⟨_, rfl, stepGet_move hstep⟩
    | exact ⟨_, rfl, stepPut_move hstep⟩
    | exact ⟨_, rfl, stepWriteback_move hstep⟩
    | exact ⟨_, rfl, stepFlush_move hstep⟩
    | exact ⟨_, rfl, stepPurge_move hstep⟩

/-- A step is about one task. -/
theorem Move.task (h : Move hasMutex s t pc a s') (hu : u ≠ t) : s'.task u = s.task u := by
  cases h <;> first | rfl | exact Function.update_of_ne hu _ _

end Nuvix.Mapping
