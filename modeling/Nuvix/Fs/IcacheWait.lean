import Nuvix.Fs.IcacheLife

/-!
# Identity and wake-ups in the inode cache
-/

namespace Nuvix.Icache

open Function

variable {N : ℕ} {s s' : State N} {t u : Fin N} {c : ℕ} {l : Loop} {n : ℕ}

/-- A hashed inode that a lookup has to wait for. -/
def Busy (s : State N) (c : ℕ) : Prop := c ∈ s.table ∧ (s.inode c).state ≠ .ready

/-- The key under which an inode is hashed. -/
def State.key (s : State N) (c : ℕ) : Option ℕ × ℕ := ((s.inode c).sb, (s.inode c).ino)

/-- The task holds `icache_lock` and is about to call `wake_up_all`. -/
def Pc.waking : Pc → Bool
  | .readyWake _ | .abortWake _ | .unhashWake .. => true
  | _ => false

/-- The task is in `sched_park`. -/
def Pc.isParked : Pc → Bool
  | .parked _ => true
  | _ => false

/-- What one step can do to the identity of inodes, to busy inodes and to sleepers. -/
structure Effect (s : State N) (t : Fin N) (s' : State N) : Prop where
  task : ∀ u ≠ t, s'.task u = s.task u
  next : s.next ≤ s'.next
  key : ∀ c < s.next, s'.key c = s.key c
  /-- A new member of the table has a new key. -/
  table : ∃ c, ∀ d ∈ s'.table, d ∈ s.table ∨
    d = c ∧ c < s.next ∧ ∀ e ∈ s.table, s.key e ≠ s.key c
  /-- An inode stops to be busy together with a pending `wake_up_all`. -/
  busy : ∀ c, Busy s c → Busy s' c ∨ (s'.task t).pc.waking = true
  waiters : ∀ u ≠ t, u ∈ s.waiters → u ∈ s'.waiters
  asleep : ∀ u ≠ t, s'.asleep u = true → s.asleep u = true
  /-- `wake_up_all` wakes every waiter. -/
  wake : (s.task t).pc.waking = true → ∀ u ≠ t, u ∈ s.waiters → s'.asleep u = false
  /-- A task falls asleep in front of a busy inode. -/
  self : s'.asleep t = true → ∃ l n, (s'.task t).pc = .parked l ∧ t ∈ s'.waiters ∧ Busy s' n ∧
    s'.key n = l.key s'

/-- The task is neither asleep nor about to call `wake_up_all`. -/
structure Plain (s : State N) (t : Fin N) : Prop where
  awake : s.asleep t = false
  quiet : (s.task t).pc.waking = false

/-- A step that leaves waiters and sleepers alone and works on inode `c`. -/
theorem Effect.of_inode (c : ℕ) (h : Plain s t) (hother : ∀ d ≠ c, s'.inode d = s.inode d)
    (hkey : c < s.next → s'.key c = s.key c)
    (htable : ∀ d ∈ s'.table, d ∈ s.table ∨ d = c ∧ c < s.next ∧ ∀ e ∈ s.table, s.key e ≠ s.key c)
    (hkeep : ∀ d ≠ c, d ∈ s.table → d ∈ s'.table)
    (hbusy : Busy s c → Busy s' c ∨ (s'.task t).pc.waking = true)
    (htask : ∀ u ≠ t, s'.task u = s.task u := by exact fun _ hu => update_of_ne hu _ _)
    (hnext : s.next ≤ s'.next := by exact le_rfl) (hwaiters : s'.waiters = s.waiters := by rfl)
    (hasleep : s'.asleep = s.asleep := by rfl) : Effect s t s' where
  task := htask
  next := hnext
  key d hd := by
    rcases eq_or_ne d c with rfl | hne
    · exact hkey hd
    · rw [State.key, State.key, hother d hne]
  table := ⟨c, htable⟩
  busy d hd := by
    rcases eq_or_ne d c with rfl | hne
    · exact hbusy hd
    · refine .inl ⟨hkeep d hne hd.1, ?_⟩
      rw [hother d hne]
      exact hd.2
  waiters _ _ hu := hwaiters ▸ hu
  asleep u _ hu := by rwa [hasleep] at hu
  wake hw := by
    rw [h.quiet] at hw
    cases hw
  self hs := by
    rw [hasleep, h.awake] at hs
    cases hs

/-- A step that leaves inodes, waiters and sleepers alone. -/
theorem Effect.of_same (h : Plain s t)
    (htask : ∀ u ≠ t, s'.task u = s.task u := by exact fun _ hu => update_of_ne hu _ _)
    (hnext : s'.next = s.next := by rfl) (hinode : s'.inode = s.inode := by rfl)
    (htable : s'.table = s.table := by rfl) (hwaiters : s'.waiters = s.waiters := by rfl)
    (hasleep : s'.asleep = s.asleep := by rfl) : Effect s t s' := by
  refine .of_inode 0 h (fun d _ => by rw [hinode]) (fun _ => ?_) (fun d hd => .inl ?_)
    (fun d _ hd => ?_) (fun hb => .inl ?_) htask hnext.ge hwaiters hasleep
  · rw [State.key, State.key, hinode]
  · rwa [← htable]
  · rwa [htable]
  · rwa [Busy, hinode, htable]

theorem setPc_self {pc : Pc} : ((s.setPc t pc).task t).pc = pc := by
  simp [State.setPc]

/-- The count of an inode changes. -/
theorem Effect.of_count (h : Plain s t) (hinode : s'.inode = (s.setCount c n).inode := by rfl)
    (htask : ∀ u ≠ t, s'.task u = s.task u := by exact fun _ hu => update_of_ne hu _ _)
    (htable : s'.table = s.table := by rfl) (hnext : s'.next = s.next := by rfl)
    (hwaiters : s'.waiters = s.waiters := by rfl) (hasleep : s'.asleep = s.asleep := by rfl) :
    Effect s t s' := by
  refine .of_inode c h (fun d hd => ?_) (fun _ => ?_) (fun d hd => .inl (htable ▸ hd))
    (fun d _ hd => htable ▸ hd) (fun hb => .inl ?_) htask hnext.ge hwaiters hasleep
  · rw [hinode]
    exact update_of_ne hd _ _
  · rw [State.key, State.key, hinode]
    simp [State.setCount, State.setInode]
  · rw [Busy, hinode, htable]
    simpa [Busy, State.setCount, State.setInode] using hb

/-- A lookup that has met a busy inode goes to sleep. -/
theorem park_effect (h : Plain s t) (hfind : s.findLocked (l.key s).1 (l.key s).2 = some n)
    (hn : (s.inode n).state ≠ .ready) : Effect s t (s.park t l) := by
  refine ⟨fun u hu => update_of_ne hu _ _, le_rfl, fun _ _ => rfl, ⟨0, fun c hc => .inl hc⟩,
    fun c hc => .inl hc, fun u _ hu => List.mem_append_left _ hu, fun u hu hs => ?_, fun hw => ?_,
    fun _ => ⟨l, n, setPc_self, List.mem_append_right _ (List.mem_singleton_self t),
      ⟨mem_of_findLocked hfind, hn⟩, ?_⟩⟩
  · have hsleep : update s.asleep t true u = true := hs
    rwa [update_of_ne hu] at hsleep
  · rw [h.quiet] at hw
    cases hw
  · have hkey := List.find?_some hfind
    simp only [Bool.and_eq_true, beq_iff_eq] at hkey
    have hk : s.key n = l.key s := Prod.ext hkey.1 hkey.2
    cases l <;> exact hk

section

variable {life : ℕ → Life} {inodes : ℕ → ℕ} {a : Action}

/-- A new member of the table has been allocated, and its key is new. -/
theorem new_key (h : Agrees s life) (hraw : life c = .raw)
    (hfind : s.findLocked (s.inode c).sb (s.inode c).ino = none) :
    c < s.next ∧ ∀ d ∈ s.table, s.key d ≠ s.key c := by
  refine ⟨?_, fun d hd hkey => ?_⟩
  · by_contra hle
    have hunborn := (h.fits c).born.mp (not_lt.mp hle)
    rw [hraw] at hunborn
    cases hunborn
  · have hne := List.find?_eq_none.mp hfind d hd
    obtain ⟨hsb, hino⟩ := Prod.mk.inj hkey
    simp [hsb, hino] at hne

theorem lookup_effect (h : Agrees s life) (hpc : (s.task t).pc = .lookup l) (hplain : Plain s t) :
    Effect s t (lookup s t l) := by
  have hraw : ∀ c, l.tokens = [(.raw, c)] → life c = .raw := fun c hc => h.rawOf hpc hc
  cases l with
  | find sb ino iget =>
    simp only [lookup]
    split
    · exact .of_same hplain
    · next n hfind =>
      split_ifs with hready
      · exact .of_count (c := n) hplain
      · exact park_effect hplain hfind hready
  | insert c =>
    simp only [lookup]
    split
    · next hfind =>
      obtain ⟨hlt, hnew⟩ := new_key h (hraw c rfl) hfind
      refine .of_inode c hplain (fun d hd => update_of_ne hd _ _) (fun _ => ?_) (fun d hd => ?_)
        (fun d _ hd => List.mem_cons_of_mem _ hd) (fun hb => .inl ⟨List.mem_cons_self, ?_⟩)
      · simp [State.key, State.setPc, State.hash, State.setState, State.setInode]
      · rcases List.mem_cons.mp hd with rfl | hd
        · exact .inr ⟨rfl, hlt, hnew⟩
        · exact .inl hd
      · simp [State.setPc, State.hash, State.setState, State.setInode]
    · next n hfind =>
      split_ifs with hready
      · exact .of_count (c := n) hplain
      · exact park_effect hplain hfind hready
  | inserts c =>
    simp only [lookup]
    split
    · next hfind =>
      obtain ⟨hlt, hnew⟩ := new_key h (hraw c rfl) hfind
      refine .of_inode c hplain (fun d _ => rfl) (fun _ => rfl) (fun d hd => ?_)
        (fun d _ hd => List.mem_cons_of_mem _ hd) (fun hb => .inl ⟨List.mem_cons_self, hb.2⟩)
      rcases List.mem_cons.mp hd with rfl | hd
      · exact .inr ⟨rfl, hlt, hnew⟩
      · exact .inl hd
    · next n hfind =>
      split_ifs with hfreeing
      · exact .of_same hplain
      · refine park_effect hplain hfind ?_
        rw [not_not.mp hfreeing]
        simp

theorem dropRef_effect {k : Option ℕ} (h : Plain s t) : Effect s t (dropRef s t c k) := by
  simp only [dropRef]
  split_ifs with hzero hmem
  · exact .of_count h
  · refine .of_inode c h (fun d hd => ?_) (fun _ => ?_) (fun d hd => .inl hd) (fun d _ hd => hd)
      (fun hb => .inl ⟨hmem, ?_⟩)
    · simp [State.setPc, State.setState, State.setCount, State.setInode, hd]
    · simp [State.key, State.setPc, State.setState, State.setCount, State.setInode]
    · simp [State.setPc, State.setState, State.setCount, State.setInode]
  · exact .of_count h

/-- `i_alloc` of a name that is not in use. -/
theorem alloc_effect {sb : Option ℕ} {ino : ℕ} (h : Agrees s life) (hplain : Plain s t)
    (hinode : s'.inode = (s.iAlloc sb ino).inode := by rfl)
    (htask : ∀ u ≠ t, s'.task u = s.task u := by exact fun _ hu => update_of_ne hu _ _)
    (htable : s'.table = s.table := by rfl) (hnext : s'.next = s.next + 1 := by rfl)
    (hwaiters : s'.waiters = s.waiters := by rfl) (hasleep : s'.asleep = s.asleep := by rfl) :
    Effect s t s' := by
  have hunborn : life s.next = .unborn := (h.fits s.next).born.mp le_rfl
  refine .of_inode s.next hplain (fun d hd => ?_) (fun hlt => absurd hlt (lt_irrefl _))
    (fun d hd => .inl (htable ▸ hd)) (fun d _ hd => htable ▸ hd) (fun hb => ?_) htask
    (hnext ▸ Nat.le_succ _) hwaiters hasleep
  · rw [hinode]
    exact update_of_ne hd _ _
  · have hmem := (h.fits s.next).hashed.mp hb.1
    rw [hunborn] at hmem
    cases hmem

theorem start_effect (h : Agrees s life) (hplain : Plain s t)
    (hstep : start inodes s t a = some s') : Effect s t s' := by
  cases a with
  | find sb ino | allocInode sb ino =>
    cases hstep
    exact .of_same hplain
  | iget sb ino =>
    simp only [start] at hstep
    split_ifs at hstep
    · cases hstep
      exact .of_same hplain fun u _ => rfl
    · cases hstep
      exact .of_same hplain
  | anonymous =>
    cases hstep
    exact alloc_effect h hplain
  | hold c =>
    simp only [start] at hstep
    split_ifs at hstep with hheld
    cases hstep
    exact .of_count (c := c) hplain
  | put c =>
    simp only [start] at hstep
    split_ifs at hstep with hheld
    cases hstep
    exact .of_same hplain
  | result ok | run => cases hstep

/-- `wake_up_all` at the end of a section. -/
theorem wake_effect (hawake : s.asleep t = false)
    (htask : ∀ u ≠ t, s'.task u = s.task u := by exact fun _ hu => update_of_ne hu _ _)
    (hinode : s'.inode = s.inode := by rfl) (htable : s'.table = s.table := by rfl)
    (hnext : s'.next = s.next := by rfl) (hwaiters : s'.waiters = s.waiters := by rfl)
    (hasleep : s'.asleep = s.wakeAll.asleep := by rfl) : Effect s t s' := by
  have hwoken : ∀ u, s'.asleep u = if u ∈ s.waiters then false else s.asleep u := fun u => by
    rw [hasleep]
    rfl
  refine ⟨htask, hnext.ge, fun c _ => ?_, ⟨0, fun c hc => .inl (htable ▸ hc)⟩, fun c hc => .inl ?_,
    fun u _ hu => hwaiters ▸ hu, fun u _ hu => ?_, fun _ u _ hu => ?_, fun hs => ?_⟩
  · rw [State.key, State.key, hinode]
  · rwa [Busy, hinode, htable]
  · rw [hwoken] at hu
    split_ifs at hu
    exact hu
  · rw [hwoken, if_pos hu]
  · rw [hwoken, hawake, ite_self] at hs
    cases hs

/-- Every step has such an effect. -/
theorem step_effect (h : Agrees s life)
    (hasleep : s.asleep t = true → ∃ l, (s.task t).pc = .parked l)
    (hstep : step inodes s (t, a) = some s') : Effect s t s' := by
  have hawake : ∀ {pc : Pc}, (s.task t).pc = pc → pc.isParked = false → s.asleep t = false := by
    intro pc hpc hnot
    refine Bool.eq_false_iff.mpr fun hs => ?_
    obtain ⟨l, hl⟩ := hasleep hs
    rw [← hpc, hl] at hnot
    cases hnot
  have hplain : ∀ {pc : Pc}, (s.task t).pc = pc → pc.isParked = false → pc.waking = false →
      Plain s t :=
    fun hpc hnot hquiet => ⟨hawake hpc hnot, hpc ▸ hquiet⟩
  unfold step at hstep
  dsimp only at hstep
  split at hstep
  next hpc => exact start_effect h (hplain hpc rfl rfl) hstep
  next l hpc =>
    split_ifs at hstep
    cases hstep
    exact lookup_effect h hpc (hplain hpc rfl rfl)
  next l hpc =>
    split_ifs at hstep with hs
    cases hstep
    exact .of_same ⟨Bool.eq_false_iff.mpr hs, by rw [hpc]; rfl⟩
  next l hpc =>
    cases hstep
    refine ⟨fun u hu => update_of_ne hu _ _, le_rfl, fun _ _ => rfl, ⟨0, fun c hc => .inl hc⟩,
      fun c hc => .inl hc, fun u hu hmem => (List.mem_erase_of_ne hu).mpr hmem, fun u hu hs => ?_,
      fun hw => ?_, fun hs => ?_⟩
    · have hsleep : update s.asleep t false u = true := hs
      rwa [update_of_ne hu] at hsleep
    · rw [hpc] at hw
      cases hw
    · have hsleep : update s.asleep t false t = true := hs
      rw [update_self] at hsleep
      cases hsleep
  next sb ino ok hpc =>
    split_ifs at hstep
    · cases hstep
      exact alloc_effect h (hplain hpc rfl rfl)
    · cases hstep
      exact .of_same (hplain hpc rfl rfl)
  next c own hpc =>
    split_ifs at hstep
    · cases hstep
      exact .of_same (hplain hpc rfl rfl)
    · cases hstep
      exact .of_same (hplain hpc rfl rfl)
  next c ok hpc =>
    cases hstep
    exact .of_same (hplain hpc rfl rfl)
  next c hpc =>
    split_ifs at hstep
    cases hstep
    refine .of_inode c (hplain hpc rfl rfl) (fun d hd => update_of_ne hd _ _) (fun _ => ?_)
      (fun d hd => .inl hd) (fun d _ hd => hd) (fun _ => .inr (by rw [setPc_self]; rfl))
    simp [State.key, State.setPc, State.setState, State.setInode]
  next c hpc =>
    cases hstep
    exact wake_effect (hawake hpc rfl)
  next c hpc =>
    split_ifs at hstep
    cases hstep
    refine .of_inode c (hplain hpc rfl rfl) (fun d hd => update_of_ne hd _ _) (fun _ => ?_)
      (fun d hd => .inl (List.mem_of_mem_erase hd))
      (fun d hd hmem => (List.mem_erase_of_ne hd).mpr hmem)
      (fun _ => .inr (by rw [setPc_self]; rfl))
    simp [State.key, State.setPc, State.unhash, State.setState, State.setInode]
  next c hpc =>
    cases hstep
    exact wake_effect (hawake hpc rfl)
  next sb ino ok hpc =>
    split_ifs at hstep
    · cases hstep
      exact alloc_effect h (hplain hpc rfl rfl)
    · cases hstep
      exact .of_same (hplain hpc rfl rfl)
  next c ok hpc =>
    cases hstep
    exact .of_same (hplain hpc rfl rfl)
  next c k hpc =>
    split_ifs at hstep
    cases hstep
    exact dropRef_effect (hplain hpc rfl rfl)
  next c k hpc =>
    cases hstep
    exact .of_same (hplain hpc rfl rfl)
  next c k hpc =>
    split_ifs at hstep
    cases hstep
    exact .of_inode c (hplain hpc rfl rfl) (fun d _ => rfl) (fun _ => rfl)
      (fun d hd => .inl (List.mem_of_mem_erase hd))
      (fun d hd hmem => (List.mem_erase_of_ne hd).mpr hmem)
      (fun _ => .inr (by rw [setPc_self]; rfl))
  next c k hpc =>
    cases hstep
    exact wake_effect (hawake hpc rfl)
  next c k hpc =>
    cases hstep
    exact .of_same (hplain hpc rfl rfl)
  next => cases hstep

end

/-! ### The invariant -/

/-- One inode for each key; whoever sleeps is among the waiters, and has a busy inode to wait
for or a `wake_up_all` to come. -/
structure Waits (s : State N) : Prop where
  key : ∀ c ∈ s.table, ∀ d ∈ s.table, s.key c = s.key d → c = d
  asleep : ∀ t, s.asleep t = true → (∃ l, (s.task t).pc = .parked l) ∧ t ∈ s.waiters
  wait : ∀ t l, (s.task t).pc = .parked l → s.asleep t = true →
    (∃ n, Busy s n ∧ s.key n = l.key s) ∨ ∃ u, (s.task u).pc.waking = true

theorem waits_boot : Waits (boot N) where
  key c hc := by cases hc
  asleep t ht := by cases ht
  wait t l hpc := by cases hpc

variable {life : ℕ → Life}

theorem Agrees.lt_next (h : Agrees s life) (hc : life c ≠ .unborn) : c < s.next := by
  by_contra hle
  exact hc ((h.fits c).born.mp (not_lt.mp hle))

theorem Agrees.lt_next_of_mem (h : Agrees s life) (hc : c ∈ s.table) : c < s.next := by
  refine h.lt_next fun hunborn => ?_
  have hhashed := (h.fits c).hashed.mp hc
  rw [hunborn] at hhashed
  cases hhashed

/-- What a sleeping lookup looks for does not change. -/
theorem Effect.loop_key (heffect : Effect s t s') (h : Agrees s life)
    (hpc : (s.task u).pc = .parked l) : l.key s' = l.key s := by
  have hraw : ∀ c, l.tokens = [(.raw, c)] → s'.key c = s.key c := by
    intro c hc
    refine heffect.key c (h.lt_next ?_)
    rw [h.rawOf hpc hc]
    simp
  cases l with
  | find sb ino iget => rfl
  | insert c | inserts c => exact hraw c rfl

theorem Waits.step (h : Waits s) (hagrees : Agrees s life) (heffect : Effect s t s') :
    Waits s' := by
  refine ⟨?_, fun u hu => ?_, fun u l hpc hu => ?_⟩
  · obtain ⟨n, hn⟩ := heffect.table
    have hsame : ∀ c ∈ s.table, s'.key c = s.key c := fun c hc =>
      heffect.key c (hagrees.lt_next_of_mem hc)
    intro c hc d hd hkey
    rcases hn c hc with hc | ⟨rfl, hlt, hnew⟩ <;> rcases hn d hd with hd | ⟨hdn, hlt', hnew'⟩
    · rw [hsame c hc, hsame d hd] at hkey
      exact h.key c hc d hd hkey
    · obtain rfl := hdn
      rw [hsame c hc, heffect.key d hlt'] at hkey
      exact absurd hkey (hnew' c hc)
    · rw [heffect.key c hlt, hsame d hd] at hkey
      exact absurd hkey.symm (hnew d hd)
    · exact hdn.symm
  · rcases eq_or_ne u t with rfl | hne
    · obtain ⟨l, n, hpc, hmem, -⟩ := heffect.self hu
      exact ⟨⟨l, hpc⟩, hmem⟩
    · obtain ⟨hpc, hmem⟩ := h.asleep u (heffect.asleep u hne hu)
      rw [heffect.task u hne]
      exact ⟨hpc, heffect.waiters u hne hmem⟩
  · rcases eq_or_ne u t with rfl | hne
    · obtain ⟨l', n, hpc', -, hbusy, hkey⟩ := heffect.self hu
      obtain rfl : l = l' := by
        rw [hpc] at hpc'
        exact Pc.parked.inj hpc'
      exact .inl ⟨n, hbusy, hkey⟩
    · -- the inode is busy as before, or its end comes with a pending waker
      rw [heffect.task u hne] at hpc
      have hold := heffect.asleep u hne hu
      rcases h.wait u l hpc hold with ⟨n, hbusy, hkey⟩ | ⟨v, hv⟩
      · rcases heffect.busy n hbusy with hbusy' | hwaking
        · refine .inl ⟨n, hbusy', ?_⟩
          rw [heffect.key n (hagrees.lt_next_of_mem hbusy.1), hkey, heffect.loop_key hagrees hpc]
        · exact .inr ⟨t, hwaking⟩
      · rcases eq_or_ne v t with rfl | hvt
        · rw [heffect.wake hv u hne (h.asleep u hold).2] at hu
          cases hu
        · exact .inr ⟨v, by rw [heffect.task v hvt]; exact hv⟩

end Nuvix.Icache
