import Nuvix.Lib.SumUpdate
import Nuvix.Mm.MappingMove

/-!
# The invariant of the page cache

What a task has to do with one page is its *role*: how many references it has,
whether it is inside the mutex of the page, whether it is reading, writing,
inserting or purging it. The invariant speaks about one page at a time, in terms
of the page, its place in the lists and the roles of all tasks, so that a step has
to be checked only on the page it works on.
-/

namespace Nuvix.Mapping

open Function

variable {N c : ℕ} {pg : CachePage N} {o : Option (Fin N)}

/-! ### Roles -/

/-- What a task has to do with a page. -/
@[ext] structure Role where
  refs : ℕ
  locked : Bool
  reading : Bool
  fresh : Bool
  writing : Bool
  purging : Bool
  locked_refs : locked = true → 0 < refs
  reading_locked : reading = true → locked = true
  fresh_locked : fresh = true → locked = true
  writing_locked : writing = true → locked = true
  purging_refs : purging = true → 0 < refs

/-- A flag that is not set has no consequences to check. -/
theorem of_false {b : Bool} {p : Prop} (h : b = false) (hb : b = true) : p :=
  absurd (h.symm.trans hb) Bool.false_ne_true

/-- Outside the mutex of a page a task neither reads nor writes nor inserts it. -/
theorem Role.quiet {r : Role} (h : r.locked = false) :
    r.reading = false ∧ r.fresh = false ∧ r.writing = false := by
  refine ⟨Bool.eq_false_iff.mpr fun hr => ?_, Bool.eq_false_iff.mpr fun hf => ?_,
    Bool.eq_false_iff.mpr fun hw => ?_⟩
  · exact of_false h (r.reading_locked hr)
  · exact of_false h (r.fresh_locked hf)
  · exact of_false h (r.writing_locked hw)

/-- The references a continuation keeps besides the page at hand. -/
def Cont.refs : Cont → ℕ → ℕ
  | .client, _ => 0
  | .flush _ _ rest, x => rest.count x
  | .flusher _ rest, x => rest.count x
  | .purge .., _ => 0

/-- One for the page at hand. -/
def at_ (c x : ℕ) : ℕ := if c = x then 1 else 0

@[simp] theorem at_self (c : ℕ) : at_ c c = 1 := if_pos rfl

theorem at_of_ne {x : ℕ} (h : x ≠ c) : at_ c x = 0 := if_neg h.symm

/-- A reference that passes from the client to the operation. -/
theorem count_erase_add_at {held : List ℕ} (h : c ∈ held) (x : ℕ) :
    (held.erase c).count x + at_ c x = held.count x := by
  rcases eq_or_ne x c with rfl | hx
  · have := List.count_pos_iff.mpr h
    rw [List.count_erase_self, at_self]
    omega
  · rw [List.count_erase_of_ne hx, at_of_ne hx, Nat.add_zero]

/-- The references of a task inside an operation. -/
def Pc.refs : Pc → ℕ → ℕ
  | .getInsert c, x | .getRead c, x | .getFail c, x | .getUnlock c, x | .readyLock c, x
  | .readyUnlock c, x | .purgeLock c .., x | .purgeRemove c .., x | .purgeUnlock c .., x => at_ c x
  | .put c k, x | .wbLock c k, x | .wbTest c k, x | .wbUnlock c _ k, x => at_ c x + k.refs x
  | .wbWrite c k, x | .wbDone c _ k, x => at_ c x + (at_ c x + k.refs x)
  | .flushSample _ pages, x | .flushNext _ _ pages, x | .flusherNext pages, x => pages.count x
  | .flusherUnlock c _ rest, x => at_ c x + rest.count x
  | _, _ => 0

/-- The page whose mutex an operation holds. -/
def Pc.locked : Pc → Option ℕ
  | .getInsert c | .getRead c | .getFail c | .getUnlock c | .readyUnlock c | .wbTest c _
  | .wbWrite c _ | .wbDone c .. | .wbUnlock c .. | .purgeRemove c .. | .purgeUnlock c .. => some c
  | _ => none

/-- The page an operation is reading, or has failed to read. -/
def Pc.reading : Pc → Option ℕ
  | .getRead c | .getFail c => some c
  | _ => none

/-- The page an operation has allocated and not yet inserted. -/
def Pc.fresh : Pc → Option ℕ
  | .getInsert c => some c
  | _ => none

/-- The page an operation is writing. -/
def Pc.writing : Pc → Option ℕ
  | .wbWrite c _ | .wbDone c .. => some c
  | _ => none

/-- The page a purge has selected and not yet removed. -/
def Pc.purging : Pc → Option ℕ
  | .purgeLock c .. | .purgeRemove c .. => some c
  | _ => none

/-- What a task has to do with the page `x`. -/
def Thread.role (th : Thread) (x : ℕ) : Role where
  refs := th.held.count x + th.pc.refs x
  locked := th.pc.locked == some x
  reading := th.pc.reading == some x
  fresh := th.pc.fresh == some x
  writing := th.pc.writing == some x
  purging := th.pc.purging == some x
  locked_refs := by
    cases th.pc <;> simp +contextual [Pc.refs, Pc.locked]
  reading_locked := by
    cases th.pc <;> simp +contextual [Pc.reading, Pc.locked]
  fresh_locked := by
    cases th.pc <;> simp +contextual [Pc.fresh, Pc.locked]
  writing_locked := by
    cases th.pc <;> simp +contextual [Pc.writing, Pc.locked]
  purging_refs := by
    cases th.pc <;> simp +contextual [Pc.purging, Pc.refs]

section

variable (th : Thread) (x : ℕ)

@[simp] theorem Thread.role_refs : (th.role x).refs = th.held.count x + th.pc.refs x := rfl

@[simp] theorem Thread.role_locked : (th.role x).locked = (th.pc.locked == some x) := rfl

@[simp] theorem Thread.role_reading : (th.role x).reading = (th.pc.reading == some x) := rfl

@[simp] theorem Thread.role_fresh : (th.role x).fresh = (th.pc.fresh == some x) := rfl

@[simp] theorem Thread.role_writing : (th.role x).writing = (th.pc.writing == some x) := rfl

@[simp] theorem Thread.role_purging : (th.role x).purging = (th.pc.purging == some x) := rfl

end

/-! ### The invariant of one page -/

/-- The invariant of a page with the roles of all tasks. -/
structure PageInv (pg : CachePage N) (hashed lru dirty unborn : Prop) [Decidable hashed]
    (role : Fin N → Role) : Prop where
  unborn : unborn → ¬ hashed ∧ pg.refs = 0
  count : pg.refs = (if hashed then 1 else 0) + ∑ t, (role t).refs
  busy : pg.state ≠ .clean → hashed
  dirty : dirty ↔ pg.state ≠ .clean
  lru : lru → hashed ∧ pg.state = .clean ∧
    ∀ t, (role t).refs = if (role t).purging then 1 else 0
  locked : ∀ t, (role t).locked = true → pg.holder = some t
  reading : ∀ t, (role t).reading = true → hashed ∧ pg.state = .clean
  fresh : ∀ t, (role t).fresh = true → ¬ hashed ∧ pg.refs = 1 ∧ pg.state = .clean
  writing : pg.state.writeback = true → ∃ t, (role t).writing = true

section

variable {pg pg' : CachePage N} {hashed lru dirty unborn hashed' lru' dirty' unborn' : Prop}
  [Decidable hashed] [Decidable hashed'] {role : Fin N → Role} {t : Fin N} {r : Role}

theorem refs_le_sum (role : Fin N → Role) (u : Fin N) : (role u).refs ≤ ∑ t, (role t).refs :=
  Finset.single_le_sum (f := fun t => (role t).refs) (fun _ _ => Nat.zero_le _) (Finset.mem_univ u)

section

variable (h : PageInv pg hashed lru dirty unborn role)
include h

/-- No other task has just created a page that `t` can reach. -/
theorem PageInv.not_fresh_of_reach {u : Fin N} (hu : u ≠ t) (hreach : hashed ∨ 0 < (role t).refs) :
    (role u).fresh = false := by
  by_contra hfresh
  rw [Bool.not_eq_false] at hfresh
  obtain ⟨hh, hone, -⟩ := h.fresh u hfresh
  have hpos := (role u).locked_refs ((role u).fresh_locked hfresh)
  rcases hreach with hin | hrefs
  · exact hh hin
  · -- two tasks would hold the only reference
    have hcount := h.count
    rw [if_neg hh, hone] at hcount
    have hpair : (role t).refs + (role u).refs ≤ ∑ w, (role w).refs := by
      rw [← Finset.add_sum_erase Finset.univ (fun w => (role w).refs) (Finset.mem_univ t)]
      refine Nat.add_le_add_left ?_ _
      exact Finset.single_le_sum (f := fun w => (role w).refs) (fun _ _ => Nat.zero_le _)
        (Finset.mem_erase.mpr ⟨hu, Finset.mem_univ u⟩)
    omega

/-- How one task may change one page. The last hypotheses say that the page is
hashed and clean for others only as long as they can rely on it. -/
theorem PageInv.step (hborn : ¬ unborn') (hreach : hashed ∨ 0 < (role t).refs)
    (hcount : pg'.refs + (if hashed then 1 else 0) + (role t).refs =
      pg.refs + (if hashed' then 1 else 0) + r.refs)
    (hbusy : pg'.state ≠ .clean → hashed') (hdirty : dirty' ↔ pg'.state ≠ .clean)
    (hlru : lru' → hashed' ∧ pg'.state = .clean ∧
      (pg'.refs = 1 ∨ lru ∧ r.refs = if r.purging then 1 else 0))
    (hlocked : r.locked = true → pg'.holder = some t)
    (hholder : ∀ u ≠ t, pg.holder = some u → pg'.holder = some u)
    (hquiet : pg.holder = some t ∨ (hashed → hashed') ∧ (pg.state = .clean → pg'.state = .clean))
    (hreading : r.reading = true → hashed' ∧ pg'.state = .clean)
    (hfresh : r.fresh = true → ¬ hashed' ∧ pg'.refs = 1 ∧ pg'.state = .clean)
    (hwriting : pg'.state.writeback = true →
      r.writing = true ∨ pg.state.writeback = true ∧ (role t).writing = false) :
    PageInv pg' hashed' lru' dirty' unborn' (update role t r) := by
  have hsum := SumUpdate.sum_update_add Role.refs role t r
  have hold := h.count
  refine ⟨fun hu => absurd hu hborn, by omega, hbusy, hdirty, ?_, ?_, ?_, ?_, ?_⟩
  · intro hl
    obtain ⟨hh, hc, hone | ⟨hl, hr⟩⟩ := hlru hl
    · refine ⟨hh, hc, fun u => ?_⟩
      -- the only reference is that of the table
      have hzero : (update role t r u).refs = 0 := by
        have := refs_le_sum (update role t r) u
        rw [if_pos hh] at hcount
        omega
      have hpurge : (update role t r u).purging = false := by
        by_contra hp
        have := (update role t r u).purging_refs (by simpa using hp)
        omega
      rw [hzero, hpurge]
      rfl
    · refine ⟨hh, hc, ?_⟩
      exact (forall_update_iff role fun _ r => r.refs = if r.purging then 1 else 0).mpr
        ⟨hr, fun u _ => (h.lru hl).2.2 u⟩
  · exact (forall_update_iff role fun u r => r.locked = true → pg'.holder = some u).mpr
      ⟨hlocked, fun u hne hu => hholder u hne (h.locked u hu)⟩
  · refine (forall_update_iff role fun _ r => r.reading = true → _).mpr
      ⟨hreading, fun u hne hu => ?_⟩
    obtain ⟨hh, hc⟩ := h.reading u hu
    rcases hquiet with hmine | ⟨hkeep, hclean⟩
    · have hlock := hmine.symm.trans (h.locked u ((role u).reading_locked hu))
      exact absurd (Option.some.inj hlock).symm hne
    · exact ⟨hkeep hh, hclean hc⟩
  · exact (forall_update_iff role fun _ r => r.fresh = true → _).mpr
      ⟨hfresh, fun u hne => of_false (h.not_fresh_of_reach hne hreach)⟩
  · intro hw
    rcases hwriting hw with hr | ⟨hw, ht⟩
    · exact ⟨t, by rwa [update_self]⟩
    · obtain ⟨u, hu⟩ := h.writing hw
      have hne : u ≠ t := fun heq => of_false ht (heq ▸ hu)
      exact ⟨u, by rwa [update_of_ne hne]⟩

/-- The invariant depends on the page and on its place in the lists only. -/
theorem PageInv.congr (hpg : pg' = pg) (hhashed : hashed' ↔ hashed) (hlru : lru' ↔ lru)
    (hdirty : dirty' ↔ dirty) (hunborn : unborn' → unborn) :
    PageInv pg' hashed' lru' dirty' unborn' role := by
  obtain rfl := hpg
  have hite : (if hashed' then 1 else 0 : ℕ) = if hashed then 1 else 0 := by
    simp only [hhashed]
  exact ⟨fun hu => by rw [hhashed]; exact h.unborn (hunborn hu), by rw [hite]; exact h.count,
    by rw [hhashed]; exact h.busy, hdirty.trans h.dirty, by rw [hlru, hhashed]; exact h.lru,
    h.locked, by rw [hhashed]; exact h.reading, by rw [hhashed]; exact h.fresh, h.writing⟩

/-- A page that a step of `t` does not touch. -/
theorem PageInv.frame (hpg : pg' = pg) (hhashed : hashed' ↔ hashed) (hlru : lru' ↔ lru)
    (hdirty : dirty' ↔ dirty) (hunborn : unborn' → unborn) (hrole : r = role t) :
    PageInv pg' hashed' lru' dirty' unborn' (update role t r) := by
  rw [hrole, update_eq_self]
  exact h.congr hpg hhashed hlru hdirty hunborn

end

end

/-! ### The invariant of a state -/

/-- The invariant of the cache for given tasks. -/
structure CacheInv (k : Cache N) (task : Fin N → Thread) : Prop where
  table_nodup : k.table.Nodup
  lru_nodup : k.lru.Nodup
  dirty_nodup : k.dirty.Nodup
  page : ∀ c, PageInv (k.page c) (c ∈ k.table) (c ∈ k.lru) (c ∈ k.dirty) (k.next ≤ c)
    fun t => (task t).role c

/-- The invariant of a state. -/
def Inv (s : State N) : Prop := CacheInv s.cache s.task

theorem role_update (task : Fin N → Thread) (t : Fin N) (th : Thread) (c : ℕ) :
    (fun u => (update task t th u).role c) = update (fun u => (task u).role c) t (th.role c) := by
  funext u
  rcases eq_or_ne u t with rfl | hne
  · simp
  · simp [hne]

/-- A page that is hashed or referenced has been created. -/
theorem PageInv.born {hashed lru dirty unborn : Prop} [Decidable hashed]
    {role : Fin N → Role} {t : Fin N} (h : PageInv pg hashed lru dirty unborn role)
    (hreach : hashed ∨ 0 < (role t).refs) : ¬ unborn := by
  intro hu
  obtain ⟨hh, hzero⟩ := h.unborn hu
  rcases hreach with hin | hpos
  · exact hh hin
  · have := h.count
    have := refs_le_sum role t
    omega

namespace Cache

variable (k : Cache N) (c x : ℕ)

@[simp] theorem setPage_page (pg : CachePage N) : (k.setPage c pg).page = update k.page c pg := rfl

@[simp] theorem link_page : (k.link c).page = k.page := by
  unfold link
  split_ifs <;> rfl

@[simp] theorem link_table : (k.link c).table = k.table := by
  unfold link
  split_ifs <;> rfl

@[simp] theorem link_next : (k.link c).next = k.next := by
  unfold link
  split_ifs <;> rfl

@[simp] theorem link_mError : (k.link c).mError = k.mError := by
  unfold link
  split_ifs <;> rfl

variable {k c x}

theorem link_lru_of_ne (hx : x ≠ c) : x ∈ (k.link c).lru ↔ x ∈ k.lru := by
  unfold link
  split_ifs <;> simp [List.mem_erase_of_ne hx, hx]

theorem link_dirty_of_ne (hx : x ≠ c) : x ∈ (k.link c).dirty ↔ x ∈ k.dirty := by
  unfold link
  split_ifs <;> simp [List.mem_erase_of_ne hx, hx]

theorem mem_link_lru (hnd : k.lru.Nodup) :
    c ∈ (k.link c).lru ↔ c ∈ k.table ∧ (k.page c).state = .clean ∧ (k.page c).refs = 1 := by
  unfold link
  split_ifs with htable hstate hrefs
  · simp [hnd.mem_erase_iff, hstate]
  · simpa [hnd.mem_erase_iff, htable, hrefs] using hstate
  · simp [hnd.mem_erase_iff, hrefs]
  · simp [hnd.mem_erase_iff, htable]

theorem mem_link_dirty (hnd : k.dirty.Nodup) :
    c ∈ (k.link c).dirty ↔ c ∈ k.table ∧ (k.page c).state ≠ .clean := by
  unfold link
  split_ifs with htable hstate hrefs
  · simp [htable, hstate]
  · simpa [hnd.mem_erase_iff, htable] using hstate
  · simpa [hnd.mem_erase_iff, htable] using hstate
  · simp [hnd.mem_erase_iff, htable]

theorem nodup_erase_append {l : List ℕ} (hnd : l.Nodup) : (l.erase c ++ [c]).Nodup := by
  rw [List.nodup_append]
  refine ⟨hnd.erase c, List.nodup_singleton c, ?_⟩
  rintro x hx y hy rfl
  rw [List.mem_singleton.mp hy] at hx
  exact hnd.not_mem_erase hx

theorem link_lru_nodup (hnd : k.lru.Nodup) : (k.link c).lru.Nodup := by
  unfold link
  split_ifs
  · exact hnd.erase c
  · exact nodup_erase_append hnd
  · exact hnd.erase c
  · exact hnd.erase c

theorem link_dirty_nodup (hnd : k.dirty.Nodup) : (k.link c).dirty.Nodup := by
  unfold link
  split_ifs
  · exact nodup_erase_append hnd
  · exact hnd.erase c
  · exact hnd.erase c
  · exact hnd.erase c

end Cache

namespace CacheInv

variable {k k' : Cache N} {task : Fin N → Thread} {t : Fin N} {th : Thread} {c : ℕ}

section

variable (h : CacheInv k task)
include h

/-- A step of `t` on the page `c` alone. -/
theorem onPage (htable : k'.table.Nodup) (hlru : k'.lru.Nodup)
    (hdirty : k'.dirty.Nodup) (hnext : k.next ≤ k'.next)
    (hother : ∀ x ≠ c, k'.page x = k.page x ∧ (x ∈ k'.table ↔ x ∈ k.table) ∧
      (x ∈ k'.lru ↔ x ∈ k.lru) ∧ (x ∈ k'.dirty ↔ x ∈ k.dirty))
    (hrole : ∀ x ≠ c, th.role x = (task t).role x)
    (hc : PageInv (k'.page c) (c ∈ k'.table) (c ∈ k'.lru) (c ∈ k'.dirty) (k'.next ≤ c)
      (update (fun u => (task u).role c) t (th.role c))) : CacheInv k' (update task t th) := by
  refine ⟨htable, hlru, hdirty, fun x => ?_⟩
  rw [role_update]
  rcases eq_or_ne x c with rfl | hx
  · exact hc
  · obtain ⟨hpage, ht, hl, hd⟩ := hother x hx
    exact (h.page x).frame hpage ht hl hd (fun hle => hnext.trans hle) (hrole x hx)

omit h in
/-- A page with no reference left, not even that of the table. -/
theorem pageInv_dead {unborn : Prop} {role : Fin N → Role}
    (hrefs : pg.refs = 0) (hstate : pg.state = .clean) (hrole : ∀ u, (role u).refs = 0) :
    PageInv pg False False False unborn role where
  unborn _ := ⟨id, hrefs⟩
  count := by
    rw [if_neg id, Finset.sum_eq_zero fun u _ => hrole u]
    exact hrefs
  busy hs := absurd hstate hs
  dirty := ⟨False.elim, fun hs => hs hstate⟩
  lru hl := hl.elim
  locked u hu := absurd ((role u).locked_refs hu) (by rw [hrole u]; exact lt_irrefl 0)
  reading u hu := absurd ((role u).locked_refs ((role u).reading_locked hu))
    (by rw [hrole u]; exact lt_irrefl 0)
  fresh u hu := absurd ((role u).locked_refs ((role u).fresh_locked hu))
    (by rw [hrole u]; exact lt_irrefl 0)
  writing hw := by
    rw [hstate] at hw
    cases hw

section

variable (hrole : ∀ x ≠ c, th.role x = (task t).role x)
include hrole

/-- A write to one page under its conditions, without a change of the lists. -/
theorem setPage (hc : PageInv pg (c ∈ k.table) (c ∈ k.lru) (c ∈ k.dirty) (k.next ≤ c)
      (update (fun u => (task u).role c) t (th.role c))) :
    CacheInv (k.setPage c pg) (update task t th) := by
  refine h.onPage h.table_nodup h.lru_nodup h.dirty_nodup le_rfl (fun x hx => ?_) hrole ?_
  · exact ⟨update_of_ne hx _ _, .rfl, .rfl, .rfl⟩
  · rwa [Cache.setPage_page, update_self]

/-- A write to one page followed by `mapping_link`. Whatever list the page belongs
to afterwards, the invariant of the lists holds for it. -/
theorem relink (hreach : c ∈ k.table ∨ 0 < ((task t).role c).refs)
    (hcount : pg.refs + ((task t).role c).refs = (k.page c).refs + (th.role c).refs)
    (hbusy : pg.state ≠ .clean → c ∈ k.table)
    (hlocked : (th.role c).locked = true → pg.holder = some t)
    (hholder : ∀ u ≠ t, (k.page c).holder = some u → pg.holder = some u)
    (hquiet : (k.page c).holder = some t ∨ ((k.page c).state = .clean → pg.state = .clean))
    (hreading : (th.role c).reading = false) (hfresh : (th.role c).fresh = false)
    (hwriting : pg.state.writeback = true → (th.role c).writing = true ∨
      (k.page c).state.writeback = true ∧ ((task t).role c).writing = false) :
    CacheInv ((k.setPage c pg).link c) (update task t th) := by
  have hpage := h.page c
  have hborn := hpage.born hreach
  refine h.onPage ?_ (Cache.link_lru_nodup h.lru_nodup) (Cache.link_dirty_nodup h.dirty_nodup) ?_
    (fun x hx => ?_) hrole ?_
  · rw [Cache.link_table]
    exact h.table_nodup
  · rw [Cache.link_next]
    exact le_rfl
  · rw [Cache.link_page, Cache.link_table, Cache.link_lru_of_ne hx, Cache.link_dirty_of_ne hx]
    exact ⟨update_of_ne hx _ _, .rfl, .rfl, .rfl⟩
  · have hnew : ((k.setPage c pg).link c).page c = pg := by
      rw [Cache.link_page, Cache.setPage_page, update_self]
    have hmemLru := Cache.mem_link_lru (k := k.setPage c pg) (c := c) h.lru_nodup
    have hmemDirty := Cache.mem_link_dirty (k := k.setPage c pg) (c := c) h.dirty_nodup
    rw [Cache.setPage_page, update_self] at hmemLru hmemDirty
    rw [hnew, Cache.link_next]
    simp only [Cache.link_table]
    refine hpage.step hborn hreach ?_ hbusy ?_ ?_ hlocked hholder ?_ (of_false hreading)
      (of_false hfresh) hwriting
    · change pg.refs + (if c ∈ k.table then 1 else 0) + _ =
        _ + (if c ∈ k.table then 1 else 0) + _
      omega
    · rw [hmemDirty]
      exact ⟨fun hd => hd.2, fun hd => ⟨hbusy hd, hd⟩⟩
    · intro hl
      obtain ⟨ht, hs, hr⟩ := hmemLru.mp hl
      exact ⟨ht, hs, .inl hr⟩
    · exact hquiet.imp id fun hq => ⟨id, hq⟩

/-- The mutex of a page is taken or released. -/
theorem setHolder (hpos : 0 < ((task t).role c).refs)
    (hrefs : (th.role c).refs = ((task t).role c).refs)
    (hpurging : (th.role c).purging = ((task t).role c).purging)
    (hreading : (th.role c).reading = false) (hfresh : (th.role c).fresh = false)
    (hwriting : (th.role c).writing = ((task t).role c).writing)
    (hlocked : (th.role c).locked = true → o = some t)
    (hholder : ∀ u ≠ t, (k.page c).holder = some u → o = some u) :
    CacheInv (k.setHolder c o) (update task t th) := by
  have hpage := h.page c
  refine h.setPage hrole ?_
  refine hpage.step (hpage.born (.inr hpos)) (.inr hpos) ?_ hpage.busy hpage.dirty ?_
    hlocked hholder
    (.inr ⟨id, id⟩) (of_false hreading) (of_false hfresh) ?_
  · rw [hrefs]
  · intro hl
    obtain ⟨ht, hs, hr⟩ := hpage.lru hl
    refine ⟨ht, hs, .inr ⟨hl, ?_⟩⟩
    rw [hrefs, hpurging]
    exact hr t
  · intro hw
    rw [hwriting]
    rcases hcase : ((task t).role c).writing with _ | _
    · exact .inr ⟨hw, rfl⟩
    · exact .inl rfl

/-- The last reference to an unhashed page is dropped. -/
theorem destroy (htable : c ∉ k.table) (hone : (k.page c).refs = 1)
    (hnew : (th.role c).refs + 1 = ((task t).role c).refs) :
    CacheInv (k.destroy c) (update task t th) := by
  have hpage := h.page c
  have hlru : c ∉ k.lru := fun hl => htable (hpage.lru hl).1
  have hdirty : c ∉ k.dirty := fun hd => htable (hpage.busy (hpage.dirty.mp hd))
  suffices hset : CacheInv
      (k.setPage c ⟨(k.page c).mapping, (k.page c).index, 0, .clean, 0, none⟩)
      (update task t th) from { hset with }
  refine h.setPage hrole ?_
  simp only [htable, hlru, hdirty]
  refine pageInv_dead rfl rfl fun u => ?_
  have hsum := SumUpdate.sum_update_add Role.refs (fun u => (task u).role c) t (th.role c)
  have hcount := hpage.count
  rw [if_neg htable, hone] at hcount
  have hle := refs_le_sum (update (fun u => (task u).role c) t (th.role c)) u
  omega

theorem insert (hfresh : ((task t).role c).fresh = true)
    (hrefs : (th.role c).refs = ((task t).role c).refs) (hnew : (th.role c).fresh = false)
    (hold : ((task t).role c).writing = false) : CacheInv (k.insert c) (update task t th) := by
  have hpage := h.page c
  obtain ⟨htable, hone, hclean⟩ := hpage.fresh t hfresh
  have hlocked := ((task t).role c).fresh_locked hfresh
  have hpos := ((task t).role c).locked_refs hlocked
  have hlru : c ∉ k.lru := fun hl => htable (hpage.lru hl).1
  refine h.onPage (List.nodup_cons.mpr ⟨htable, h.table_nodup⟩) h.lru_nodup h.dirty_nodup le_rfl
    (fun x hx => ?_) hrole ?_
  · exact ⟨update_of_ne hx _ _, by simp [Cache.insert, hx], .rfl, .rfl⟩
  · have hpg : (k.insert c).page c = { k.page c with refs := (k.page c).refs + 1 } :=
      update_self ..
    have hmem : c ∈ (k.insert c).table := List.mem_cons_self
    rw [hpg]
    refine hpage.step (hpage.born (.inr hpos)) (.inr hpos) ?_ (fun hs => absurd hclean hs)
      hpage.dirty (fun hl => absurd hl hlru) (fun _ => hpage.locked t hlocked) (fun _ _ hu => hu)
      (.inr ⟨fun _ => hmem, id⟩) (fun _ => ⟨hmem, hclean⟩) (of_false hnew)
      fun hw => .inr ⟨hw, hold⟩
    rw [if_neg htable, if_pos hmem, hrefs]

/-- A page leaves the table, and with it the lists, by a task that holds its mutex. -/
theorem leave (htable : c ∈ k.table) (hlocked : ((task t).role c).locked = true)
    (hrefs : (th.role c).refs = ((task t).role c).refs) (hreading : (th.role c).reading = false)
    (hfresh : (th.role c).fresh = false)
    (hleave : ¬ (k.page c).refs ≤ 1 → k'.page = update k.page c { k.page c with
        state := .clean, refs := (k.page c).refs - 1 } ∧ k'.table = k.table.erase c ∧
      k'.lru = k.lru.erase c ∧ k'.dirty = k.dirty.erase c ∧ k'.next = k.next) :
    CacheInv k' (update task t th) := by
  have hpage := h.page c
  have hpos := ((task t).role c).locked_refs hlocked
  have hcount := hpage.count
  rw [if_pos htable] at hcount
  have hle := refs_le_sum (fun u => (task u).role c) t
  obtain ⟨hpg, ht, hl, hd, hnext⟩ := hleave (by omega)
  have hout : c ∉ k.table.erase c := h.table_nodup.not_mem_erase
  refine h.onPage ?_ ?_ ?_ hnext.ge (fun x hx => ?_) hrole ?_
  · exact ht ▸ h.table_nodup.erase c
  · exact hl ▸ h.lru_nodup.erase c
  · exact hd ▸ h.dirty_nodup.erase c
  · rw [hpg, ht, hl, hd]
    exact ⟨update_of_ne hx _ _, List.mem_erase_of_ne hx, List.mem_erase_of_ne hx,
      List.mem_erase_of_ne hx⟩
  · rw [hpg, ht, hl, hd, hnext, update_self]
    refine hpage.step (hpage.born (.inr hpos)) (.inl htable) ?_ (fun hs => absurd rfl hs)
      ⟨fun hd => absurd hd h.dirty_nodup.not_mem_erase, fun hs => absurd rfl hs⟩
      (fun hl => absurd hl h.lru_nodup.not_mem_erase) (fun _ => hpage.locked t hlocked)
      (fun _ _ hu => hu) (.inl (hpage.locked t hlocked)) (of_false hreading) (of_false hfresh) nofun
    rw [if_pos htable, if_neg hout, hrefs]
    dsimp only
    omega

/-- A reader whose `read_page` failed takes its page out of the table. -/
theorem unhash (hreading : ((task t).role c).reading = true)
    (hpurging : ((task t).role c).purging = false)
    (hrefs : (th.role c).refs = ((task t).role c).refs) (hnew : (th.role c).reading = false)
    (hfresh : (th.role c).fresh = false) : CacheInv (k.unhash c) (update task t th) := by
  have hpage := h.page c
  obtain ⟨htable, hclean⟩ := hpage.reading t hreading
  have hlocked := ((task t).role c).reading_locked hreading
  -- the page is clean and on no list
  have hlru : c ∉ k.lru := fun hl => by
    have := (hpage.lru hl).2.2 t
    have := ((task t).role c).locked_refs hlocked
    rw [hpurging, if_neg Bool.false_ne_true] at *
    omega
  have hdirty : c ∉ k.dirty := fun hd => hpage.dirty.mp hd hclean
  refine h.leave hrole htable hlocked hrefs hnew hfresh fun hdec => ?_
  refine ⟨?_, rfl, (List.erase_of_not_mem hlru).symm, (List.erase_of_not_mem hdirty).symm, rfl⟩
  simp [Cache.unhash, Cache.setRefs, hdec, ← hclean]

/-- A purge takes a reference on the page it has met; the lists stay as they are. -/
theorem select (htable : c ∈ k.table) (hpurging : ((task t).role c).purging = false)
    (hwriting : ((task t).role c).writing = false)
    (hrefs : (th.role c).refs = ((task t).role c).refs + 1) (hnew : (th.role c).purging = true)
    (hlocked : (th.role c).locked = false) :
    CacheInv (k.setRefs c ((k.page c).refs + 1)) (update task t th) := by
  have hpage := h.page c
  obtain ⟨hreading, hfresh, -⟩ := Role.quiet hlocked
  refine h.setPage hrole ?_
  refine hpage.step (hpage.born (t := t) (.inl htable)) (.inl htable) ?_ hpage.busy hpage.dirty ?_
    (of_false hlocked) (fun _ _ hu => hu) (.inr ⟨id, id⟩) (of_false hreading) (of_false hfresh)
    (fun hw => .inr ⟨hw, hwriting⟩)
  · dsimp only
    omega
  · intro hl
    obtain ⟨ht, hs, hr⟩ := hpage.lru hl
    have hr := hr t
    rw [hpurging, if_neg Bool.false_ne_true] at hr
    exact ⟨ht, hs, .inr ⟨hl, by rw [hrefs, hr, hnew]; rfl⟩⟩

/-- A purge removes the page whose mutex it holds. -/
theorem remove (htable : c ∈ k.table) (hlocked : ((task t).role c).locked = true)
    (hrefs : (th.role c).refs = ((task t).role c).refs) (hreading : (th.role c).reading = false)
    (hfresh : (th.role c).fresh = false) : CacheInv (k.remove c) (update task t th) := by
  refine h.leave hrole htable hlocked hrefs hreading hfresh fun hdec => ⟨?_, rfl, rfl, rfl, rfl⟩
  simp [Cache.remove, Cache.unhash, Cache.setRefs, Cache.setState, hdec]

end

/-- Nothing but the place in the code of one task changes. -/
theorem setThread (hrole : ∀ x, th.role x = (task t).role x) : CacheInv k (update task t th) := by
  refine ⟨h.table_nodup, h.lru_nodup, h.dirty_nodup, fun x => ?_⟩
  rw [role_update]
  exact (h.page x).frame rfl .rfl .rfl .rfl id (hrole x)

/-- A new page with its mutex taken. -/
theorem create {m index : ℕ} (hrole : ∀ x ≠ k.next, th.role x = (task t).role x)
    (hrefs : (th.role k.next).refs = ((task t).role k.next).refs + 1)
    (hreading : (th.role k.next).reading = false) :
    CacheInv (k.create t m index) (update task t th) := by
  have hpage := h.page k.next
  obtain ⟨htable, hzero⟩ := hpage.unborn le_rfl
  have hlru : k.next ∉ k.lru := fun hl => htable (hpage.lru hl).1
  have hclean : (k.page k.next).state = .clean := by
    by_contra hs
    exact htable (hpage.busy hs)
  have hdirty : k.next ∉ k.dirty := fun hd => hpage.dirty.mp hd hclean
  have hcount := hpage.count
  rw [if_neg htable, hzero] at hcount
  -- nobody can have heard of the page
  have hnone : ∀ u, ((task u).role k.next).refs = 0 := fun u => by
    have := refs_le_sum (fun u => (task u).role k.next) u
    omega
  have hother : ∀ u, u ≠ t →
      (update (fun u => (task u).role k.next) t (th.role k.next) u).locked = false := by
    intro u hu
    rw [update_of_ne hu]
    by_contra hlock
    have := ((task u).role k.next).locked_refs (by simpa using hlock)
    rw [hnone u] at this
    exact lt_irrefl 0 this
  refine h.onPage (c := k.next) h.table_nodup h.lru_nodup h.dirty_nodup (Nat.le_succ _)
    (fun x hx => ?_) hrole ?_
  · exact ⟨update_of_ne hx _ _, .rfl, .rfl, .rfl⟩
  · have hnew : (k.create t m index).page k.next = ⟨m, index, 1, .clean, 0, some t⟩ :=
      update_self ..
    rw [hnew]
    have hborn : ¬ (k.create t m index).next ≤ k.next := Nat.not_succ_le_self _
    refine ⟨fun hu => absurd hu hborn, ?_, fun hs => absurd rfl hs,
      ⟨fun hd => absurd hd hdirty, fun hs => absurd rfl hs⟩, fun hl => absurd hl hlru, ?_, ?_, ?_,
        ?_⟩
    · have hsum := SumUpdate.sum_update_add Role.refs (fun u => (task u).role k.next) t
        (th.role k.next)
      have := hnone t
      change 1 = (if k.next ∈ k.table then 1 else 0) + _
      rw [if_neg htable]
      omega
    · intro u hu
      rcases eq_or_ne u t with rfl | hne
      · rfl
      · exact of_false (hother u hne) hu
    · intro u hu
      rcases eq_or_ne u t with rfl | hne
      · exact of_false hreading (by rwa [update_self] at hu)
      · exact of_false (hother u hne) (Role.reading_locked _ hu)
    · exact fun u hu => ⟨htable, rfl, rfl⟩
    · exact nofun

/-- The page at the front of the LRU list gives way. -/
theorem evict {v : ℕ} (hlru : v ∈ k.lru) (hone : (k.page v).refs = 1) :
    CacheInv (Cache.destroy { k with
      lru := k.lru.erase v
      table := k.table.erase v
      nr := k.nr - 1 } v) task := by
  have hpage := h.page v
  obtain ⟨htable, hclean, -⟩ := hpage.lru hlru
  have hdirty : v ∉ k.dirty := fun hd => hpage.dirty.mp hd hclean
  refine ⟨h.table_nodup.erase v, h.lru_nodup.erase v, h.dirty_nodup, fun x => ?_⟩
  rcases eq_or_ne x v with rfl | hx
  · have hnew : (Cache.destroy { k with
        lru := k.lru.erase x
        table := k.table.erase x
        nr := k.nr - 1 } x).page x =
          ⟨(k.page x).mapping, (k.page x).index, 0, .clean, 0, none⟩ := update_self ..
    rw [hnew]
    have hlru' : x ∉ k.lru.erase x := h.lru_nodup.not_mem_erase
    have htable' : x ∉ k.table.erase x := h.table_nodup.not_mem_erase
    change PageInv _ (x ∈ k.table.erase x) (x ∈ k.lru.erase x) (x ∈ k.dirty) _ _
    simp only [hlru', htable', hdirty]
    refine pageInv_dead rfl rfl fun u => ?_
    have hcount := hpage.count
    rw [if_pos htable, hone] at hcount
    have := refs_le_sum (fun u => (task u).role x) u
    omega
  · exact (h.page x).congr (update_of_ne hx _ _) (List.mem_erase_of_ne hx)
      (List.mem_erase_of_ne hx) .rfl id

/-- A collection takes a reference on each of the dirty pages it returns. -/
theorem holdAll {pages : List ℕ} (hsub : ∀ x ∈ pages, x ∈ k.dirty)
    (hrole : ∀ x, x ∉ pages → th.role x = (task t).role x)
    (hrefs : ∀ x, (th.role x).refs = ((task t).role x).refs + pages.count x)
    (hlocked : ∀ x, (th.role x).locked = false)
    (hwriting : ∀ x, ((task t).role x).writing = false) :
    CacheInv (k.holdAll pages) (update task t th) := by
  refine ⟨h.table_nodup, h.lru_nodup, h.dirty_nodup, fun x => ?_⟩
  rw [role_update]
  have hpage := h.page x
  by_cases hx : x ∈ pages
  · have hstate := hpage.dirty.mp (hsub x hx)
    have htable := hpage.busy hstate
    obtain ⟨hreading, hfresh, -⟩ := Role.quiet (hlocked x)
    refine hpage.step (hpage.born (t := t) (.inl htable)) (.inl htable) ?_ hpage.busy hpage.dirty
      (fun hl => absurd (hpage.lru hl).2.1 hstate) (of_false (hlocked x)) (fun _ _ hu => hu)
      (.inr ⟨id, id⟩) (of_false hreading) (of_false hfresh) (fun hw => .inr ⟨hw, hwriting x⟩)
    rw [hrefs x]
    change (k.page x).refs + pages.count x + (if x ∈ k.table then 1 else 0) + _ =
      _ + (if x ∈ k.table then 1 else 0) + _
    omega
  · have hpg : (k.holdAll pages).page x = k.page x := by
      change { k.page x with refs := (k.page x).refs + pages.count x } = k.page x
      rw [List.count_eq_zero_of_not_mem hx]
      rfl
    exact hpage.frame hpg .rfl .rfl .rfl id (hrole x hx)

end

end CacheInv

/-! ### The steps -/

section

variable {hasMutex : ℕ → Bool} {s s' : State N} {t : Fin N} {a : Action} {held : List ℕ} {pc : Pc}
  {th : Thread} {task : Fin N → Thread} {k : Cont} {ret : ℤ}

@[simp] theorem setCache_task (k : Cache N) : (s.setCache k).task = s.task := rfl

@[simp] theorem setOwner_task (m : ℕ) (o : Option (Fin N)) : (s.setOwner m o).task = s.task := rfl

/-- A lookup that finds a page takes a reference on it. -/
theorem CacheInv.hold {k : Cache N} (h : CacheInv k task) (htable : c ∈ k.table)
    (hrole : ∀ x ≠ c, th.role x = (task t).role x)
    (hrefs : (th.role c).refs = ((task t).role c).refs + 1) (hlocked : (th.role c).locked = false)
    (hwriting : ((task t).role c).writing = false) : CacheInv (k.hold c) (update task t th) := by
  have hpage := h.page c
  obtain ⟨hreading, hfresh, -⟩ := Role.quiet hlocked
  refine h.relink hrole (.inl htable) ?_ (fun _ => htable) (of_false hlocked) (fun _ _ hu => hu)
    (.inr id) hreading hfresh (fun hw => .inr ⟨hw, hwriting⟩)
  dsimp only
  omega

/-- A task that leaves the mutex of a page and keeps its references. -/
theorem Inv.unlock (h : Inv s) (hlocked : ((s.task t).role c).locked = true)
    (hrefs : ∀ x, (th.role x).refs = ((s.task t).role x).refs)
    (hpurging : (s.task t).pc.purging = none) (hwriting : (s.task t).pc.writing = none)
    (hreading : (s.task t).pc.reading = none) (hfresh : (s.task t).pc.fresh = none)
    (hth : th.pc.locked = none ∧ th.pc.purging = none ∧ th.pc.writing = none ∧
      th.pc.reading = none ∧ th.pc.fresh = none) :
    CacheInv (s.cache.setHolder c none) (update s.task t th) := by
  have hholder := (h.page c).locked t hlocked
  have honly : (s.task t).pc.locked = some c := by simpa using hlocked
  refine CacheInv.setHolder h (fun x hx => ?_) (Role.locked_refs _ hlocked) (hrefs c)
    ?_ ?_ ?_ ?_ ?_ ?_
  · ext
    · exact hrefs x
    all_goals simp [hth, hpurging, hwriting, hreading, hfresh, honly, hx.symm]
  · simp [hth, hpurging]
  · simp [hth]
  · simp [hth]
  · simp [hth, hwriting]
  · simp [hth]
  · intro u hu hh
    exact absurd (Option.some.inj (hholder.symm.trans hh)).symm hu

/-- A task that gets the mutex of a page it has a reference on. -/
theorem Inv.lock (h : Inv s) (hfree : (s.cache.page c).holder = none)
    (hpos : 0 < ((s.task t).role c).refs) (hrefs : ∀ x, (th.role x).refs = ((s.task t).role x).refs)
    (hnone : (s.task t).pc.locked = none) (hlocked : th.pc.locked = some c)
    (hpurging : th.pc.purging = (s.task t).pc.purging) (hwriting : th.pc.writing = none)
    (hreading : th.pc.reading = none) (hfresh : th.pc.fresh = none) :
    CacheInv (s.cache.setHolder c (some t)) (update s.task t th) := by
  have hquiet : ∀ x, ((s.task t).role x).reading = false ∧ ((s.task t).role x).fresh = false ∧
      ((s.task t).role x).writing = false := fun x => Role.quiet (by simp [hnone])
  refine CacheInv.setHolder h (fun x hx => ?_) hpos (hrefs c) ?_ ?_ ?_ ?_ (fun _ => rfl) ?_
  · ext
    · exact hrefs x
    · simp [hlocked, hnone, hx.symm]
    · rw [(hquiet x).1]
      simp [hreading]
    · rw [(hquiet x).2.1]
      simp [hfresh]
    · rw [(hquiet x).2.2]
      simp [hwriting]
    · simp [hpurging]
  · simp [hpurging]
  · simp [hreading]
  · simp [hfresh]
  · rw [(hquiet c).2.2]
    simp [hwriting]
  · intro u _ hu
    rw [hfree] at hu
    cases hu

theorem Cont.refs_afterPut (k : Cont) (x : ℕ) : k.afterPut.refs x = k.refs x := by
  cases k <;> rfl

/-- `mapping_make_room` keeps the invariant, and the new page stays as it is. -/
theorem CacheInv.makeRoom {k k' : Cache N} (h : CacheInv k task)
    (hroom : k.makeRoom = .room k') : CacheInv k' task := by
  unfold Cache.makeRoom at hroom
  split_ifs at hroom with hnr
  · cases hroom
    exact h
  · split at hroom
    · cases hroom
    · next v rest hlru =>
      dsimp only at hroom
      split_ifs at hroom with hbusy
      cases hroom
      push Not at hbusy
      exact h.evict (by rw [hlru]; exact List.mem_cons_self) hbusy.1

attribute [local simp] Cont.refs Pc.refs Pc.locked Pc.reading Pc.fresh Pc.writing Pc.purging

/-- The second lookup has found a page: first a reference to it, then the end of the new one. -/
theorem Inv.insertHit {cached : ℕ} (h : Inv s) (hpc : (s.task t).pc = .getInsert c)
    (hcached : cached ∈ s.cache.table) : CacheInv ((s.cache.hold cached).destroy c)
      (update s.task t ⟨(s.task t).held, .readyLock cached⟩) := by
  obtain ⟨htable, hone, -⟩ := (h.page c).fresh t (by simp [hpc])
  have hne : c ≠ cached := fun heq => htable (heq ▸ hcached)
  have hhold : CacheInv (s.cache.hold cached)
      (update s.task t ⟨cached :: (s.task t).held, .getInsert c⟩) := by
    refine CacheInv.hold h hcached (fun x hx => ?_) ?_ ?_ ?_
    · ext <;> simp [hpc, List.count_cons_of_ne hx.symm]
    · simp [hpc]
      omega
    · simp [hne]
    · simp [hpc]
  have hpg : (s.cache.hold cached).page c = s.cache.page c := by
    rw [Cache.hold, Cache.link_page]
    exact update_of_ne hne _ _
  have hdestroy : CacheInv ((s.cache.hold cached).destroy c) (update (update
      s.task t ⟨cached :: (s.task t).held, .getInsert c⟩) t
        ⟨(s.task t).held, .readyLock cached⟩) := by
    refine hhold.destroy (fun x hx => ?_) ?_ ?_ ?_
    · rw [update_self]
      ext <;> simp [List.count_cons, at_, hx.symm]
    · rwa [Cache.hold, Cache.link_table]
    · rwa [hpg]
    · simp [hne.symm, at_of_ne hne]
  rwa [update_idem] at hdestroy

theorem Inv.readPage (h : Inv s) (hpc : (s.task t).pc = .getRead c) :
    CacheInv (s.cache.setRead c ret) (update s.task t
      ⟨(s.task t).held, if ret = 0 then .getUnlock c else .getFail c⟩) := by
  have hpage := h.page c
  have hreading : ((s.task t).role c).reading = true := by simp [hpc]
  obtain ⟨htable, hclean⟩ := hpage.reading t hreading
  have hholder := hpage.locked t (Role.reading_locked _ hreading)
  have hlru : c ∉ s.cache.lru := fun hl => by
    have := (hpage.lru hl).2.2 t
    simp [hpc] at this
  suffices hset : CacheInv (s.cache.setPage c { s.cache.page c with error := ret })
      (update s.task t ⟨(s.task t).held, if ret = 0 then .getUnlock c else .getFail c⟩) from
    { hset with }
  refine CacheInv.setPage h (fun x hx => ?_) ?_
  · split_ifs <;> ext <;> simp [hpc, at_of_ne hx, hx.symm]
  · refine hpage.step (hpage.born (t := t) (.inl htable)) (.inl htable) ?_ hpage.busy hpage.dirty
      (fun hl => absurd hl hlru) (fun _ => hholder) (fun _ _ hu => hu) (.inr ⟨id, id⟩)
      (fun _ => ⟨htable, hclean⟩) ?_ (fun hw => .inr ⟨hw, by simp [hpc]⟩)
    · split_ifs <;> simp [hpc]
    · intro hf
      split_ifs at hf <;> simp at hf

/-- The first section of `mapping_writeback` on a dirty page. -/
theorem Inv.wbBegin (h : Inv s) (hpc : (s.task t).pc = .wbTest c k)
    (hdirty : (s.cache.page c).state.dirty = true) :
    CacheInv (((s.cache.setState c ⟨false, true⟩).setRefs c ((s.cache.page c).refs + 1)).link c)
      (update s.task t ⟨(s.task t).held, .wbWrite c k⟩) := by
  have hholder := (h.page c).locked t (by simp [hpc])
  have hbusy : (s.cache.page c).state ≠ .clean := by
    intro heq
    rw [heq] at hdirty
    cases hdirty
  have htable := (h.page c).busy hbusy
  have hset : (s.cache.setState c ⟨false, true⟩).setRefs c ((s.cache.page c).refs + 1) =
      s.cache.setPage c { s.cache.page c with
        state := ⟨false, true⟩, refs := (s.cache.page c).refs + 1 } := by
    simp [Cache.setRefs, Cache.setState, Cache.setPage]
  rw [hset]
  refine CacheInv.relink h (fun x hx => ?_) (.inl htable) ?_ (fun _ => htable) (fun _ => hholder)
    (fun _ _ hu => hu) (.inl hholder) ?_ ?_ (fun _ => .inl ?_)
  · ext <;> simp [hpc, at_of_ne hx, hx.symm]
  · simp [hpc]
    omega
  all_goals simp

/-- The second section of `mapping_writeback`. -/
theorem Inv.wbDone (h : Inv s)
    (hpc : (s.task t).pc = .wbDone c ret k) : CacheInv (s.cache.finish c ret)
      (update s.task t ⟨(s.task t).held, .wbUnlock c ret k⟩) := by
  have hlocked : ((s.task t).role c).locked = true := by simp [hpc]
  have hholder := (h.page c).locked t hlocked
  have hcount := (h.page c).count
  have hle := refs_le_sum (fun u => (s.task u).role c) t
  have htwo : 2 ≤ ((s.task t).role c).refs := by
    simp [hpc]
    omega
  obtain ⟨e, hset⟩ : ∃ e : ℕ → ℤ, s.cache.finish c ret = Cache.link (Cache.setPage
      { s.cache with mError := e } c { s.cache.page c with
        state := .clean, refs := (s.cache.page c).refs - 1 }) c := by
    have hdec : ¬ (s.cache.page c).refs ≤ 1 := by omega
    unfold Cache.finish
    split_ifs
    · exact ⟨update s.cache.mError (s.cache.page c).mapping ret,
        by simp [Cache.setRefs, Cache.setState, Cache.setPage, hdec]⟩
    · exact ⟨s.cache.mError, by simp [Cache.setRefs, Cache.setState, Cache.setPage, hdec]⟩
  have herror : CacheInv { s.cache with mError := e } s.task :=
    ⟨h.table_nodup, h.lru_nodup, h.dirty_nodup, h.page⟩
  rw [hset]
  refine herror.relink (fun x hx => ?_) (.inr (by omega)) ?_ (fun hs => absurd rfl hs)
    (fun _ => hholder) (fun _ _ hu => hu) (.inl hholder) ?_ ?_ (fun hw => nomatch hw)
  · ext <;> simp [hpc, at_of_ne hx, hx.symm]
  · simp [hpc]
    omega
  all_goals simp

/-- `mapping_put`: the task has one reference less and nothing else in hand. -/
theorem role_afterPut (hpc : (s.task t).pc = .put c k) :
    (∀ x ≠ c, (⟨(s.task t).held, k.afterPut⟩ : Thread).role x = (s.task t).role x) ∧
      ((⟨(s.task t).held, k.afterPut⟩ : Thread).role c).refs + 1 = ((s.task t).role c).refs := by
  refine ⟨fun x hx => ?_, ?_⟩
  · cases k <;> ext <;> simp [hpc, Cont.afterPut, at_of_ne hx]
  · cases k <;> simp [hpc, Cont.afterPut] <;> omega

/-- A purge finds that its page has left the table. -/
theorem Inv.purgeGone {v m start stop : ℕ} (h : Inv s)
    (hpc : (s.task t).pc = .purgeRemove v m start stop) (htable : v ∉ s.cache.table) :
    CacheInv s.cache (update s.task t ⟨(s.task t).held, .purgeUnlock v m start stop⟩) := by
  have hpage := h.page v
  have hpos : 0 < ((s.task t).role v).refs := by simp [hpc]
  have hholder := hpage.locked t (by simp [hpc])
  refine CacheInv.onPage (c := v) h h.table_nodup h.lru_nodup h.dirty_nodup le_rfl
    (fun _ _ => ⟨rfl, .rfl, .rfl, .rfl⟩) (fun x hx => ?_) ?_
  · ext <;> simp [hpc, hx.symm]
  · refine hpage.step (hpage.born (.inr hpos)) (.inr hpos) ?_ hpage.busy hpage.dirty
      (fun hl => absurd (hpage.lru hl).1 htable) (fun _ => hholder) (fun _ _ hu => hu)
      (.inl hholder) ?_ ?_ (fun hw => .inr ⟨hw, ?_⟩)
    all_goals simp [hpc]

/-- A client takes or releases the mutex of a page it has. -/
theorem Inv.clientLock (h : Inv s) (hpc : (s.task t).pc = .idle) (hheld : c ∈ (s.task t).held)
    (hholder : ∀ u ≠ t, (s.cache.page c).holder = some u → o = some u) :
    CacheInv (s.cache.setHolder c o) s.task := by
  have hpos : 0 < ((s.task t).role c).refs := Nat.add_pos_left (List.count_pos_iff.mpr hheld) _
  have hinv : CacheInv (s.cache.setHolder c o) (update s.task t (s.task t)) :=
    CacheInv.setHolder h (fun _ _ => rfl) hpos rfl rfl (by simp [hpc]) (by simp [hpc]) rfl
      (fun hl => by simp [hpc] at hl) hholder
  rwa [update_eq_self] at hinv

theorem Inv.step {a : Fin N × Action} (h : Inv s) (hstep : step hasMutex s a = some s') :
    Inv s' := by
  obtain ⟨t, a⟩ := a
  obtain ⟨pc, hpc, hmove⟩ := step_move hstep
  have hcollect : ∀ m, ∀ x ∈ s.cache.collect m, x ∈ s.cache.dirty :=
    fun m x hx => (List.mem_filter.mp hx).1
  cases hmove with
  | lockMapping | unlockMapping | dirtyDetached | insertPanic | putPanic | purgePanic => exact h
  | getMiss | flush | flusher | purge | allocFail | wbClean | writePage | flushAlloc
  | flushAllocFail | flushSample | flushReturn | flusherEnd | flusherUnlock | flusherPut
  | purgeReturn =>
    refine CacheInv.setThread h fun x => ?_
    ext <;> simp [hpc]
  | flushNext | flusherLock | flusherNext =>
    refine CacheInv.setThread h fun x => ?_
    ext <;> simp [hpc, List.count_cons, at_]
    omega
  | put hc =>
    refine CacheInv.setThread h fun x => ?_
    ext
    · simpa [hpc] using count_erase_add_at hc x
    all_goals simp [hpc]
  | writeback hc =>
    refine CacheInv.setThread h fun x => ?_
    ext
    · simpa [hpc] using count_erase_add_at hc.1 x
    all_goals simp [hpc]
  | getHit hlock hfind =>
    refine CacheInv.hold h (List.mem_of_find?_eq_some hfind) (fun x hx => ?_) ?_ ?_ ?_
    · ext <;> simp [hpc, at_of_ne hx]
    all_goals simp [hpc]
  | lock hc => exact h.clientLock hpc hc.1 fun u _ hu => by simp [hc.2] at hu
  | unlock hc =>
    refine h.clientLock hpc hc.1 fun u hu hh => absurd ?_ hu
    exact (Option.some.inj (hc.2.symm.trans hh)).symm
  | @dirty c hcall hc =>
    have hinv : CacheInv ((s.cache.setState c ⟨true, (s.cache.page c).state.writeback⟩).link c)
        (update s.task t (s.task t)) :=
      CacheInv.relink h (fun _ _ => rfl) (.inl hc) rfl (fun _ => hc)
        (fun hl => by simp [hpc] at hl) (fun _ _ hu => hu) (.inl hcall.2.1) (by simp [hpc])
        (by simp [hpc]) (fun hw => .inr ⟨hw, by simp [hpc]⟩)
    rwa [update_eq_self] at hinv
  | alloc =>
    refine CacheInv.create h (fun x hx => ?_) ?_ ?_
    · ext <;> simp [hpc, at_of_ne hx, hx.symm]
    all_goals simp [hpc]
  | insertHit hfind => exact h.insertHit hpc (List.mem_of_find?_eq_some hfind)
  | @insertFull c hfind hroom =>
    obtain ⟨htable, hone, -⟩ := (h.page c).fresh t (by simp [hpc])
    refine CacheInv.destroy h (fun x hx => ?_) htable hone ?_
    · ext <;> simp [hpc, at_of_ne hx, hx.symm]
    all_goals simp [hpc]
  | insert hfind hroom =>
    refine CacheInv.insert (CacheInv.makeRoom h hroom) (t := t) (fun x hx => ?_) ?_ ?_ ?_ ?_
    · ext <;> simp [hpc, at_of_ne hx, hx.symm]
    all_goals simp [hpc]
  | readPage => exact h.readPage hpc
  | getFail =>
    refine CacheInv.unhash h (t := t) (fun x hx => ?_) (by simp [hpc]) (by simp [hpc]) ?_ ?_ ?_
    · ext <;> simp [hpc, at_of_ne hx, hx.symm]
    all_goals simp [hpc]
  | readyLock hfree | wbLock hfree | purgeLock hfree =>
    refine h.lock hfree ?_ (fun x => ?_) ?_ ?_ ?_ ?_ ?_ ?_ <;> simp [hpc]
  | getUnlock | getUnlockFail | readyUnlock | readyUnlockFail | purgeUnlock =>
    refine h.unlock (by simp [hpc]) (fun x => ?_) (by simp [hpc]) (by simp [hpc]) (by simp [hpc])
      (by simp [hpc]) (by simp)
    simp [hpc, List.count_cons, at_]
  | @wbUnlock c ret k =>
    refine h.unlock (by simp [hpc]) (fun x => ?_) (by simp [hpc]) (by simp [hpc]) (by simp [hpc])
      (by simp [hpc]) (by cases k <;> simp [Cont.afterWriteback])
    cases k <;> simp [hpc, Cont.afterWriteback, List.count_cons, at_]
  | putLast hone hc =>
    obtain ⟨hrole, hrefs⟩ := role_afterPut hpc
    exact CacheInv.destroy h hrole hc hone hrefs
  | @putRef c k hzero hone =>
    obtain ⟨hrole, hrefs⟩ := role_afterPut hpc
    change CacheInv _ (update s.task t ⟨(s.task t).held, _⟩)
    refine CacheInv.relink h hrole (.inr (by omega)) ?_ (h.page c).busy ?_ (fun _ _ hu => hu)
      (.inr id) ?_ ?_ (fun hw => .inr ⟨hw, by simp [hpc]⟩)
    · dsimp only
      omega
    all_goals cases k <;> simp [Cont.afterPut]
  | wbBegin hdirty => exact h.wbBegin hpc hdirty
  | wbDone => exact h.wbDone hpc
  | flushCollect | flusherCollect =>
    refine CacheInv.holdAll h (hcollect _) (fun x hx => ?_) (fun x => ?_) (fun x => ?_)
      (fun x => ?_)
    · ext <;> simp [hpc, List.count_eq_zero_of_not_mem hx]
    all_goals simp [hpc]
  | purgeSelect hmatch =>
    refine CacheInv.select h (t := t) (fun x hx => ?_) hmatch.1 ?_ ?_ ?_ ?_ ?_
    · ext <;> simp [hpc, at_of_ne hx, hx.symm]
    all_goals simp [hpc]
  | purgeRemove hc =>
    refine CacheInv.remove h (t := t) (fun x hx => ?_) hc ?_ ?_ ?_ ?_
    · ext <;> simp [hpc, hx.symm]
    all_goals simp [hpc]
  | purgeGone hc => exact h.purgeGone hpc hc

theorem inv_boot : Inv (boot N) := by
  refine ⟨List.nodup_nil, List.nodup_nil, List.nodup_nil, fun c => ?_⟩
  have hnil : ∀ l : List ℕ, l = [] → (c ∈ l ↔ False) := fun l hl => by simp [hl]
  have hblank : PageInv (CachePage.blank N) False False False (0 ≤ c)
      fun u => (((boot N).task u).role c) := CacheInv.pageInv_dead rfl rfl fun u => rfl
  exact hblank.congr rfl (hnil _ rfl) (hnil _ rfl) (hnil _ rfl) id

end

end Nuvix.Mapping
