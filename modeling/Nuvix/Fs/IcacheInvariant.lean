import Nuvix.Fs.IcacheWait

/-!
# The inode cache, along every run
-/

namespace Nuvix.Icache

open Transition

variable {N : ℕ} {inodes : ℕ → ℕ} {s s' : State N} {t : Fin N} {c : ℕ} {life : ℕ → Life}

/-- How many tasks have `κ` to do with the inode. -/
def State.tokens (s : State N) (κ : Kind) (c : ℕ) : ℕ := ∑ t, (s.task t).tokens.count (κ, c)

/-- The references that tasks have to an inode. -/
def State.refsTo (s : State N) (c : ℕ) : ℕ := s.tokens .ref c + s.tokens .raw c + s.tokens .load c

/-- The tasks that have taken on the end of an inode. -/
def State.duties (s : State N) (c : ℕ) : ℕ :=
  s.tokens .evict c + s.tokens .unhash c + s.tokens .free c

/-- What holds in every state of the inode cache. -/
structure IcacheOk (inodes : ℕ → ℕ) (s : State N) : Prop where
  /-- One hashed inode for each file system and number. -/
  unique : ∀ c ∈ s.table, ∀ d ∈ s.table, (s.inode c).sb = (s.inode d).sb →
    (s.inode c).ino = (s.inode d).ino → c = d
  /-- What a caller has got is neither being read nor being evicted. -/
  held : ∀ t, ∀ c ∈ (s.task t).held, (s.inode c).state = .ready
  count : ∀ c, (s.inode c).count = s.refsTo c
  /-- Once the last reference is dropped, one task destroys the inode, once. -/
  destroyed : ∀ c, s.destroys c + s.duties c = if c < s.next ∧ s.refsTo c = 0 then 1 else 0
  /-- An inode that is `I_FREEING` is evicted once, and another one is not. -/
  evicted : ∀ c, s.evicts c + s.tokens .evict c = if (s.inode c).state = .freeing then 1 else 0
  /-- The drop of the last reference makes it `I_FREEING` if it is hashed. -/
  freeing : ∀ t a s' c, step inodes s (t, a) = some s' → s.refsTo c ≠ 0 → s'.refsTo c = 0 →
    ((s'.inode c).state = .freeing ↔ c ∈ s.table)
  /-- A task asleep in `icache_wait_locked` has something to wait for, or will be woken. -/
  wake : ∀ t l, (s.task t).pc = .parked l → s.asleep t = true →
    (∃ n ∈ s.table, s.key n = l.key s ∧ (s.inode n).state ≠ .ready) ∨
      ∃ u, (s.task u).pc.waking = true

/-! ### From the lives of the inodes -/

theorem Agrees.refsTo (h : Agrees s life) (c : ℕ) : s.refsTo c = (life c).count := by
  rw [State.refsTo, State.tokens, State.tokens, State.tokens, h.tokens, h.tokens, h.tokens]
  cases life c <;> rfl

theorem Agrees.duties (h : Agrees s life) (c : ℕ) : s.destroys c + s.duties c =
    if c < s.next ∧ s.refsTo c = 0 then 1 else 0 := by
  have hborn : c < s.next ↔ life c ≠ .unborn := by
    rw [← not_le, (h.fits c).born]
  rw [h.refsTo, (h.fits c).destroys, State.duties, State.tokens, State.tokens, State.tokens,
    h.tokens, h.tokens, h.tokens]
  simp only [hborn]
  cases life c <;> simp [Life.tokens, Life.destroys, Life.count]

theorem Agrees.evicted (h : Agrees s life) (c : ℕ) : s.evicts c + s.tokens .evict c =
    if (s.inode c).state = .freeing then 1 else 0 := by
  rw [(h.fits c).state, (h.fits c).evicts, State.tokens, h.tokens]
  cases life c with
  | dying cached | dead cached => cases cached <;> rfl
  | _ => rfl

/-- What a step of a life does that drops the last reference. -/
theorem Life.Next.last {l l' : Life} (h : Life.Next l l') (hpos : l.count ≠ 0)
    (hzero : l'.count = 0) : l'.state = .freeing ↔ l.hashed = true := by
  cases h with
  | evict => exact iff_of_true rfl rfl
  | free => exact iff_of_false nofun nofun
  | stay => exact absurd hzero hpos
  | alloc | anonymous | evicted | unhash | destroy => exact absurd rfl hpos
  | load | publish | giveUp | loaded | hold | drop => cases hzero

/-- The invariant of the cache. -/
def Inv (s : State N) : Prop := (∃ life, Agrees s life) ∧ Waits s

theorem Inv.step {a : Action} (h : Inv s) (hstep : Icache.step inodes s (t, a) = some s') :
    Inv s' := by
  obtain ⟨⟨life, hlife⟩, hwaits⟩ := h
  obtain ⟨life', hlife', -⟩ := hlife.step hstep
  have heffect := step_effect hlife (fun hs => (hwaits.asleep t hs).1) hstep
  exact ⟨⟨life', hlife'⟩, hwaits.step hlife heffect⟩

theorem Inv.icacheOk (h : Inv s) : IcacheOk inodes s := by
  obtain ⟨⟨life, hlife⟩, hwaits⟩ := h
  refine ⟨fun c hc d hd hsb hino => hwaits.key c hc d hd (Prod.ext hsb hino), fun t c hc => ?_,
    fun c => ?_, hlife.duties, hlife.evicted, fun t a s' c hstep hpos hzero => ?_,
    fun t l hpc hs => ?_⟩
  · have hmem : (Kind.ref, c) ∈ (s.task t).tokens := List.mem_append_left _ (List.mem_map_of_mem hc)
    obtain ⟨hashed, others, hlive⟩ := hlife.allows hmem
    rw [(hlife.fits c).state, hlive]
    rfl
  · rw [hlife.refsTo, (hlife.fits c).count]
  · obtain ⟨life', hlife', hnext⟩ := hlife.step hstep
    rw [(hlife'.fits c).state, (hlife.fits c).hashed]
    refine (hnext c).last ?_ ?_
    · rwa [← hlife.refsTo]
    · rwa [← hlife'.refsTo]
  · refine (hwaits.wait t l hpc hs).imp_left ?_
    rintro ⟨n, ⟨hmem, hstate⟩, hkey⟩
    exact ⟨n, hmem, hkey, hstate⟩

/-- **The inode cache.** In every state that any number of tasks reach, the inodes are unique,
callers have only inodes that are ready, an inode ends once, and no sleeper is forgotten. -/
theorem icacheOk_of_reachable (hs : Reachable (· = boot N) (Graph (step inodes)) s) :
    IcacheOk inodes s := by
  have hinit : ∀ s : State N, s = boot N → Inv s := by
    rintro s rfl
    exact ⟨⟨_, agrees_boot⟩, waits_boot⟩
  exact (hs.invariant hinit fun s b s' hinv hstep => hinv.step hstep).icacheOk

/-! ### Runs -/

/-- Task `0` reads inode `2` of file system `0`, and task `1` sleeps until it is there. -/
def sharedIget : List (Fin 2 × Action) :=
  [(0, .iget 0 2), (0, .run), (0, .result true), (0, .run), (1, .iget 0 2), (1, .run), (0, .run),
    (0, .result true), (0, .run)]

/-- The sleeper and the pending waker. -/
theorem icacheOk_sharedIget : ∃ s : State 2,
    Reachable (· = boot 2) (Graph (step fun _ => 16)) s ∧ IcacheOk (fun _ => 16) s ∧
    (s.task 1).pc = .parked (.find 0 2 true) ∧ s.asleep 1 = true ∧
    (s.task 0).pc = .readyWake 0 ∧ (s.inode 0).state = .ready :=
  exists_of_exec sharedIget rfl (fun _ hs => icacheOk_of_reachable hs) (by decide +kernel)

/-- A task looks up inode `2` and cannot read it. -/
def failedIget : List (Fin 1 × Action) :=
  [(0, .iget 0 2), (0, .run), (0, .result true), (0, .run), (0, .run), (0, .result false),
    (0, .run), (0, .run), (0, .run), (0, .run)]

/-- The inode has been hashed and destroyed, nobody has anything to do with it, and it has
not been evicted. -/
theorem aborted_not_evicted : ∃ s : State 1,
    Reachable (· = boot 1) (Graph (step fun _ => 16)) s ∧ (s.task 0).pc = .idle ∧
    s.refsTo 0 = 0 ∧ s.destroys 0 = 1 ∧ s.evicts 0 = 0 := by
  have hexec : ((exec (step fun _ => 16) (boot 1) failedIget).map fun s =>
      decide ((s.task 0).pc = .idle ∧ s.refsTo 0 = 0 ∧ s.destroys 0 = 1 ∧ s.evicts 0 = 0)) =
      some true := by decide +kernel
  obtain ⟨s, hs, hok⟩ := Option.map_eq_some_iff.mp hexec
  exact ⟨s, Reachable.exec (.init rfl) hs, of_decide_eq_true hok⟩

end Nuvix.Icache
